/-
# Doubly linked lists behind a head pointer

The nodes of a type `ι` have two fields, functions `next` and `prev` to
`Option ι` (`none` is `NULL`).  `Seg next prev b p l q` is a segment: from `p` the
`next` pointers visit `l` and arrive at `q`, and the `prev` pointers lead back the
same way to `b`.  A list is a segment from a head with nothing before it and
nothing behind it.

A segment is cut and glued anywhere (`Seg.append`, `Seg.split`), its ends can be
bent (`Seg.retarget`, `Seg.rebase`), and from these follow the three edits:
`Links.insertHead`, `Links.insertAfter` and `Links.remove`.
-/

import Flopperating.Data.LinkedList

namespace DoublyLinked

variable {ι : Type*}

/-- From `p` on, behind `b`, the nodes are `l`, and behind them comes `q`. -/
def Seg (next prev : ι → Option ι) : Option ι → Option ι → List ι → Option ι → Prop
  | _, p, [], q => p = q
  | b, p, i :: l, q => p = some i ∧ prev i = b ∧ Seg next prev (some i) (next i) l q

/-- The list at `p` is `l`, forwards and backwards. -/
abbrev Links (next prev : ι → Option ι) (p : Option ι) (l : List ι) : Prop :=
  Seg next prev none p l none

/-- The last node, or what is before the list. -/
def lastOr : Option ι → List ι → Option ι
  | b, [] => b
  | _, i :: l => lastOr (some i) l

variable {next prev next' prev' : ι → Option ι} {b b' p p' q r : Option ι} {a i : ι} {l l₁ l₂ : List ι}

@[simp] theorem lastOr_snoc (b : Option ι) (l : List ι) (a : ι) : lastOr b (l ++ [a]) = some a := by
  induction l generalizing b with
  | nil => rfl
  | cons i l ih => exact ih _

theorem Seg.chain (h : Seg next prev b p l q) : LinkedList.Seg next p l q := by
  induction l generalizing b p with
  | nil => exact h
  | cons i l ih => exact ⟨h.1, ih h.2.2⟩

theorem Links.nodup (h : Links next prev p l) : l.Nodup := LinkedList.Chain.nodup h.chain

theorem Seg.append (h₁ : Seg next prev b p l₁ q) (h₂ : Seg next prev (lastOr b l₁) q l₂ r) :
    Seg next prev b p (l₁ ++ l₂) r := by
  induction l₁ generalizing b p with
  | nil =>
    obtain rfl : p = q := h₁
    exact h₂
  | cons i l ih => exact ⟨h₁.1, h₁.2.1, ih h₁.2.2 h₂⟩

theorem Seg.split (h : Seg next prev b p (l₁ ++ l₂) r) :
    ∃ q, Seg next prev b p l₁ q ∧ Seg next prev (lastOr b l₁) q l₂ r := by
  induction l₁ generalizing b p with
  | nil => exact ⟨p, rfl, h⟩
  | cons i l ih =>
    obtain ⟨q, h₁, h₂⟩ := ih h.2.2
    exact ⟨q, ⟨h.1, h.2.1, h₁⟩, h₂⟩

theorem Links.head_eq (h : Links next prev p l) : p = l.head? := by
  cases l with
  | nil => exact h
  | cons i l => exact h.1

/-- The fields of a node on the list. -/
theorem Links.fields (h : Links next prev p (l₁ ++ i :: l₂)) :
    next i = l₂.head? ∧ prev i = l₁.getLast? := by
  obtain ⟨q, -, rfl, hprev, h₂⟩ := h.split
  refine ⟨?_, hprev.trans ?_⟩
  · cases l₂ with
    | nil => exact h₂
    | cons j l => exact h₂.1
  · rcases List.eq_nil_or_concat l₁ with rfl | ⟨l, a, rfl⟩
    · rfl
    · rw [List.concat_eq_append, lastOr_snoc, List.getLast?_concat]

/-- The list determines the fields of its nodes. -/
theorem Links.fields_eq (h : Links next prev p l) (h' : Links next' prev' p' l) (hi : i ∈ l) :
    next' i = next i ∧ prev' i = prev i := by
  obtain ⟨l₁, l₂, rfl⟩ := List.append_of_mem hi
  obtain ⟨hnext, hprev⟩ := h.fields
  obtain ⟨hnext', hprev'⟩ := h'.fields
  exact ⟨hnext'.trans hnext.symm, hprev'.trans hprev.symm⟩

/-- A segment only reads the fields of the nodes it visits. -/
theorem Seg.congr (h : Seg next prev b p l q) (hnext : ∀ i ∈ l, next' i = next i)
    (hprev : ∀ i ∈ l, prev' i = prev i) : Seg next' prev' b p l q := by
  induction l generalizing b p with
  | nil => exact h
  | cons i l ih =>
    refine ⟨h.1, ?_, ?_⟩
    · rw [hprev i List.mem_cons_self]
      exact h.2.1
    · rw [hnext i List.mem_cons_self]
      exact ih h.2.2 (fun j hj => hnext j (List.mem_cons_of_mem _ hj))
        fun j hj => hprev j (List.mem_cons_of_mem _ hj)

variable [DecidableEq ι]

/-- `if (p) p->field = v`. -/
def setAt (f : ι → Option ι) (p v : Option ι) : ι → Option ι :=
  match p with
  | none => f
  | some i => Function.update f i v

@[simp] theorem setAt_none (f : ι → Option ι) (v : Option ι) : setAt f none v = f := rfl

@[simp] theorem setAt_some (f : ι → Option ι) (i : ι) (v : Option ι) :
    setAt f (some i) v = Function.update f i v := rfl

theorem setAt_of_ne {f : ι → Option ι} {v : Option ι} (h : p ≠ some i) : setAt f p v i = f i := by
  cases p with
  | none => rfl
  | some j => exact Function.update_of_ne (fun he => h (congrArg some he.symm)) _ _

/-- Another node behind the segment. -/
theorem Seg.retarget (h : Seg next prev b p (l ++ [a]) q) (ha : a ∉ l) :
    Seg (Function.update next a r) prev b p (l ++ [a]) r := by
  obtain ⟨q', h₁, h₂⟩ := h.split
  refine Seg.append (h₁.congr (fun i hi => ?_) fun _ _ => rfl) ⟨h₂.1, h₂.2.1, Function.update_self ..⟩
  exact Function.update_of_ne (ne_of_mem_of_not_mem hi ha) _ _

/-- Another node before the segment. -/
theorem Seg.rebase (h : Seg next prev b p l none) (hnd : l.Nodup) :
    Seg next (setAt prev p b') b' p l none := by
  cases l with
  | nil => exact h
  | cons i l =>
    obtain ⟨rfl, -, h⟩ := h
    refine ⟨rfl, Function.update_self .., h.congr (fun _ _ => rfl) fun j hj => ?_⟩
    exact Function.update_of_ne (ne_of_mem_of_not_mem hj (List.nodup_cons.1 hnd).1) _ _

/-- **A new head.** -/
theorem Links.insertHead (h : Links next prev p l) (hi : i ∉ l) :
    Links (Function.update next i p) (setAt (Function.update prev i none) p (some i)) (some i)
      (i :: l) := by
  have hne : p ≠ some i := by
    rintro rfl
    cases l with
    | nil => exact absurd h (by simp [Seg])
    | cons j l =>
      obtain ⟨he, -⟩ := h
      exact hi (by simp [Option.some.inj he])
  refine ⟨rfl, ?_, ?_⟩
  · rw [setAt_of_ne hne, Function.update_self]
  · rw [Function.update_self]
    refine Seg.rebase (b := none) (h.congr (fun j hj => ?_) fun j hj => ?_) h.nodup
    · exact Function.update_of_ne (ne_of_mem_of_not_mem hj hi) _ _
    · exact Function.update_of_ne (ne_of_mem_of_not_mem hj hi) _ _

/-- **A new node behind `a`.** -/
theorem Links.insertAfter (h : Links next prev p (l₁ ++ a :: l₂)) (hi : i ∉ l₁ ++ a :: l₂) :
    Links (Function.update (Function.update next i (next a)) a (some i))
      (setAt (Function.update prev i (some a)) (next a) (some i)) p (l₁ ++ a :: i :: l₂) := by
  have hnd := h.nodup
  simp only [List.mem_append, List.mem_cons, not_or] at hi
  obtain ⟨hi₁, hia, hi₂⟩ := hi
  rw [List.nodup_append, List.nodup_cons] at hnd
  obtain ⟨-, ⟨ha₂, hnd₂⟩, hdisj⟩ := hnd
  have ha₁ : a ∉ l₁ := fun ha => hdisj a ha a List.mem_cons_self rfl
  obtain ⟨q, h₁, rfl, hprev, h₂⟩ := h.split
  have hne : ∀ j, next a = some j → j ∈ l₂ := fun j hj => by
    cases l₂ with
    | nil => exact absurd (hj.symm.trans h₂) (by simp)
    | cons k l =>
      obtain rfl := Option.some.inj (hj.symm.trans h₂.1)
      exact List.mem_cons_self
  have hout : ∀ j, j ∉ l₂ → next a ≠ some j := fun j hj he => hj (hne j he)
  refine Seg.append (q := some a) (h₁.congr (fun j hj => ?_) fun j hj => ?_) ⟨rfl, ?_, ?_⟩
  · rw [Function.update_of_ne (ne_of_mem_of_not_mem hj ha₁),
      Function.update_of_ne (ne_of_mem_of_not_mem hj hi₁)]
  · rw [setAt_of_ne (hout j fun hj₂ => hdisj j hj j (List.mem_cons_of_mem _ hj₂) rfl),
      Function.update_of_ne (ne_of_mem_of_not_mem hj hi₁)]
  · rw [setAt_of_ne (hout a ha₂), Function.update_of_ne (Ne.symm hia), hprev]
  · refine ⟨Function.update_self .., ?_, ?_⟩
    · rw [setAt_of_ne (hout i hi₂), Function.update_self]
    · rw [Function.update_of_ne hia, Function.update_self]
      refine Seg.rebase (b := some a) (h₂.congr (fun j hj => ?_) fun j hj => ?_) hnd₂
      · rw [Function.update_of_ne (ne_of_mem_of_not_mem hj ha₂),
          Function.update_of_ne (ne_of_mem_of_not_mem hj hi₂)]
      · exact Function.update_of_ne (ne_of_mem_of_not_mem hj hi₂) _ _

/-- **A node less.** -/
theorem Links.remove (h : Links next prev p (l₁ ++ a :: l₂)) :
    Links (setAt next (prev a) (next a)) (setAt prev (next a) (prev a))
      (if prev a = none then next a else p) (l₁ ++ l₂) := by
  have hnd := h.nodup
  rw [List.nodup_append, List.nodup_cons] at hnd
  obtain ⟨hnd₁, ⟨ha₂, hnd₂⟩, hdisj⟩ := hnd
  have ha₁ : a ∉ l₁ := fun ha => hdisj a ha a List.mem_cons_self rfl
  obtain ⟨q, h₁, rfl, hprev, h₂⟩ := h.split
  have hrest : Seg next (setAt prev (next a) (prev a)) (prev a) (next a) l₂ none :=
    Seg.rebase h₂ hnd₂
  have hkeep : ∀ j ∈ l₁, setAt prev (next a) (prev a) j = prev j := fun j hj => by
    refine setAt_of_ne fun he => ?_
    cases l₂ with
    | nil => exact absurd (he.symm.trans h₂) (by simp)
    | cons k l =>
      obtain rfl := Option.some.inj (he.symm.trans h₂.1)
      exact hdisj j hj j (List.mem_cons_of_mem _ List.mem_cons_self) rfl
  rcases List.eq_nil_or_concat l₁ with rfl | ⟨l, c, rfl⟩
  · have hnone : prev a = none := hprev
    rw [if_pos hnone]
    rw [hnone] at hrest ⊢
    exact hrest
  · rw [List.concat_eq_append] at *
    have hc : prev a = some c := hprev.trans (lastOr_snoc _ _ _)
    rw [hc] at hrest hkeep ⊢
    rw [if_neg (by simp)]
    have hcl : c ∉ l := fun hmem => (List.nodup_append.1 hnd₁).2.2 c hmem c (by simp) rfl
    refine Seg.append ((h₁.retarget (r := next a) hcl).congr (fun _ _ => rfl) hkeep) ?_
    rw [lastOr_snoc]
    refine hrest.congr (fun j hj => ?_) fun _ _ => rfl
    exact Function.update_of_ne (fun he => hdisj c (by simp) j (List.mem_cons_of_mem _ hj) he.symm) _ _

end DoublyLinked
