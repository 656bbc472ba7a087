/-
# Singly linked lists behind a head pointer

A list of nodes of a type `ι` is a head pointer `Option ι` (`none` is `NULL`)
and the `next` field of every node, a function `ι → Option ι`.  Nothing says
that the pointers end anywhere: a corrupted list runs in a circle, and the two
predicates below are kept apart for that reason.

* `Seg next p l q`: following `next` from `p` visits the nodes `l` and arrives
  at `q`.  `Chain next p l` is the segment that ends in `NULL`.
* `Linked next p i`: the node `i` is met somewhere on the way from `p`.
* `walk`: the loop that follows the pointers, with a number of steps it may take.

Two operations are given as programs: `push` at the head, and `unlink`, the
walk with a pointer to the link (`T **prev`) that removes a given node.  The
lists a sequence of pushes builds are characterised without assuming that the
pushed nodes are distinct (`chain_pushes_iff`, `linked_pushes_iff`): pushing a
node twice closes a circle, and cuts off what lies below its first place.
-/

import Mathlib.Algebra.Group.Nat.Defs
import Mathlib.Data.List.Induction
import Mathlib.Data.List.Nodup
import Mathlib.Logic.Function.Basic

namespace LinkedList

variable {ι : Type*}

/-- Following `next` from `p` visits `l` and arrives at `q`. -/
def Seg (next : ι → Option ι) : Option ι → List ι → Option ι → Prop
  | p, [], q => p = q
  | p, i :: l, q => p = some i ∧ Seg next (next i) l q

/-- The list at `p` is `l`: the pointers visit `l` and end in `NULL`. -/
abbrev Chain (next : ι → Option ι) (p : Option ι) (l : List ι) : Prop := Seg next p l none

/-- The node `i` is met when following `next` from `p`. -/
inductive Linked (next : ι → Option ι) : Option ι → ι → Prop
  | here (i : ι) : Linked next (some i) i
  | there {i j : ι} : Linked next (next i) j → Linked next (some i) j

section Segments

variable {next next' : ι → Option ι} {p q r : Option ι} {i : ι} {l l₁ l₂ : List ι}

@[simp] theorem seg_nil : Seg next p [] q ↔ p = q := Iff.rfl

@[simp] theorem seg_cons : Seg next p (i :: l) q ↔ p = some i ∧ Seg next (next i) l q := Iff.rfl

theorem Seg.append (h₁ : Seg next p l₁ q) (h₂ : Seg next q l₂ r) : Seg next p (l₁ ++ l₂) r := by
  induction l₁ generalizing p with
  | nil => rw [seg_nil] at h₁; exact h₁ ▸ h₂
  | cons i l ih => exact ⟨h₁.1, ih h₁.2⟩

theorem Seg.split (h : Seg next p (l₁ ++ l₂) r) : ∃ q, Seg next p l₁ q ∧ Seg next q l₂ r := by
  induction l₁ generalizing p with
  | nil => exact ⟨p, rfl, h⟩
  | cons i l ih =>
    obtain ⟨q, h₁, h₂⟩ := ih h.2
    exact ⟨q, ⟨h.1, h₁⟩, h₂⟩

/-- The segment through `l₁`, a node `i` and `l₂` passes `some i` in between. -/
theorem Seg.split_cons (h : Seg next p (l₁ ++ i :: l₂) r) :
    Seg next p l₁ (some i) ∧ Seg next (next i) l₂ r := by
  obtain ⟨q, h₁, rfl, h₂⟩ := h.split
  exact ⟨h₁, h₂⟩

/-- A segment only reads the links of the nodes it visits. -/
theorem Seg.congr (h : Seg next p l q) (hl : ∀ i ∈ l, next' i = next i) : Seg next' p l q := by
  induction l generalizing p with
  | nil => exact h
  | cons i l ih =>
    refine ⟨h.1, ?_⟩
    rw [hl i List.mem_cons_self]
    exact ih h.2 fun j hj => hl j (List.mem_cons_of_mem _ hj)

theorem Seg.linked (h : Seg next p l q) (hi : i ∈ l) : Linked next p i := by
  induction l generalizing p with
  | nil => exact absurd hi List.not_mem_nil
  | cons j l ih =>
    obtain ⟨rfl, h⟩ := h
    rcases List.mem_cons.1 hi with rfl | hi
    · exact .here i
    · exact .there (ih h hi)

/-- Nothing outside a set of nodes closed under `next` is linked from it. -/
theorem Linked.mem_of_closed {S : ι → Prop} (h : Linked next p i) (hp : ∀ j, p = some j → S j)
    (hS : ∀ j k, S j → next j = some k → S k) : S i := by
  induction h with
  | here i => exact hp i rfl
  | there _ ih => exact ih fun k hk => hS _ k (hp _ rfl) hk

/-- What a node that is met leads to is met too. -/
theorem Linked.step {j : ι} (h : Linked next p i) (hj : next i = some j) : Linked next p j := by
  induction h with
  | here i => exact .there (hj ▸ .here j)
  | there _ ih => exact .there (ih hj)

theorem not_linked_none : ¬ Linked next none i := by rintro ⟨⟩

/-- A list that ends in `NULL` is determined by its head. -/
theorem Chain.unique (h₁ : Chain next p l₁) (h₂ : Chain next p l₂) : l₁ = l₂ := by
  induction l₁ generalizing p l₂ with
  | nil =>
    obtain rfl : p = none := h₁
    cases l₂ with
    | nil => rfl
    | cons j l => exact absurd h₂.1 (by simp)
  | cons i l ih =>
    obtain ⟨rfl, h₁⟩ := h₁
    cases l₂ with
    | nil => exact absurd h₂ (by simp)
    | cons j l' =>
      obtain ⟨hij, h₂⟩ := h₂
      obtain rfl : i = j := Option.some.inj hij
      rw [ih h₁ h₂]

/-- A list that ends in `NULL` visits no node twice. -/
theorem Chain.nodup (h : Chain next p l) : l.Nodup := by
  induction l generalizing p with
  | nil => exact List.nodup_nil
  | cons i l ih =>
    refine List.nodup_cons.2 ⟨fun hi => ?_, ih h.2⟩
    -- a second visit of `i` starts the same list again, which cannot be shorter
    obtain ⟨a, b, rfl⟩ := List.append_of_mem hi
    have hb : Chain next (some i) (i :: b) := ⟨rfl, (Seg.split_cons h.2).2⟩
    have hlen := congrArg List.length (Chain.unique (h.1 ▸ h) hb)
    simp only [List.length_cons, List.length_append] at hlen
    omega

theorem Chain.linked_iff (h : Chain next p l) : Linked next p i ↔ i ∈ l := by
  constructor
  · intro hi
    induction hi generalizing l with
    | here i =>
      cases l with
      | nil => exact absurd h (by simp)
      | cons j l => exact Option.some.inj h.1 ▸ List.mem_cons_self
    | there _ ih =>
      cases l with
      | nil => exact absurd h (by simp)
      | cons j l =>
        obtain ⟨hj, h⟩ := h
        obtain rfl := Option.some.inj hj
        exact List.mem_cons_of_mem _ (ih h)
  · exact Seg.linked h

/-- A segment that ends inside itself is all that is linked. -/
theorem Seg.linked_iff_of_circle {y : ι} (h : Seg next p l (some y)) (hy : y ∈ l) :
    Linked next p i ↔ i ∈ l := by
  refine ⟨fun hi => ?_, h.linked⟩
  refine hi.mem_of_closed (S := (· ∈ l)) ?_ ?_
  · rintro j rfl
    cases l with
    | nil => exact absurd hy List.not_mem_nil
    | cons k l => exact Option.some.inj h.1 ▸ List.mem_cons_self
  · intro j k hj hk
    obtain ⟨a, b, rfl⟩ := List.append_of_mem hj
    have hb := h.split_cons.2
    rw [hk] at hb
    cases b with
    | nil => exact Option.some.inj hb ▸ hy
    | cons m b => obtain rfl := Option.some.inj hb.1; simp

end Segments

section Push

variable [DecidableEq ι]

omit [DecidableEq ι] in
theorem nodup_snoc {l : List ι} {x : ι} : (l ++ [x]).Nodup ↔ l.Nodup ∧ x ∉ l := by
  rw [List.nodup_append_comm, List.singleton_append, List.nodup_cons, and_comm]

/-- `i->next = head; head = i`. -/
def push (i : ι) (s : Option ι × (ι → Option ι)) : Option ι × (ι → Option ι) :=
  (some i, Function.update s.2 i s.1)

/-- Push the nodes of `l` one after the other. -/
def pushes (l : List ι) (s : Option ι × (ι → Option ι)) : Option ι × (ι → Option ι) :=
  l.foldl (fun s i => push i s) s

theorem pushes_snoc (l : List ι) (i : ι) (s : Option ι × (ι → Option ι)) :
    pushes (l ++ [i]) s = push i (pushes l s) := by
  simp [pushes]

/-- Rewriting the link of a node a segment does not visit leaves the segment. -/
theorem Seg.update {next : ι → Option ι} {p q v : Option ι} {l : List ι} {i : ι}
    (h : Seg next p l q) (hi : i ∉ l) : Seg (Function.update next i v) p l q :=
  h.congr fun _ hj => Function.update_of_ne (ne_of_mem_of_not_mem hj hi) v next

/-- A link past the next node takes that node out. -/
theorem Chain.bypass {next : ι → Option ι} {p : Option ι} {l₁ l₂ : List ι} {q i : ι}
    (h : Chain next p (l₁ ++ q :: i :: l₂)) : Chain (Function.update next q (next i)) p (l₁ ++ q :: l₂) := by
  have hnd := List.nodup_cons.1 (List.nodup_middle.1 h.nodup)
  have hq₁ : q ∉ l₁ := fun hq => hnd.1 (List.mem_append_left _ hq)
  have hq₂ : q ∉ l₂ := fun hq => hnd.1 (List.mem_append_right _ (List.mem_cons_of_mem _ hq))
  obtain ⟨hbefore, -, hafter⟩ := Seg.split_cons h
  refine Seg.append (hbefore.update hq₁) ⟨rfl, ?_⟩
  rw [Function.update_self]
  exact hafter.update hq₂

/-- A link past a node, or the head past the first, takes the node out. -/
theorem Chain.takeOut {next next' : ι → Option ι} {p p' : Option ι} {a b : List ι} {x : ι}
    (h : Chain next p (a ++ x :: b)) (hfirst : a = [] → p' = next x) (hhead : a ≠ [] → p' = p)
    (hnext : ∀ i ∈ a ++ b, next' i = if a.getLast? = some i then next x else next i) : Chain next' p' (a ++ b) := by
  rcases List.eq_nil_or_concat' a with rfl | ⟨a, q, rfl⟩
  · rw [hfirst rfl]
    exact (Seg.split_cons h).2.congr fun i hi => (hnext i hi).trans (if_neg (by simp))
  · rw [hhead (by simp), List.append_assoc]
    rw [List.append_assoc] at h
    refine (Chain.bypass h).congr fun i hi => ?_
    rw [hnext i (by rwa [List.append_assoc]), List.getLast?_append, List.getLast?_singleton, Option.some_or]
    by_cases hq : q = i
    · rw [if_pos (congrArg some hq), hq, Function.update_self]
    · rw [if_neg fun heq => hq (Option.some.inj heq), Function.update_of_ne (Ne.symm hq)]

/-- Pushing a new node puts it in front. -/
theorem Chain.push {next : ι → Option ι} {p : Option ι} {l : List ι} {i : ι}
    (h : Chain next p l) (hi : i ∉ l) :
    Chain (Function.update next i p) (some i) (i :: l) := by
  refine ⟨rfl, ?_⟩
  rw [Function.update_self]
  exact h.update hi

/-- **What pushes build ends in `NULL` only if no node was pushed twice.** -/
theorem chain_pushes_iff (next : ι → Option ι) (l c : List ι) :
    Chain (pushes l (none, next)).2 (pushes l (none, next)).1 c ↔ c = l.reverse ∧ l.Nodup := by
  induction l using List.reverseRecOn generalizing c with
  | nil =>
    cases c with
    | nil => simp [pushes]
    | cons i c => simp [pushes]
  | append_singleton l x ih =>
    rw [pushes_snoc]
    constructor
    · intro h
      cases c with
      | nil => exact absurd h (by simp [LinkedList.push])
      | cons i c =>
        obtain rfl : x = i := Option.some.inj h.1
        have hx : x ∉ c := (List.nodup_cons.1 (Chain.nodup h)).1
        have hc := h.2
        simp only [LinkedList.push, Function.update_self] at hc
        -- below the new head the links are those before the push
        have hc' : Chain (pushes l (none, next)).2 (pushes l (none, next)).1 c :=
          hc.congr fun _ hj => (Function.update_of_ne (ne_of_mem_of_not_mem hj hx) _ _).symm
        obtain ⟨rfl, hl⟩ := (ih c).1 hc'
        rw [List.mem_reverse] at hx
        exact ⟨by simp, nodup_snoc.2 ⟨hl, hx⟩⟩
    · rintro ⟨rfl, hl⟩
      obtain ⟨hl, hx⟩ := nodup_snoc.1 hl
      rw [List.reverse_append]
      exact Chain.push ((ih _).2 ⟨rfl, hl⟩) (fun h => hx (List.mem_reverse.1 h))

/-- After pushes the pointers run through a repetition-free final stretch of
the pushed nodes, latest first, and then either that was everything and they
end in `NULL`, or they run back into it. -/
theorem exists_seg_pushes (next : ι → Option ι) (l : List ι) :
    ∃ t q, t <:+ l ∧ t.Nodup ∧
      Seg (pushes l (none, next)).2 (pushes l (none, next)).1 t.reverse q ∧
      ((q = none ∧ t = l) ∨ ∃ y ∈ t, q = some y ∧ ∀ t', t' <:+ l → t'.Nodup → t' <:+ t) := by
  induction l using List.reverseRecOn with
  | nil => exact ⟨[], none, List.suffix_rfl, List.nodup_nil, rfl, .inl ⟨rfl, rfl⟩⟩
  | append_singleton l x ih =>
    obtain ⟨t, q, ⟨l₀, rfl⟩, hnd, hseg, hq⟩ := ih
    rw [pushes_snoc]
    by_cases hx : x ∈ t
    · -- `x` was pushed before: the pointers now run back to it
      obtain ⟨a, b, rfl⟩ := List.append_of_mem hx
      have hxab : x ∉ a ∧ x ∉ b := by
        have := List.nodup_middle.1 hnd
        simpa using (List.nodup_cons.1 this).1
      have hb : b.Nodup := (List.nodup_cons.1 (List.nodup_append.1 hnd).2.1).2
      refine ⟨b ++ [x], some x, ⟨l₀ ++ a ++ [x], by simp⟩, ?_, ?_, .inr ⟨x, by simp, rfl, ?_⟩⟩
      · exact nodup_snoc.2 ⟨hb, hxab.2⟩
      · rw [List.reverse_append, List.reverse_cons, List.append_assoc] at hseg
        have hseg' := (Seg.split_cons hseg).1
        rw [List.reverse_append]
        refine ⟨rfl, ?_⟩
        simp only [LinkedList.push, Function.update_self]
        exact hseg'.update (by simpa using hxab.2)
      · intro t' ht' hnd'
        -- a longer stretch would hold `x` twice
        have hb' : b ++ [x] <:+ l₀ ++ (a ++ x :: b) ++ [x] := ⟨l₀ ++ a ++ [x], by simp⟩
        rcases List.suffix_or_suffix_of_suffix ht' hb' with h | h
        · exact h
        · obtain ⟨c, rfl⟩ := h
          obtain ⟨d, hd⟩ := ht'
          cases c using List.reverseRecOn with
          | nil => exact List.suffix_rfl
          | append_singleton c z =>
            have h1 : (d ++ c) ++ [z] ++ (b ++ [x]) = (l₀ ++ a) ++ [x] ++ (b ++ [x]) := by
              simpa using hd
            have h2 := List.append_cancel_right h1
            obtain ⟨-, hz⟩ := List.append_inj' h2 rfl
            obtain rfl : z = x := by simpa using hz
            simp [List.nodup_append] at hnd'
    · have hnd' : (t ++ [x]).Nodup := nodup_snoc.2 ⟨hnd, hx⟩
      refine ⟨t ++ [x], q, ⟨l₀, by simp⟩, hnd', ?_, ?_⟩
      · rw [List.reverse_append]
        refine ⟨rfl, ?_⟩
        simp only [LinkedList.push, Function.update_self]
        exact hseg.update (by simpa using hx)
      · rcases hq with ⟨rfl, h⟩ | ⟨y, hy, rfl, hmax⟩
        · exact .inl ⟨rfl, by simpa using h⟩
        · refine .inr ⟨y, by simp [hy], rfl, fun t' ht' hn => ?_⟩
          rcases List.eq_nil_or_concat t' with rfl | ⟨u, z, rfl⟩
          · exact List.nil_suffix
          · obtain ⟨d, hd⟩ := ht'
            rw [List.concat_eq_append] at hn
            rw [List.concat_eq_append, ← List.append_assoc] at hd
            obtain ⟨hu, hz⟩ := List.append_inj' hd rfl
            have := hmax u ⟨d, hu⟩ (nodup_snoc.1 hn).1
            rw [List.concat_eq_append, hz]
            obtain ⟨e, rfl⟩ := this
            exact ⟨e, by simp⟩

/-- **What pushes leave reachable**: the nodes of a repetition-free final
stretch of the pushed sequence. -/
theorem linked_pushes_iff (next : ι → Option ι) (l : List ι) (i : ι) :
    Linked (pushes l (none, next)).2 (pushes l (none, next)).1 i ↔
      ∃ t, t <:+ l ∧ t.Nodup ∧ i ∈ t := by
  obtain ⟨t, q, ht, hnd, hseg, hq⟩ := exists_seg_pushes next l
  rcases hq with ⟨rfl, rfl⟩ | ⟨y, hy, rfl, hmax⟩
  · rw [Chain.linked_iff hseg, List.mem_reverse]
    exact ⟨fun h => ⟨t, ht, hnd, h⟩, fun ⟨_, h, _, hi⟩ => h.subset hi⟩
  · rw [hseg.linked_iff_of_circle (List.mem_reverse.2 hy), List.mem_reverse]
    exact ⟨fun h => ⟨t, ht, hnd, h⟩, fun ⟨t', ht', hnd', hi⟩ => (hmax t' ht' hnd').subset hi⟩

end Push

section Tail

variable [DecidableEq ι] {next : ι → Option ι} {p : Option ι} {l : List ι} {i s t : ι}

omit [DecidableEq ι] in
theorem Chain.next_last (h : Chain next p (l ++ [t])) : next t = none := (Seg.split_cons h).2

/-- `tail->next = i` puts a node that ends the list behind it. -/
theorem Chain.snoc (h : Chain next p (l ++ [t])) (hi : i ∉ l ++ [t]) (hnext : next i = none) :
    Chain (Function.update next t (some i)) p (l ++ [t] ++ [i]) := by
  have ht : t ∉ l := (nodup_snoc.1 (Chain.nodup h)).2
  have hne : i ≠ t := fun he => hi (by rw [he]; exact List.mem_append_right l (List.mem_singleton.2 rfl))
  rw [List.append_assoc, List.singleton_append]
  refine Seg.append ((Seg.split_cons h).1.update ht) ⟨rfl, ?_, ?_⟩
  · rw [Function.update_self]
  · rw [Function.update_of_ne hne, hnext]
    exact seg_nil.2 rfl

/-- `prev->next = NULL` cuts off the last node. -/
theorem Chain.dropLast (h : Chain next p (l ++ [s] ++ [t])) : Chain (Function.update next s none) p (l ++ [s]) := by
  have hs : s ∉ l := (nodup_snoc.1 (nodup_snoc.1 (Chain.nodup h)).1).2
  rw [List.append_assoc, List.singleton_append] at h
  refine Seg.append ((Seg.split_cons h).1.update hs) ⟨rfl, ?_⟩
  rw [Function.update_self]
  exact seg_nil.2 rfl

end Tail

section Neighbours

variable [DecidableEq ι] {next : ι → Option ι} {p : Option ι} {a b l : List ι} {t x : ι}

/-- The node that comes after `x`. -/
def nodeAfter (x : ι) : List ι → Option ι
  | [] => none
  | i :: l => if i = x then l.head? else nodeAfter x l

/-- The node that comes before `x`. -/
def nodeBefore (x : ι) (l : List ι) : Option ι := (l.takeWhile fun i => i ≠ x).getLast?

theorem nodeAfter_split (ha : x ∉ a) : nodeAfter x (a ++ x :: b) = b.head? := by
  induction a with
  | nil => exact if_pos rfl
  | cons i a ih =>
    have hi : i ≠ x := fun h => ha (h ▸ List.mem_cons_self)
    rw [List.cons_append, nodeAfter, if_neg hi]
    exact ih fun h => ha (List.mem_cons_of_mem _ h)

theorem nodeBefore_split (ha : x ∉ a) : nodeBefore x (a ++ x :: b) = a.getLast? := by
  have hall : ∀ i ∈ a, (decide (i ≠ x)) = true :=
    fun i hi => decide_eq_true (ne_of_mem_of_not_mem hi ha)
  rw [nodeBefore, List.takeWhile_append_of_pos hall, List.takeWhile_cons_of_neg (by simp),
    List.append_nil]

theorem nodeAfter_snoc (ht : t ∉ l) : nodeAfter t (l ++ [t]) = none := nodeAfter_split ht

/-- What was the last node is followed by the new one. -/
theorem nodeAfter_last (hnd : l.Nodup) (hx : l.getLast? = some x) :
    nodeAfter x (l ++ [t]) = some t := by
  obtain ⟨a, rfl⟩ := List.getLast?_eq_some_iff.1 hx
  rw [List.append_assoc]
  exact nodeAfter_split (nodup_snoc.1 hnd).2

omit [DecidableEq ι] in
/-- The head of a list that ends in `NULL`. -/
theorem Chain.head_eq (h : Chain next p l) : p = l.head? := by
  cases l with
  | nil => exact h
  | cons i l => exact h.1

/-- A link of a list that ends in `NULL` is to the node that comes after. -/
theorem Chain.next_eq (h : Chain next p l) (hx : x ∈ l) : next x = nodeAfter x l := by
  obtain ⟨a, b, rfl⟩ := List.append_of_mem hx
  have ha : x ∉ a := fun ha => (List.nodup_cons.1 (List.nodup_middle.1 h.nodup)).1
    (List.mem_append_left _ ha)
  rw [nodeAfter_split ha]
  exact Chain.head_eq (Seg.split_cons h).2

end Neighbours

section Walk

variable {next : ι → Option ι} {p : Option ι} {l : List ι} {n : ℕ}

/-- The nodes that `while (i) i = i->next` visits; `none` when the steps run out before `NULL`. -/
def walk (next : ι → Option ι) : ℕ → Option ι → Option (List ι)
  | _, none => some []
  | 0, some _ => none
  | n + 1, some i => (walk next n (next i)).map (i :: ·)

/-- A walk ends exactly on a list that ends in `NULL`, given as many steps as it has nodes. -/
theorem walk_eq_some_iff : walk next n p = some l ↔ Chain next p l ∧ l.length ≤ n := by
  induction n generalizing p l with
  | zero =>
    cases p with
    | none =>
      rw [walk, Option.some.injEq]
      refine ⟨fun h => h ▸ ⟨rfl, Nat.le_refl _⟩, fun ⟨_, h⟩ => (List.length_eq_zero_iff.1 ?_).symm⟩
      omega
    | some i =>
      refine iff_of_false (by simp [walk]) fun ⟨hchain, hlen⟩ => ?_
      obtain rfl := List.length_eq_zero_iff.1 (Nat.le_zero.1 hlen)
      exact absurd hchain (by simp)
  | succ n ih =>
    cases p with
    | none =>
      rw [walk, Option.some.injEq]
      refine ⟨fun h => h ▸ ⟨rfl, Nat.zero_le _⟩, fun ⟨hchain, _⟩ => ?_⟩
      cases l with
      | nil => rfl
      | cons i l => exact absurd hchain.1 (by simp)
    | some i =>
      rw [walk, Option.map_eq_some_iff]
      constructor
      · rintro ⟨l, hl, rfl⟩
        obtain ⟨hchain, hlen⟩ := ih.1 hl
        exact ⟨⟨rfl, hchain⟩, Nat.succ_le_succ hlen⟩
      · rintro ⟨hchain, hlen⟩
        cases l with
        | nil => exact absurd hchain (by simp)
        | cons j l =>
          obtain ⟨hij, hchain⟩ := hchain
          obtain rfl := Option.some.inj hij
          exact ⟨l, ih.2 ⟨hchain, Nat.le_of_succ_le_succ hlen⟩, rfl⟩

end Walk

section Acyclic

variable [DecidableEq ι] {next : ι → Option ι} {p : Option ι} {l S : List ι}

/-- **Finitely many nodes, of which none leads back to itself, end in `NULL`.** -/
theorem exists_chain_of_acyclic (hS : ∀ i, Linked next p i → i ∈ S)
    (hacyclic : ∀ i, Linked next p i → ¬ Linked next (next i) i) : ∃ l, Chain next p l := by
  induction hn : S.length generalizing S p with
  | zero =>
    obtain rfl := List.length_eq_zero_iff.1 hn
    cases p with
    | none => exact ⟨[], rfl⟩
    | some i => exact absurd (hS i (.here i)) List.not_mem_nil
  | succ n ih =>
    cases p with
    | none => exact ⟨[], rfl⟩
    | some i =>
      have hi := hS i (.here i)
      have hlen : (S.erase i).length = n := by rw [List.length_erase_of_mem hi, hn, Nat.add_sub_cancel]
      have herase : ∀ j, Linked next (next i) j → j ∈ S.erase i := by
        intro j hj
        have hji : j ≠ i := by
          rintro rfl
          exact hacyclic j (.here j) hj
        exact (List.mem_erase_of_ne hji).2 (hS j (.there hj))
      obtain ⟨l, hl⟩ := ih herase (fun j hj => hacyclic j (.there hj)) hlen
      exact ⟨i :: l, rfl, hl⟩

omit [DecidableEq ι] in
/-- In a list that ends in `NULL` no node leads back to itself. -/
theorem Chain.acyclic (h : Chain next p l) {i : ι} (hi : i ∈ l) : ¬ Linked next (next i) i := by
  obtain ⟨a, b, rfl⟩ := List.append_of_mem hi
  rw [Chain.linked_iff (Seg.split_cons h).2]
  exact fun hb => (List.nodup_cons.1 (List.nodup_middle.1 h.nodup)).1 (List.mem_append_right _ hb)

end Acyclic

section Unlink

variable [DecidableEq ι]

/-- What a pointer to a link, `T **prev`, points at: the head pointer or the
`next` field of a node. -/
inductive Link (ι : Type*)
  | head
  | next (i : ι)

/-- `*prev = v`. -/
def setLink (head : Option ι) (next : ι → Option ι) : Link ι → Option ι →
    Option ι × (ι → Option ι)
  | .head, v => (v, next)
  | .next i, v => (head, Function.update next i v)

/-- `while (*prev && *prev != target) prev = &(*prev)->next`, with `cur` the
value `*prev`.  `none` when the steps run out before the walk ends. -/
def seek (next : ι → Option ι) (target : ι) : ℕ → Link ι → Option ι → Option (Link ι × Option ι)
  | 0, _, _ => none
  | _ + 1, prev, none => some (prev, none)
  | n + 1, prev, some i =>
    if i = target then some (prev, some i) else seek next target n (.next i) (next i)

/-- Walk to `target` and, when it is met, make the link before it skip it. -/
def unlink (steps : ℕ) (target : ι) (head : Option ι) (next : ι → Option ι) :
    Option (Option ι × (ι → Option ι)) :=
  match seek next target steps .head head with
  | none => none
  | some (_, none) => some (head, next)
  | some (prev, some _) => some (setLink head next prev (next target))

/-- The link a walk over the nodes `l` ends at. -/
def lastLink (prev : Link ι) : List ι → Link ι
  | [] => prev
  | i :: l => lastLink (.next i) l

omit [DecidableEq ι] in
theorem lastLink_snoc (prev : Link ι) (l : List ι) (i : ι) :
    lastLink prev (l ++ [i]) = .next i := by
  induction l generalizing prev with
  | nil => rfl
  | cons j l ih => exact ih _

variable {next : ι → Option ι} {p : Option ι} {target : ι}

theorem seek_of_not_mem {l : List ι} (h : Chain next p l) (ht : target ∉ l) {n : ℕ}
    (hn : l.length < n) (prev : Link ι) :
    seek next target n prev p = some (lastLink prev l, none) := by
  induction l generalizing p n prev with
  | nil =>
    obtain rfl : p = none := h
    obtain ⟨m, rfl⟩ := Nat.exists_eq_add_of_lt hn
    simp [seek, lastLink]
  | cons i l ih =>
    obtain ⟨rfl, h⟩ := h
    obtain ⟨m, rfl⟩ : ∃ m, n = m + 1 := ⟨n - 1, by simp at hn; omega⟩
    have hi : i ≠ target := fun e => ht (by simp [e])
    simp only [seek, hi, if_false, lastLink]
    exact ih h (fun hm => ht (by simp [hm])) (by simp at hn; omega) _

theorem seek_of_mem {a b : List ι} (h : Chain next p (a ++ target :: b)) (ht : target ∉ a)
    {n : ℕ} (hn : a.length < n) (prev : Link ι) :
    seek next target n prev p = some (lastLink prev a, some target) := by
  induction a generalizing p n prev with
  | nil =>
    obtain ⟨rfl, h⟩ := h
    obtain ⟨m, rfl⟩ : ∃ m, n = m + 1 := ⟨n - 1, by simp at hn; omega⟩
    simp [seek, lastLink]
  | cons i a ih =>
    obtain ⟨rfl, h⟩ := h
    obtain ⟨m, rfl⟩ : ∃ m, n = m + 1 := ⟨n - 1, by simp at hn; omega⟩
    have hi : i ≠ target := fun e => ht (by simp [e])
    simp only [seek, hi, if_false, lastLink]
    exact ih h (fun hm => ht (by simp [hm])) (by simp at hn; omega) _

/-- **Unlinking** terminates on a list that ends in `NULL`, leaves the list
without the target, and rewrites no link of a node outside the list. -/
theorem unlink_spec (target : ι) {l : List ι} (h : Chain next p l) {n : ℕ} (hn : l.length < n) :
    ∃ p' next', unlink n target p next = some (p', next') ∧ Chain next' p' (l.erase target) ∧
      ∀ j, j ∉ l → next' j = next j := by
  by_cases ht : target ∈ l
  · obtain ⟨a, b, hab, rfl, herase⟩ := List.exists_erase_eq ht
    have hnd := h.nodup
    have hb : Chain next (next target) b := h.split_cons.2
    have hseek := seek_of_mem h hab (n := n) (by simp at hn; omega) .head
    rcases List.eq_nil_or_concat a with rfl | ⟨a, x, rfl⟩
    · refine ⟨next target, next, ?_, herase ▸ hb, fun _ _ => rfl⟩
      simp [unlink, hseek, lastLink, setLink]
    · rw [List.concat_eq_append] at *
      refine ⟨p, Function.update next x (next target), ?_, ?_, ?_⟩
      · simp [unlink, hseek, lastLink_snoc, setLink]
      · rw [herase]
        have hx : x ∉ a ∧ x ∉ b := by
          simp only [List.append_assoc, List.singleton_append] at hnd
          have := (List.nodup_cons.1 (List.nodup_middle.1 hnd)).1
          simp only [List.mem_append, List.mem_cons, not_or] at this
          exact ⟨this.1, this.2.2⟩
        have ha : Seg next p a (some x) := by
          rw [List.append_assoc] at h
          exact (Seg.split_cons h).1
        have hskip : Seg (Function.update next x (next target)) (some x) [x] (next target) :=
          ⟨rfl, Function.update_self ..⟩
        exact Seg.append (Seg.append (ha.update hx.1) hskip) (hb.update hx.2)
      · intro j hj
        refine Function.update_of_ne (fun e => hj ?_) _ _
        simp [e]
  · refine ⟨p, next, ?_, by rwa [List.erase_of_not_mem ht], fun _ _ => rfl⟩
    simp [unlink, seek_of_not_mem h ht hn]

end Unlink

end LinkedList
