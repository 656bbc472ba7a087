/-
# Lists of threads

A list has the right shape when its head leads through its threads to `NULL` and its tail is the
last of them (`ThreadList.Shaped`).  Each operation of the scheduler on one list keeps its shape,
and writes the `next` of at most two threads: `appendLinks` and `unlinkLinks` say which, for the
other lists that go through the same field.  The walk of `sched_remove` finds a thread where it is
(`search_split`, `search_of_notMem`).
-/

import Flopperating.Task.Sched

namespace Flopperating

open LinkedList

namespace ThreadList

variable {s : Linked} {next next' : ℕ → Option ℕ} {list : ThreadList} {a b l : List ℕ}
  {t x n : ℕ} {prev p : Option ℕ}

/-- The list has the right shape and holds the threads `l`. -/
structure Shaped (l : List ℕ) (s : Linked) : Prop where
  chain : Chain s.2 s.1.head l
  tail : s.1.tail = l.getLast?

theorem Shaped.nodup (h : Shaped l s) : l.Nodup := h.chain.nodup

/-- A list only goes through the links of its own threads. -/
theorem Shaped.congr (h : Shaped l (list, next)) (hnext : ∀ x ∈ l, next' x = next x) : Shaped l (list, next') :=
  ⟨h.chain.congr hnext, h.tail⟩

/-- A list that is in order holds one list of threads. -/
theorem Shaped.unique {l' : List ℕ} (h : Shaped l s) (h' : Shaped l' s) : l = l' := h.chain.unique h'.chain

/-! ### At the end -/

/-- The links after `t` was put behind `last`. -/
def appendLinks (t : ℕ) (last : Option ℕ) (next : ℕ → Option ℕ) : ℕ → Option ℕ :=
  match last with
  | none => Function.update next t none
  | some last => Function.update (Function.update next t none) last (some t)

theorem appendLinks_of_ne {last : Option ℕ} (ht : x ≠ t) (hlast : last ≠ some x) :
    appendLinks t last next x = next x := by
  cases last with
  | none => exact Function.update_of_ne ht _ _
  | some u =>
    have hu : x ≠ u := fun h => hlast (congrArg some h.symm)
    rw [appendLinks, Function.update_of_ne hu, Function.update_of_ne ht]

theorem append_eq (hhead : s.1.head = l.head?) (htail : s.1.tail = l.getLast?) :
    append t s = some (⟨(l ++ [t]).head?, some t, u32 (s.1.count + 1)⟩,
      appendLinks t l.getLast? s.2) := by
  rcases List.eq_nil_or_concat l with rfl | ⟨l, u, rfl⟩
  · rw [append, hhead]
    rfl
  · rw [List.concat_eq_append] at *
    rw [List.getLast?_concat] at htail ⊢
    obtain ⟨head, hcons⟩ : ∃ head, (l ++ [u]).head? = some head := by cases l <;> exact ⟨_, rfl⟩
    rw [hcons] at hhead
    simp only [append, hhead, htail, Option.map_some, List.head?_append, hcons, Option.some_or]
    rfl

theorem Shaped.append (h : Shaped l s) (ht : t ∉ l) :
    Shaped (l ++ [t]) (⟨(l ++ [t]).head?, some t, u32 (s.1.count + 1)⟩,
      appendLinks t l.getLast? s.2) := by
  have hfresh : Chain (Function.update s.2 t none) s.1.head l := h.chain.update ht
  refine ⟨?_, List.getLast?_concat.symm⟩
  rcases List.eq_nil_or_concat l with rfl | ⟨l, u, rfl⟩
  · exact ⟨rfl, Function.update_self ..⟩
  · rw [List.concat_eq_append] at *
    have hsnoc := hfresh.snoc ht (Function.update_self ..)
    rw [List.getLast?_concat, ← Chain.head_eq hsnoc]
    exact hsnoc

/-! ### Anywhere -/

/-- The links after `t`, behind `prev`, was taken out. -/
def unlinkLinks (t : ℕ) (prev : Option ℕ) (next : ℕ → Option ℕ) : ℕ → Option ℕ :=
  match prev with
  | none => Function.update next t none
  | some prev => Function.update (Function.update next prev (next t)) t none

theorem unlinkLinks_of_ne (ht : x ≠ t) (hprev : prev ≠ some x) : unlinkLinks t prev next x = next x := by
  cases prev with
  | none => exact Function.update_of_ne ht _ _
  | some u =>
    have hu : x ≠ u := fun h => hprev (congrArg some h.symm)
    rw [unlinkLinks, Function.update_of_ne ht, Function.update_of_ne hu]

theorem unlink_links (t : ℕ) (prev : Option ℕ) (s : Linked) :
    (unlink t prev s).2 = unlinkLinks t prev s.2 := by
  cases prev <;> rfl

theorem Shaped.unlink (h : Shaped (a ++ t :: b) s) :
    Shaped (a ++ b) (ThreadList.unlink t a.getLast? s) := by
  obtain ⟨hta, htb⟩ : t ∉ a ∧ t ∉ b := by
    have := (List.nodup_cons.1 (List.nodup_middle.1 h.nodup)).1
    exact not_or.1 (mt List.mem_append.2 this)
  have htail : (if s.1.tail = some t then a.getLast? else s.1.tail) = (a ++ b).getLast? := by
    rw [h.tail]
    rcases List.eq_nil_or_concat b with rfl | ⟨b, u, rfl⟩
    · rw [List.getLast?_concat, if_pos rfl, List.append_nil]
    · rw [List.concat_eq_append] at *
      have hu : u ≠ t := fun hut => htb (hut ▸ List.mem_append_right _ List.mem_cons_self)
      rw [← List.append_assoc, List.getLast?_concat, ← List.cons_append, ← List.append_assoc,
        List.getLast?_concat, if_neg fun heq => hu (Option.some.inj heq)]
  rcases List.eq_nil_or_concat a with rfl | ⟨a, p, rfl⟩
  · exact ⟨(Seg.split_cons h.chain).2.update htb, htail⟩
  · rw [List.concat_eq_append] at *
    rw [List.getLast?_concat] at htail ⊢
    refine ⟨?_, htail⟩
    have hchain := h.chain
    rw [List.append_assoc, List.singleton_append] at hchain
    rw [List.append_assoc, List.singleton_append]
    refine hchain.bypass.update fun hmem => ?_
    rw [← List.singleton_append, ← List.append_assoc] at hmem
    exact (List.mem_append.1 hmem).elim hta htb

/-! ### The search -/

/-- The walk finds the node and the one in front of it. -/
theorem search_split (hl : Chain next p (a ++ t :: b)) (ht : t ∉ a) (hfuel : a.length < n) :
    search next t n prev p = some (some (a.getLast?.or prev)) := by
  induction a generalizing p n prev with
  | nil =>
    obtain ⟨rfl, -⟩ := hl
    obtain ⟨n, rfl⟩ := Nat.exists_eq_succ_of_ne_zero (Nat.ne_zero_of_lt hfuel)
    rw [search, if_pos rfl]
    rfl
  | cons c a ih =>
    obtain ⟨rfl, hl⟩ := hl
    obtain ⟨n, rfl⟩ := Nat.exists_eq_succ_of_ne_zero (Nat.ne_zero_of_lt hfuel)
    have hc : c ≠ t := fun heq => ht (heq ▸ List.mem_cons_self)
    rw [search, if_neg hc, ih hl (fun hmem => ht (List.mem_cons_of_mem _ hmem)) (Nat.lt_of_succ_lt_succ hfuel),
      List.getLast?_cons]
    cases a.getLast? <;> rfl

/-- The walk finds nothing where the node is not. -/
theorem search_of_notMem (hl : Chain next p l) (ht : t ∉ l) (hfuel : l.length ≤ n) :
    search next t n prev p = some none := by
  induction l generalizing p n prev with
  | nil =>
    obtain rfl : p = none := hl
    cases n <;> rfl
  | cons c l ih =>
    obtain ⟨rfl, hl⟩ := hl
    obtain ⟨n, rfl⟩ := Nat.exists_eq_succ_of_ne_zero (Nat.ne_zero_of_lt hfuel)
    have hc : c ≠ t := fun heq => ht (heq ▸ List.mem_cons_self)
    rw [search, if_neg hc]
    exact ih hl (fun hmem => ht (List.mem_cons_of_mem _ hmem)) (Nat.le_of_succ_le_succ hfuel)

end ThreadList

end Flopperating
