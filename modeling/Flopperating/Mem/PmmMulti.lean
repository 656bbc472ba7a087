/-
# Several blocks in one call

`pmm_alloc_pages` takes its blocks one after the other and returns the first of
them; `pmm_free_pages` gives back the blocks at `addr`, `addr + 2^order` pages
and so on.  `pmmTake` is what the rounds of an allocation take, and the loop is
described through it (`pmmAllocLoop_eq`): enough blocks, and the first address
is returned; none at all, and the call fails; anything in between, and the
rollback asks for the lock that this very call holds.

`pmmTake_spec` says which blocks are taken, `pmmFreeTargets_spec` what freeing a
list of blocks does, both on any state that satisfies `BuddyInv`.
-/

import Flopperating.Mem.PmmBootMemory

namespace Flopperating

open LinkedList DyadicBlocks

/-- What `n` rounds of the loop of `pmm_alloc_pages` take, up to the first that
fails: the addresses in order and the state left. -/
def pmmTake (order : ℕ) : ℕ → BuddyAllocator → List ℕ × BuddyAllocator
  | 0, s => ([], s)
  | n + 1, s =>
    let (pg, s) := pmmAllocBlock order s
    if pg = 0 then ([], s)
    else
      let (l, s) := pmmTake order n s
      (pg :: l, s)

/-- The pages covered by the free lists. -/
def covered (s : BuddyAllocator) : Set ℕ :=
  {x | ∃ k i, OnFreeList s k i ∧ x ∈ linkedRange s k i}

/-- `n` blocks are linked on the lists from `order` up to `MAX_ORDER`. -/
def Available (s : BuddyAllocator) (order n : ℕ) : Prop :=
  ∃ chain, FreeLists s chain ∧ ∑ k ∈ Finset.Icc order maxOrder, (chain k).length = n

/-! ### The lock -/

theorem pmmDetermineSplit_lock (block toOrder fromOrder : ℕ) (s : BuddyAllocator) :
    (pmmDetermineSplit block toOrder fromOrder s).lock = s.lock := by
  induction fromOrder generalizing s with
  | zero => rfl
  | succ k ih =>
    unfold pmmDetermineSplit
    split
    · simp only
      split
      · rfl
      · exact ih _
    · rfl

theorem pmmFetchFrom_lock {s t : BuddyAllocator} {n j i : ℕ}
    (h : pmmFetchFrom s n j = some (i, t)) : t.lock = s.lock := by
  rcases pmmFetchFrom_cases s n j with ⟨-, hnone⟩ | ⟨k, i', -, -, -, -, hsome⟩
  · simp [hnone] at h
  · rw [hsome, Option.some.injEq, Prod.mk.injEq] at h
    exact h.2 ▸ rfl

theorem pmmAllocBlock_lock (order : ℕ) (s : BuddyAllocator) :
    (pmmAllocBlock order s).2.lock = s.lock := by
  unfold pmmAllocBlock
  split
  · rfl
  · next i t hf =>
    have hlock : t.lock = s.lock := pmmFetchFrom_lock hf
    exact (pmmDetermineSplit_lock ..).trans hlock

/-! ### The loop -/

/-- **The loop of `pmm_alloc_pages`**, with the lock held: it succeeds when every
round takes a block, fails when the very first takes none, and does not return
when it has a block to give back. -/
theorem pmmAllocLoop_eq {order : ℕ} (ho : order ≤ maxOrder) (rounds i start : ℕ)
    (s : BuddyAllocator) (hlock : s.lock = true) (hi : start ≠ 0 → i ≠ 0) :
    pmmAllocLoop order rounds i start s =
      if (pmmTake order rounds s).1.length = rounds then
        some (if start = 0 then (pmmTake order rounds s).1.headD 0 else start,
          spinlockUnlock (pmmTake order rounds s).2)
      else if start = 0 ∧ (pmmTake order rounds s).1 = [] then
        some (0, spinlockUnlock (pmmTake order rounds s).2)
      else none := by
  induction rounds generalizing i start s with
  | zero =>
    simp only [pmmAllocLoop, pmmTake, List.length_nil, if_true, List.headD_nil]
    by_cases hs : start = 0
    · rw [if_pos hs, hs]
    · rw [if_neg hs]
  | succ rounds ih =>
    have hlock' := (pmmAllocBlock_lock order s).trans hlock
    by_cases hpg : (pmmAllocBlock order s).1 = 0
    · have htake : pmmTake order (rounds + 1) s = ([], (pmmAllocBlock order s).2) := by
        simp [pmmTake, hpg]
      rw [htake, pmmAllocLoop]
      by_cases hs : start = 0
      · simp [hpg, hs]
      · -- the rollback waits for the lock
        have hno : ¬ (start = 0 ∨ order > maxOrder ∨ i = 0) := by
          have := hi hs
          simp only [maxOrder] at *
          omega
        have hroll : pmmFreePages start order i (pmmAllocBlock order s).2 = none := by
          simp [pmmFreePages, if_neg hno, spinlock, hlock']
        simp [hpg, hs, hroll]
    · have htake : pmmTake order (rounds + 1) s =
          ((pmmAllocBlock order s).1 :: (pmmTake order rounds (pmmAllocBlock order s).2).1,
            (pmmTake order rounds (pmmAllocBlock order s).2).2) := by
        simp [pmmTake, hpg]
      have hstart : (if start = 0 then (pmmAllocBlock order s).1 else start) ≠ 0 := by
        split
        · exact hpg
        · assumption
      rw [htake, pmmAllocLoop]
      simp only [if_neg hpg]
      rw [ih (i + 1) _ _ hlock' fun _ => by omega]
      simp only [List.length_cons, Nat.add_right_cancel_iff, hstart, false_and, if_false,
        reduceCtorEq, and_false, List.headD_cons]

/-- `pmm_alloc_pages` with the lock free. -/
theorem pmmAllocPages_eq {order count : ℕ} (ho : order ≤ maxOrder) (hc : count ≠ 0)
    {s : BuddyAllocator} (hlock : s.lock = false) :
    pmmAllocPages order count s =
      if (pmmTake order count { s with lock := true }).1.length = count then
        some ((pmmTake order count { s with lock := true }).1.headD 0,
          spinlockUnlock (pmmTake order count { s with lock := true }).2)
      else if (pmmTake order count { s with lock := true }).1 = [] then
        some (0, spinlockUnlock (pmmTake order count { s with lock := true }).2)
      else none := by
  have hno : ¬ (order > maxOrder ∨ count = 0) := by omega
  rw [pmmAllocPages, if_neg hno]
  simp only [spinlock, hlock, Bool.false_eq_true, if_false, Option.bind_eq_bind, Option.bind_some]
  rw [pmmAllocLoop_eq ho count 0 0 _ rfl (by simp)]
  simp

/-- `pmm_free_pages` with the lock free. -/
theorem pmmFreePages_eq {addr order count : ℕ} (ha : addr ≠ 0) (ho : order ≤ maxOrder)
    (hc : count ≠ 0) {s : BuddyAllocator} (hlock : s.lock = false) :
    pmmFreePages addr order count s =
      ((pmmFreeTargets order count addr).foldlM (pmmFreeBlock order)
        { s with lock := true }).map spinlockUnlock := by
  have hno : ¬ (addr = 0 ∨ order > maxOrder ∨ count = 0) := by omega
  simp only [pmmFreePages, if_neg hno, spinlock, hlock, Bool.false_eq_true, if_false,
    Option.bind_eq_bind, Option.bind_some]
  cases (pmmFreeTargets order count addr).foldlM (pmmFreeBlock order) { s with lock := true } <;> rfl

/-! ### What is taken and what is given back -/

section Specs

variable {A : Finset ℕ} {s : BuddyAllocator} {F O : Finset Block}

/-- What `n` rounds take from the free blocks `F`: the blocks `B`, handed out as
the blocks `C` of the order asked for. -/
structure TakeOutcome (A : Finset ℕ) (s : BuddyAllocator) (F O : Finset Block) (order n : ℕ)
    (B C : List Block) : Prop where
  result : (pmmTake order n s).1 = C.map fun c => c.base * pageSize
  layout : SameLayout (pmmTake order n s).2 s
  inv : BuddyInv A (pmmTake order n s).2 (F \ B.toFinset) (C.toFinset ∪ O)
    (F \ B.toFinset ∪ (C.toFinset ∪ O))
  bases : C.map Block.base = B.map Block.base
  orders : ∀ c ∈ C, c.order = order
  taken : ∀ b ∈ B, b ∈ F ∧ order ≤ b.order ∧ b.order ≤ maxOrder
  nodup : B.Nodup
  fresh : ∀ c ∈ C, c ∉ O
  le : B.length ≤ n
  /-- A round fails only when nothing is left to take. -/
  full : B.length < n → ∀ b ∈ F, order ≤ b.order → b.order ≤ maxOrder → b ∈ B

theorem pmmTake_spec (hI : BuddyInv A s F O (F ∪ O)) (h0 : 0 ∉ A) {order : ℕ}
    (ho : order ≤ maxOrder) (n : ℕ) : ∃ B C, TakeOutcome A s F O order n B C := by
  induction n generalizing s F O with
  | zero =>
    exact ⟨[], [], rfl, SameLayout.refl s, by simpa [pmmTake] using hI, rfl, by simp, by simp,
      List.nodup_nil, by simp, le_rfl, fun h => absurd h (by simp)⟩
  | succ n ih =>
    rcases pmmAllocBlock_spec hI ho with
      ⟨hnone, hblk⟩ | ⟨b, hbF, hb, t, hbm, -, -, hblk, hlay, -, -, -, hI'⟩
    · have htake : pmmTake order (n + 1) s = ([], s) := by simp [pmmTake, hblk]
      refine ⟨[], [], by rw [htake]; rfl, by rw [htake]; exact SameLayout.refl s,
        by rw [htake]; simpa using hI, rfl, by simp, by simp, List.nodup_nil, by simp, by simp,
        fun _ b hbF hb hbm => ?_⟩
      obtain ⟨l, hc, hl⟩ := hI.lists b.order
      rw [hnone b.order hb hbm] at hc
      have hbl := (hI.index_mem_iff hl (hI.mem_of_free hbF)).2 ⟨hbF, rfl⟩
      exact absurd (hc.linked hbl) not_linked_none
    · have hbH : b ∈ F ∪ O := Finset.mem_union_left _ hbF
      have hz : b.base * pageSize ≠ 0 :=
        Nat.mul_ne_zero (fun hz => h0 (hz ▸ hI.base_mem hbH)) (by decide)
      obtain ⟨B, C, hT⟩ := ih hI'
      have htake : pmmTake order (n + 1) s =
          (b.base * pageSize :: (pmmTake order n t).1, (pmmTake order n t).2) := by
        simp only [pmmTake, hblk, if_neg hz]
      have hbB : b ∉ B := fun hm => absurd (hT.taken b hm).1 (by simp)
      have hF : F.erase b \ B.toFinset = F \ (b :: B).toFinset := by
        ext c
        simp only [Finset.mem_sdiff, Finset.mem_erase, List.mem_toFinset, List.mem_cons]
        tauto
      have hO : C.toFinset ∪ insert (b.shrink order hb) O =
          (b.shrink order hb :: C).toFinset ∪ O := by
        rw [List.toFinset_cons, Finset.union_insert, Finset.insert_union]
      refine ⟨b :: B, b.shrink order hb :: C, ?_, ?_, ?_, ?_, ?_, ?_, ?_, ?_, ?_, ?_⟩
      · rw [htake, hT.result]; rfl
      · rw [htake]; exact hT.layout.trans hlay
      · rw [htake, ← hF, ← hO]; exact hT.inv
      · rw [List.map_cons, List.map_cons, hT.bases]; rfl
      · exact List.forall_mem_cons.2 ⟨rfl, hT.orders⟩
      · refine List.forall_mem_cons.2 ⟨⟨hbF, hb, hbm⟩, fun c hc => ?_⟩
        obtain ⟨h₁, h₂⟩ := hT.taken c hc
        exact ⟨Finset.mem_of_mem_erase h₁, h₂⟩
      · exact List.nodup_cons.2 ⟨hbB, hT.nodup⟩
      · refine List.forall_mem_cons.2 ⟨fun hm => ?_, fun c hc hcO => hT.fresh c hc
          (Finset.mem_insert_of_mem hcO)⟩
        -- what is handed out starts where a free block starts
        have he := hI.eq_of_base_eq (Finset.mem_union_right _ hm) hbH rfl
        exact Finset.disjoint_left.1 hI.disjoint_free_out hbF (he ▸ hm)
      · simpa using hT.le
      · intro hlt c hcF hco hcm
        by_cases hcb : c = b
        · exact hcb ▸ List.mem_cons_self
        · exact List.mem_cons_of_mem _
            (hT.full (by simpa using hlt) c (Finset.mem_erase.2 ⟨hcb, hcF⟩) hco hcm)

/-- **Freeing blocks that were handed out**, one after the other, returns, and
their frames go back to the lists. -/
theorem pmmFreeTargets_spec {order : ℕ} {C : List Block} (hI : BuddyInv A s F O (F ∪ O))
    (hC : ∀ c ∈ C, c ∈ O ∧ c.order = order) (hnd : C.Nodup) :
    ∃ t F', (C.map fun c => c.base * pageSize).foldlM (pmmFreeBlock order) s = some t ∧
      SameLayout t s ∧ t.lock = s.lock ∧ BuddyInv A t F' (O \ C.toFinset) (F' ∪ O \ C.toFinset) ∧
      ∀ b ∈ F ∪ C.toFinset, ∃ c ∈ F', b.pages ⊆ c.pages := by
  induction C generalizing s F O with
  | nil => exact ⟨s, F, rfl, SameLayout.refl s, rfl, by simpa using hI,
      fun b hb => ⟨b, by simpa using hb, subset_rfl⟩⟩
  | cons h C ih =>
    obtain ⟨⟨hhO, rfl⟩, hC⟩ := List.forall_mem_cons.1 hC
    obtain ⟨hhC, hnd⟩ := List.nodup_cons.1 hnd
    obtain ⟨t, F₁, hrun, hlay, hlock, hI₁, hcov, -⟩ := pmmFreeBlock_spec hI hhO
    obtain ⟨u, F', hrun', hlay', hlock', hI', hcov'⟩ := ih hI₁
      (fun c hc => ⟨Finset.mem_erase.2 ⟨fun e => hhC (e ▸ hc), (hC c hc).1⟩, (hC c hc).2⟩) hnd
    have hO : O.erase h \ C.toFinset = O \ (h :: C).toFinset := by
      ext c
      simp only [Finset.mem_sdiff, Finset.mem_erase, List.mem_toFinset, List.mem_cons]
      tauto
    refine ⟨u, F', ?_, hlay'.trans hlay, hlock'.trans hlock, hO ▸ hI', fun b hb => ?_⟩
    · rw [List.map_cons, List.foldlM_cons, hrun]
      exact hrun'
    · have hstep : ∀ c ∈ insert h F, ∃ d ∈ F', c.pages ⊆ d.pages := fun c hc => by
        obtain ⟨d, hd, hsub⟩ := hcov c hc
        obtain ⟨e, he, hsub'⟩ := hcov' d (Finset.mem_union_left _ hd)
        exact ⟨e, he, hsub.trans hsub'⟩
      rw [List.toFinset_cons, Finset.union_insert, Finset.mem_insert, Finset.mem_union] at hb
      rcases hb with rfl | hb | hb
      · exact hstep b (Finset.mem_insert_self _ _)
      · exact hstep b (Finset.mem_insert_of_mem hb)
      · exact hcov' b (Finset.mem_union_right _ hb)

end Specs

end Flopperating
