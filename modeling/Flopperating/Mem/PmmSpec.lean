/-
# The operations of the buddy allocator against its invariant

What `pmm_buddy_merge`, `pmm_alloc_block` and `pmm_free_block` do to the blocks
on the lists and in the callers' hands, for every state that satisfies
`BuddyInv`.  In particular they return: the walk along a free list ends because
the list does, and the recursion of a merge ends because a block of order `k`
takes `2 ^ k` page records.

`MergesPast` is the test of `pmm_buddy_merge` made ahead of time, on the state
before the call: that at each of the next `n` orders the buddy of the block
merged so far is marked free with that order.
-/

import Flopperating.Mem.PmmInvariant

namespace Flopperating

open LinkedList DyadicBlocks

/-- The test of `pmm_buddy_merge`: the buddy of the block at `addr` has a
record, marked free with the same order. -/
def BuddyIsFree (s : BuddyAllocator) (addr order : ℕ) : Prop :=
  ∃ i ∈ physToPageIndex s (pmmGetBuddyAddress addr order),
    (s.pageInfo i).isFree ≠ 0 ∧ (s.pageInfo i).order = order

/-- The test succeeds at `n` orders in a row, from `order` on. -/
def MergesPast (s : BuddyAllocator) : ℕ → ℕ → ℕ → Prop
  | 0, _, _ => True
  | n + 1, addr, order => BuddyIsFree s addr order ∧
      MergesPast s n (if addr < pmmGetBuddyAddress addr order then addr
        else pmmGetBuddyAddress addr order) (order + 1)

/-- The tests read the marks and orders of the records only. -/
theorem MergesPast.congr {s t : BuddyAllocator} (hl : SameLayout t s)
    (hr : ∀ i, (t.pageInfo i).isFree = (s.pageInfo i).isFree ∧
      (t.pageInfo i).order = (s.pageInfo i).order) :
    ∀ {n addr order}, MergesPast t n addr order → MergesPast s n addr order
  | 0, _, _, _ => trivial
  | _ + 1, _, _, ⟨⟨i, hi, hf, ho⟩, h⟩ =>
    ⟨⟨i, by rwa [← hl.physToPageIndex], (hr i).1 ▸ hf, (hr i).2 ▸ ho⟩, h.congr hl hr⟩

theorem MergesPast.of_le {s : BuddyAllocator} :
    ∀ {m n addr order}, m ≤ n → MergesPast s n addr order → MergesPast s m addr order
  | 0, _, _, _, _, _ => trivial
  | _ + 1, 0, _, _, hle, _ => absurd hle (by omega)
  | _ + 1, _ + 1, _, _, hle, ⟨h, h'⟩ => ⟨h, h'.of_le (by omega)⟩

section Specs

variable {A : Finset ℕ} {s : BuddyAllocator} {F O H : Finset Block} {h : Block}

/-- What a merge of the block `h`, in hand over the free blocks `F`, leaves:
the free blocks `F'`, among them one that contains `h`. -/
structure MergeOutcome (A : Finset ℕ) (s : BuddyAllocator) (F O : Finset Block) (h : Block)
    (t : BuddyAllocator) (F' : Finset Block) : Prop where
  layout : SameLayout t s
  lock : t.lock = s.lock
  inv : BuddyInv A t F' O (F' ∪ O)
  /-- No frame leaves the lists. -/
  covers : ∀ b ∈ insert h F, ∃ c ∈ F', b.pages ⊆ c.pages
  /-- One block is new, as many orders larger than `h` as there were free
  buddies in a row. -/
  levels : ∃ top n, F' ⊆ insert top F ∧ top.order = h.order + n ∧
    MergesPast s n (h.base * pageSize) h.order

/-- `pmm_buddy_merge` goes on with the address of the parent. -/
theorem merged_addr {b : Block} (hord : b.order < 20) :
    (if b.base * pageSize < pmmGetBuddyAddress (b.base * pageSize) b.order
      then b.base * pageSize else pmmGetBuddyAddress (b.base * pageSize) b.order) =
      b.parent.base * pageSize := by
  rw [pmmGetBuddyAddress_frame b.base hord, Block.base_parent, Block.base_buddy]
  simp only [pageSize]
  split_ifs <;> omega

/-- The test of `pmm_buddy_merge` finds a buddy that is linked. -/
theorem BuddyInv.buddyIsFree (hI : BuddyInv A s F O H) (hord : h.order < 20) (hb : h.buddy ∈ F) :
    BuddyIsFree s (h.base * pageSize) h.order := by
  refine ⟨h.buddy.base - s.baseFrame, ?_, hI.linked h.buddy hb⟩
  rw [pmmGetBuddyAddress_frame h.base hord]
  exact (hI.index h.buddy.base (hI.base_mem (hI.mem_of_free hb))).2

/-- **One round of a merge**: the buddy of the block in hand is unlinked, if it was linked, and the
parent is in hand. -/
theorem BuddyInv.absorb (hI : BuddyInv A s F O H) (hH : H = insert h (F ∪ O)) (hF : h ∉ F ∪ O) {j : ℕ}
    (hbuddy : physToPageIndex s (pmmGetBuddyAddress (h.base * pageSize) h.order) = some j)
    (htest : (s.pageInfo j).isFree ≠ 0 ∧ (s.pageInfo j).order = h.order) :
    ∃ t, pmmUnlink s h.order j = some t ∧ SameLayout t s ∧ t.lock = s.lock ∧
      (∀ i, (t.pageInfo i).isFree = (s.pageInfo i).isFree ∧
        (t.pageInfo i).order = (s.pageInfo i).order) ∧
      BuddyInv A t (F.erase h.buddy) O (insert h.parent (F.erase h.buddy ∪ O)) ∧
      h.parent ∉ F.erase h.buddy ∪ O := by
  have hh : h ∈ H := hH ▸ Finset.mem_insert_self _ _
  have hord := hI.order_lt (hI.tiling.subset h hh)
  -- the record names the buddy
  have hblt : h.base ^^^ 2 ^ h.order < 2 ^ 20 :=
    Nat.xor_lt_two_pow (by have := (hI.index h.base (hI.base_mem hh)).1; omega)
      (Nat.pow_lt_pow_right (by norm_num) hord)
  have hj := physToPageIndex_eq_some hI.base hblt (pmmGetBuddyAddress_frame h.base hord ▸ hbuddy)
  obtain ⟨c, hcb, hck, hcA, hcs⟩ := hI.marks j hj.2 htest.1
  obtain rfl : c = h.buddy := Block.ext (hcb.trans hj.1.symm) (hck.trans htest.2)
  obtain ⟨t, hrun, hlay, hlock, hrec, hI'⟩ :=
    hI.unlink (k := h.order) (i := j) (b := h.buddy) rfl hcb
  have hbO : h.buddy ∉ O := fun hO => by
    have hfr : s.frame h.buddy.base = s.pageInfo j := by
      rw [BuddyAllocator.frame, hcb, Nat.add_sub_cancel_left]
    exact htest.1 (hfr ▸ (hI.used _ hO).1)
  have hbF : h.buddy ∉ F.erase h.buddy ∪ O := by simp [hbO]
  have hhF : h ∉ F.erase h.buddy ∪ O := fun hm =>
    hF (Finset.union_subset_union_left (Finset.erase_subset _ _) hm)
  have hI'' := hI'.coalesce hh hhF hbF hcs hcA
  have hparH : h.parent ∉ H := fun hm => by
    have hpar : h.base ∈ h.parent.pages := by
      rw [Block.pages_parent]; exact Finset.mem_union_left _ h.base_mem_pages
    have := congrArg Block.order (hI.tiling.eq_of_mem hm hh hpar h.base_mem_pages)
    rw [Block.order_parent] at this
    omega
  have hne : h ≠ h.buddy := fun e =>
    Finset.disjoint_left.1 h.disjoint_buddy h.base_mem_pages (e ▸ h.base_mem_pages)
  have hH' : DyadicBlocks.coalesce H h = Insert.insert h.parent (F.erase h.buddy ∪ O) := by
    have hOb : O.erase h.buddy = O := Finset.erase_eq_of_notMem hbO
    rw [DyadicBlocks.coalesce, hH, Finset.erase_insert_of_ne hne,
      Finset.erase_insert (fun hm => hF (Finset.mem_of_mem_erase hm)),
      Finset.erase_union_distrib, hOb]
  refine ⟨t, hrun, hlay, hlock, fun i => by rw [← hrec i]; exact ⟨rfl, rfl⟩, hH' ▸ hI'', fun hm => ?_⟩
  exact hparH (hI.held (Finset.union_subset_union_left (Finset.erase_subset _ _) hm))

/-- **Merging a block in hand** returns, with the block or a block around it on a free list; it
leaves no buddies next to each other where there were none. -/
theorem pmmBuddyMerge_spec (steps : ℕ) (hI : BuddyInv A s F O H) (hH : H = insert h (F ∪ O))
    (hF : h ∉ F ∪ O) (hsteps : s.totalPages < steps + h.order) :
    ∃ t F', pmmBuddyMerge steps (h.base * pageSize) h.order s = some t ∧
      MergeOutcome A s F O h t F' ∧ (Merged F → Merged F') := by
  have hh : h ∈ H := hH ▸ Finset.mem_insert_self _ _
  have hsize := hI.size_le (hI.tiling.subset h hh)
  have hord := hI.order_lt (hI.tiling.subset h hh)
  induction steps generalizing s F H h with
  | zero =>
    have := Nat.lt_two_pow_self (n := h.order)
    omega
  | succ steps ih =>
    obtain ⟨-, hidx⟩ := hI.index h.base (hI.base_mem hh)
    -- without a free buddy the block is linked where it is
    have hstop : ¬ BuddyIsFree s (h.base * pageSize) h.order → ∃ t F',
        some (s.pushPage h.order (h.base - s.baseFrame)
          { s.frame h.base with order := h.order, isFree := 1 }) = some t ∧
        MergeOutcome A s F O h t F' ∧ (Merged F → Merged F') := fun hno => by
      rw [Finset.mem_union, not_or] at hF
      have hlink := hI.link hh hF.1 hF.2 rfl
      rw [hH, ← Finset.insert_union] at hlink
      exact ⟨_, insert h F, rfl, ⟨sameLayout_pushPage .., rfl, hlink,
        fun b hb => ⟨b, hb, subset_rfl⟩, h, 0, subset_rfl, rfl, trivial⟩,
        fun hm => hm.insert fun hb => hno (hI.buddyIsFree hord hb)⟩
    simp only [pmmBuddyMerge, hidx]
    cases hbuddy : physToPageIndex s (pmmGetBuddyAddress (h.base * pageSize) h.order) with
    | none => exact hstop fun ⟨i, hi, _⟩ => absurd (hbuddy.symm.trans hi) (by simp)
    | some j =>
      by_cases htest : (s.pageInfo j).isFree ≠ 0 ∧ (s.pageInfo j).order = h.order
      swap
      · simp only [if_neg htest]
        exact hstop fun ⟨i, hi, htest'⟩ => htest (Option.some.inj (hbuddy.symm.trans hi) ▸ htest')
      obtain ⟨t, hrun, hlay, hlock, hrec, hI', hparF⟩ := hI.absorb hH hF hbuddy htest
      simp only [if_pos htest, hrun]
      -- from here on the parent is in hand
      have hparA := hI'.tiling.subset h.parent (Finset.mem_insert_self _ _)
      obtain ⟨u, F', hrun', ⟨hlay', hlock', hI₃, hcov, top, n, hsub, htop, hpast⟩, hmerged⟩ :=
        ih (h := h.parent) hI' rfl hparF
          (by rw [hlay.totalPages, Block.order_parent]; omega)
          (Finset.mem_insert_self _ _) (hI'.size_le hparA) (hI'.order_lt hparA)
      refine ⟨u, F', ?_, ⟨hlay'.trans hlay, hlock'.trans hlock, hI₃, ?_, top, n + 1,
        hsub.trans (Finset.insert_subset_insert _ (Finset.erase_subset _ _)), ?_, ?_⟩,
        fun hm => hmerged (hm.mono (Finset.erase_subset _ _))⟩
      · rw [← hrun', ← merged_addr hord]; rfl
      · intro b hb
        obtain ⟨c, hc, hpc⟩ := hcov h.parent (Finset.mem_insert_self _ _)
        rw [Block.pages_parent] at hpc
        rcases Finset.mem_insert.1 hb with rfl | hb
        · exact ⟨c, hc, Finset.subset_union_left.trans hpc⟩
        · by_cases hbb : b = h.buddy
          · exact ⟨c, hc, hbb ▸ Finset.subset_union_right.trans hpc⟩
          · exact hcov b (Finset.mem_insert_of_mem (Finset.mem_erase.2 ⟨hbb, hb⟩))
      · rw [htop, Block.order_parent]; omega
      · refine ⟨⟨j, hbuddy, htest⟩, ?_⟩
        rw [merged_addr hord]
        exact hpast.congr hlay hrec

/-- The tests of a merge never look at the record of a frame inside the block
that is being merged. -/
theorem MergesPast.of_inside {t : BuddyAllocator} (hl : SameLayout t s)
    (hbase : pageSize ∣ s.memoryBase) (i₀ : ℕ) (hr : ∀ i, i ≠ i₀ → t.pageInfo i = s.pageInfo i) :
    ∀ {n : ℕ} {b : Block}, s.baseFrame + i₀ ∈ b.pages → b.base < 2 ^ 20 → b.order + n ≤ 20 →
      MergesPast t n (b.base * pageSize) b.order → MergesPast s n (b.base * pageSize) b.order
  | 0, _, _, _, _, _ => trivial
  | n + 1, b, hi₀, hlt, hn, ⟨⟨i, hi, hf, ho⟩, hrest⟩ => by
    have haddr := pmmGetBuddyAddress_frame b.base (k := b.order) (by omega)
    have hblt : b.base ^^^ 2 ^ b.order < 2 ^ 20 :=
      Nat.xor_lt_two_pow hlt (Nat.pow_lt_pow_right (by norm_num) (by omega))
    rw [hl.physToPageIndex] at hi
    have hbud : b.buddy.base = s.baseFrame + i :=
      (physToPageIndex_eq_some hbase hblt (haddr ▸ hi)).1
    have hne : i ≠ i₀ := by
      rintro rfl
      exact Finset.disjoint_left.1 b.disjoint_buddy hi₀ (hbud ▸ b.buddy.base_mem_pages)
    refine ⟨⟨i, hi, hr i hne ▸ hf, hr i hne ▸ ho⟩, ?_⟩
    rw [merged_addr (by omega)] at hrest ⊢
    refine MergesPast.of_inside hl hbase i₀ hr (b := b.parent) ?_ ?_ ?_ hrest
    · rw [Block.pages_parent]; exact Finset.mem_union_left _ hi₀
    · rw [Block.base_parent]; exact lt_of_le_of_lt (min_le_left _ _) hlt
    · rw [Block.order_parent]; omega

/-- **Freeing a block that was handed out** returns.  Its frames go back to the
lists, and no block beyond `MAX_ORDER` arises unless the block has a free buddy
at every order up to there; no buddies are left next to each other where there were none. -/
theorem pmmFreeBlock_spec (hI : BuddyInv A s F O (F ∪ O)) (hh : h ∈ O) :
    ∃ t F', pmmFreeBlock h.order s (h.base * pageSize) = some t ∧ SameLayout t s ∧
      t.lock = s.lock ∧ BuddyInv A t F' (O.erase h) (F' ∪ O.erase h) ∧
      (∀ b ∈ insert h F, ∃ c ∈ F', b.pages ⊆ c.pages) ∧
      (¬ MergesPast s (maxOrder + 1 - h.order) (h.base * pageSize) h.order →
        h.order ≤ maxOrder → ∀ b ∈ F', b ∈ F ∨ b.order ≤ maxOrder) ∧ (Merged F → Merged F') := by
  have hhH : h ∈ F ∪ O := Finset.mem_union_right _ hh
  have hhF : h ∉ F := fun hF => Finset.disjoint_left.1 hI.disjoint_free_out hF hh
  obtain ⟨hlt, hidx⟩ := hI.index h.base (hI.base_mem hhH)
  set i := h.base - s.baseFrame with hi
  set s₁ := s.setPage i { s.frame h.base with isFree := 1 } with hs₁
  have hlay : SameLayout s₁ s := sameLayout_setPage ..
  have hI₁ : BuddyInv A s₁ F (O.erase h) (F ∪ O) := hI.unmark hh rfl
  have hH : F ∪ O = insert h (F ∪ O.erase h) := by
    rw [← Finset.union_insert, Finset.insert_erase hh]
  have haddr : (s₁.pageInfo i).address = h.base * pageSize := by
    rw [hs₁, setPage_pageInfo_self]
    exact hI.address _ (hI.base_mem hhH)
  obtain ⟨t, F', hrun, hout, hmerged⟩ := pmmBuddyMerge_spec (s₁.totalPages + 1) hI₁ hH
    (by simp [hhF]) (by omega)
  refine ⟨t, F', ?_, hout.layout.trans hlay, hout.lock, hout.inv, hout.covers, ?_, hmerged⟩
  · simp only [pmmFreeBlock, hidx]
    exact (congrArg (fun a => pmmBuddyMerge _ a _ _) haddr).trans hrun
  · intro hpast hord b hb
    obtain ⟨top, n, hsub, htop, hlev⟩ := hout.levels
    rcases Finset.mem_insert.1 (hsub hb) with rfl | hb
    · right
      by_contra hgt
      refine hpast (MergesPast.of_inside hlay hI.base i (fun j hj =>
        setPage_pageInfo_of_ne s _ hj) ?_ (by omega) ?_ (hlev.of_le ?_))
      · rw [hi, ← (hI.frame_spec (hI.base_mem hhH)).2.1]; exact h.base_mem_pages
      all_goals simp only [maxOrder] at *; omega
    · exact .inl hb

/-- `pmm_fetch_order_block` takes the head of the first list that is not empty. -/
theorem pmmFetchFrom_cases (s : BuddyAllocator) (n j : ℕ) :
    ((∀ m, j ≤ m → m < j + n → s.freeList m = none) ∧ pmmFetchFrom s n j = none) ∨
    ∃ k i, j ≤ k ∧ k < j + n ∧ (∀ m, j ≤ m → m < k → s.freeList m = none) ∧
      s.freeList k = some i ∧
      pmmFetchFrom s n j = some (i, s.setFreeList k (s.pageInfo i).next) := by
  induction n generalizing j with
  | zero => exact .inl ⟨fun m h₁ h₂ => absurd h₂ (by omega), rfl⟩
  | succ n ih =>
    cases hj : s.freeList j with
    | some i =>
      refine .inr ⟨j, i, le_rfl, by omega, fun m h₁ h₂ => absurd h₂ (by omega), hj, ?_⟩
      simp [pmmFetchFrom, hj]
    | none =>
      have hempty : ∀ m, j ≤ m → (j + 1 ≤ m → s.freeList m = none) → s.freeList m = none :=
        fun m hm h => by
          rcases Nat.eq_or_lt_of_le hm with rfl | hlt
          · exact hj
          · exact h hlt
      rcases ih (j + 1) with ⟨h₁, h₂⟩ | ⟨k, i, h₁, h₂, h₃, h₄, h₅⟩
      · exact .inl ⟨fun m hm hm' => hempty m hm fun hlt => h₁ m hlt (by omega),
          by simp [pmmFetchFrom, hj, h₂]⟩
      · exact .inr ⟨k, i, by omega, by omega, fun m hm hm' => hempty m hm fun hlt => h₃ m hlt hm',
          h₄, by simp [pmmFetchFrom, hj, h₅]⟩

/-- Splitting down to the order one is at does nothing. -/
theorem pmmDetermineSplit_self (block k : ℕ) (s : BuddyAllocator) :
    pmmDetermineSplit block k k s = s := by
  cases k with
  | zero => rfl
  | succ k => simp [pmmDetermineSplit]

/-- **What an allocation takes.**  Either no list from `order` up to `MAX_ORDER`
has a block and nothing changes, or the head of the first such list is handed
out, unsplit: what lies behind its first `2 ^ order` frames is in nobody's
hands afterwards. -/
theorem pmmAllocBlock_spec (hI : BuddyInv A s F O (F ∪ O)) {order : ℕ} (ho : order ≤ maxOrder) :
    ((∀ m, order ≤ m → m ≤ maxOrder → s.freeList m = none) ∧ pmmAllocBlock order s = (0, s)) ∨
    ∃ b ∈ F, ∃ hb : order ≤ b.order, ∃ t, b.order ≤ maxOrder ∧
      (∀ m, order ≤ m → m < b.order → s.freeList m = none) ∧
      s.freeList b.order = some (b.base - s.baseFrame) ∧
      pmmAllocBlock order s = (b.base * pageSize, t) ∧ SameLayout t s ∧ t.lock = s.lock ∧
      t.freeList = Function.update s.freeList b.order (s.next (b.base - s.baseFrame)) ∧
      t.next = s.next ∧
      BuddyInv A t (F.erase b) (insert (b.shrink order hb) O)
        (F.erase b ∪ insert (b.shrink order hb) O) := by
  rcases pmmFetchFrom_cases s (maxOrder + 1 - order) order with
    ⟨h₁, h₂⟩ | ⟨k, i, hk, hk', hlow, hhead, hrun⟩
  · refine .inl ⟨fun m hm hm' => h₁ m hm (by omega), ?_⟩
    simp [pmmAllocBlock, pmmFetchOrderBlock, h₂]
  · right
    obtain ⟨b, hbF, hbk, hbi, hI'⟩ := hI.fetch hhead hk rfl
    subst hbk
    have hi : i = b.base - s.baseFrame := by omega
    refine ⟨b, hbF, hk, _, by omega, hlow, hi ▸ hhead, ?_, ?_, ?_, ?_, ?_, hI'⟩
    · simp only [pmmAllocBlock, pmmFetchOrderBlock, hrun, setPage_pageInfo_self,
        pmmDetermineSplit_self]
      congr 1
      have := hI.address b.base (hI.base_mem (Finset.mem_union_left _ hbF))
      rw [BuddyAllocator.frame, ← hi] at this
      exact this
    · exact (sameLayout_setPage ..).trans (sameLayout_setFreeList ..)
    · rfl
    · rw [← hi]; rfl
    · exact setPage_next_of_eq _ i _ rfl

end Specs

end Flopperating
