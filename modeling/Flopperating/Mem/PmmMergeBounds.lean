/-
# How far a merge climbs

`free_list` has an entry for each order up to `MAX_ORDER`, and behind the last one lies the pointer
`page_info`.  `pmm_buddy_merge` raises the order with every buddy it finds free and never asks
whether there is a list of the next order.

`pmmMergeOrders` lists the orders whose entry it reads or writes.  They are the orders up to the
first one at which the buddy is not free (`pmmMergeOrders_spec`), so a free stays inside the array
exactly if some buddy up to `MAX_ORDER` is not (`pmm_merges_within`).  That is not always so: where
`2 ^ (MAX_ORDER + 1)` aligned pages are managed, taking all of them one by one and giving them back
ends with a merge past the array (`pmm_merges_past`).
-/

import Flopperating.Mem.PmmMultiRuns

namespace Flopperating

open LinkedList DyadicBlocks Transition

/-- The orders `k` at which `pmm_buddy_merge` reads or writes `free_list[k]`. -/
def pmmMergeOrders : ℕ → ℕ → ℕ → BuddyAllocator → List ℕ
  | 0, _, _, _ => []
  | steps + 1, addr, order, s =>
    let buddyAddr := pmmGetBuddyAddress addr order
    match physToPageIndex s addr with
    | none => []
    | some _ =>
      match physToPageIndex s buddyAddr with
      | none => [order]
      | some buddyPage =>
        if (s.pageInfo buddyPage).isFree ≠ 0 ∧ (s.pageInfo buddyPage).order = order then
          match pmmUnlink s order buddyPage with
          | none => [order]
          | some s =>
            order :: pmmMergeOrders steps (if addr < buddyAddr then addr else buddyAddr) (order + 1) s
        else [order]

/-- The same for `pmm_free_block`. -/
def pmmFreeBlockOrders (order : ℕ) (s : BuddyAllocator) (addr : ℕ) : List ℕ :=
  match physToPageIndex s addr with
  | none => []
  | some page =>
    let s := s.setPage page { s.pageInfo page with isFree := 1 }
    pmmMergeOrders (s.totalPages + 1) (s.pageInfo page).address order s

/-- The same for the loop of `pmm_free_pages`. -/
def pmmFreeLoopOrders (order : ℕ) : List ℕ → BuddyAllocator → List ℕ
  | [], _ => []
  | addr :: rest, s =>
    pmmFreeBlockOrders order s addr ++ ((pmmFreeBlock order s addr).map (pmmFreeLoopOrders order rest)).getD []

/-- The same for `pmm_free_pages`. -/
def pmmFreePagesOrders (addr order count : ℕ) (s : BuddyAllocator) : List ℕ :=
  if addr = 0 ∨ order > maxOrder ∨ count = 0 then []
  else ((spinlock s).map (pmmFreeLoopOrders order (pmmFreeTargets order count addr))).getD []

/-- Each block, when its turn comes, has a buddy at some order up to `MAX_ORDER` that is not free. -/
def TurnsWithin (order : ℕ) : List ℕ → BuddyAllocator → Prop
  | [], _ => True
  | addr :: rest, s => ¬ MergesPast s (maxOrder + 1 - order) addr order ∧
      ∀ t, pmmFreeBlock order s addr = some t → TurnsWithin order rest t

/-- A call that is an allocation, or a free of such blocks. -/
def StaysWithin (s : BuddyAllocator) : PmmMultiOp → Prop
  | .alloc _ _ => True
  | .free addr order count => TurnsWithin order (pmmFreeTargets order count addr) { s with lock := true }

section States

variable {A : Finset ℕ} {s : BuddyAllocator} {F O H : Finset Block} {h : Block}

/-- **A merge uses the lists up to the first order without a free buddy.** -/
theorem pmmMergeOrders_spec (steps : ℕ) (hI : BuddyInv A s F O H) (hH : H = insert h (F ∪ O))
    (hF : h ∉ F ∪ O) (hsteps : s.totalPages < steps + h.order) (k : ℕ) :
    k ∈ pmmMergeOrders steps (h.base * pageSize) h.order s ↔
      h.order ≤ k ∧ MergesPast s (k - h.order) (h.base * pageSize) h.order := by
  have hh : h ∈ H := hH ▸ Finset.mem_insert_self _ _
  have hsize := hI.size_le (hI.tiling.subset h hh)
  have hord := hI.order_lt (hI.tiling.subset h hh)
  induction steps generalizing s F H h with
  | zero =>
    have := Nat.lt_two_pow_self (n := h.order)
    omega
  | succ steps ih =>
    obtain ⟨-, hidx⟩ := hI.index h.base (hI.base_mem hh)
    have hstop : ¬ BuddyIsFree s (h.base * pageSize) h.order →
        (k ∈ [h.order] ↔ h.order ≤ k ∧ MergesPast s (k - h.order) (h.base * pageSize) h.order) := by
      intro hno
      rw [List.mem_singleton]
      constructor
      · rintro rfl
        rw [Nat.sub_self]
        exact ⟨le_rfl, trivial⟩
      · rintro ⟨hle, hpast⟩
        by_contra hne
        obtain ⟨n, hn⟩ : ∃ n, k - h.order = n + 1 := ⟨k - h.order - 1, by omega⟩
        rw [hn] at hpast
        exact hno hpast.1
    simp only [pmmMergeOrders, hidx]
    cases hbuddy : physToPageIndex s (pmmGetBuddyAddress (h.base * pageSize) h.order) with
    | none => exact hstop fun ⟨i, hi, _⟩ => absurd (hbuddy.symm.trans hi) (by simp)
    | some j =>
      by_cases htest : (s.pageInfo j).isFree ≠ 0 ∧ (s.pageInfo j).order = h.order
      swap
      · simp only [if_neg htest]
        exact hstop fun ⟨i, hi, htest'⟩ => htest (Option.some.inj (hbuddy.symm.trans hi) ▸ htest')
      obtain ⟨t, hrun, hlay, -, hrec, hI', hparF⟩ := hI.absorb hH hF hbuddy htest
      have hparA := hI'.tiling.subset h.parent (Finset.mem_insert_self _ _)
      have hclimb : k ∈ pmmMergeOrders steps (h.parent.base * pageSize) (h.order + 1) t ↔
          h.order + 1 ≤ k ∧ MergesPast t (k - (h.order + 1)) (h.parent.base * pageSize) (h.order + 1) :=
        ih (h := h.parent) hI' rfl hparF
          (by rw [hlay.totalPages, Block.order_parent]; omega)
          (Finset.mem_insert_self _ _) (hI'.size_le hparA) (hI'.order_lt hparA)
      simp only [if_pos htest, hrun, merged_addr hord]
      rw [List.mem_cons, hclimb]
      have hback : SameLayout s t := ⟨hlay.1.symm, hlay.2.symm, hlay.3.symm, hlay.4.symm⟩
      constructor
      · rintro (rfl | ⟨hle, hpast⟩)
        · rw [Nat.sub_self]
          exact ⟨le_rfl, trivial⟩
        · obtain ⟨n, hn⟩ : ∃ n, k - h.order = n + 1 := ⟨k - h.order - 1, by omega⟩
          have hn' : k - (h.order + 1) = n := by omega
          rw [hn'] at hpast
          rw [hn]
          refine ⟨by omega, ⟨j, hbuddy, htest⟩, ?_⟩
          rw [merged_addr hord]
          exact hpast.congr hlay hrec
      · rintro ⟨hle, hpast⟩
        rcases Nat.eq_or_lt_of_le hle with heq | hlt
        · exact .inl heq.symm
        · obtain ⟨n, hn⟩ : ∃ n, k - h.order = n + 1 := ⟨k - h.order - 1, by omega⟩
          have hn' : k - (h.order + 1) = n := by omega
          rw [hn] at hpast
          have hrest := hpast.2
          rw [merged_addr hord] at hrest
          refine .inr ⟨hlt, ?_⟩
          rw [hn']
          exact hrest.congr hback fun i => ⟨(hrec i).1.symm, (hrec i).2.symm⟩

/-- Freeing one block. -/
theorem pmmFreeBlockOrders_iff (hI : BuddyInv A s F O (F ∪ O)) (hh : h ∈ O) (hord : h.order ≤ maxOrder) :
    (∀ k ∈ pmmFreeBlockOrders h.order s (h.base * pageSize), k ≤ maxOrder) ↔
      ¬ MergesPast s (maxOrder + 1 - h.order) (h.base * pageSize) h.order := by
  have hhH : h ∈ F ∪ O := Finset.mem_union_right _ hh
  have hhF : h ∉ F := fun hF => Finset.disjoint_left.1 hI.disjoint_free_out hF hh
  obtain ⟨hlt, hidx⟩ := hI.index h.base (hI.base_mem hhH)
  set i := h.base - s.baseFrame with hi
  set s₁ := s.setPage i { s.frame h.base with isFree := 1 } with hs₁
  have hlay : SameLayout s₁ s := sameLayout_setPage ..
  have hlay' : SameLayout s s₁ := ⟨hlay.1.symm, hlay.2.symm, hlay.3.symm, hlay.4.symm⟩
  have hI₁ : BuddyInv A s₁ F (O.erase h) (F ∪ O) := hI.unmark hh rfl
  have hH : F ∪ O = insert h (F ∪ O.erase h) := by
    rw [← Finset.union_insert, Finset.insert_erase hh]
  have haddr : (s₁.pageInfo i).address = h.base * pageSize := by
    rw [hs₁, setPage_pageInfo_self]
    exact hI.address _ (hI.base_mem hhH)
  have hmem := pmmMergeOrders_spec (s₁.totalPages + 1) hI₁ hH (by simp [hhF]) (by omega)
  have hinside : s.baseFrame + i ∈ h.pages := by
    rw [hi, ← (hI.frame_spec (hI.base_mem hhH)).2.1]
    exact h.base_mem_pages
  -- the mark of the block itself is not looked at
  have hsame : MergesPast s₁ (maxOrder + 1 - h.order) (h.base * pageSize) h.order ↔
      MergesPast s (maxOrder + 1 - h.order) (h.base * pageSize) h.order := by
    have hlt' : h.base < 2 ^ 20 := by omega
    have hsum : h.order + (maxOrder + 1 - h.order) ≤ 20 := by simp only [maxOrder] at *; omega
    constructor
    · exact MergesPast.of_inside hlay hI.base i (fun j hj => setPage_pageInfo_of_ne s _ hj) hinside hlt' hsum
    · exact MergesPast.of_inside hlay' hI.base i (fun j hj => (setPage_pageInfo_of_ne s _ hj).symm) hinside
        hlt' hsum
  have hlist : pmmFreeBlockOrders h.order s (h.base * pageSize) =
      pmmMergeOrders (s₁.totalPages + 1) (h.base * pageSize) h.order s₁ := by
    simp only [pmmFreeBlockOrders, hidx]
    exact congrArg (fun a => pmmMergeOrders _ a _ _) haddr
  rw [hlist, ← hsame]
  constructor
  · intro hall hpast
    have := hall (maxOrder + 1) ((hmem _).2 ⟨by omega, hpast⟩)
    omega
  · intro hpast k hk
    by_contra hgt
    obtain ⟨-, hk⟩ := (hmem k).1 hk
    exact hpast (hk.of_le (by omega))

/-- Freeing blocks one after the other. -/
theorem pmmFreeLoopOrders_iff {order : ℕ} {C : List Block} (hI : BuddyInv A s F O (F ∪ O))
    (hC : ∀ c ∈ C, c ∈ O ∧ c.order = order) (hnd : C.Nodup) (hord : order ≤ maxOrder) :
    (∀ k ∈ pmmFreeLoopOrders order (C.map fun c => c.base * pageSize) s, k ≤ maxOrder) ↔
      TurnsWithin order (C.map fun c => c.base * pageSize) s := by
  induction C generalizing s F O with
  | nil => exact iff_of_true (fun k hk => absurd hk List.not_mem_nil) trivial
  | cons h C ih =>
    obtain ⟨⟨hhO, rfl⟩, hC⟩ := List.forall_mem_cons.1 hC
    obtain ⟨hhC, hnd⟩ := List.nodup_cons.1 hnd
    obtain ⟨t, F₁, hrun, -, -, hI₁, -⟩ := pmmFreeBlock_spec hI hhO
    have hrest := ih hI₁
      (fun c hc => ⟨Finset.mem_erase.2 ⟨fun e => hhC (e ▸ hc), (hC c hc).1⟩, (hC c hc).2⟩) hnd
    have hfirst := pmmFreeBlockOrders_iff hI hhO hord
    rw [List.map_cons, pmmFreeLoopOrders, TurnsWithin, hrun, Option.map_some, Option.getD_some,
      List.forall_mem_append, hfirst, hrest]
    refine and_congr_right fun _ => ⟨fun hturns u hu => ?_, fun hturns => hturns t rfl⟩
    rwa [← Option.some.inj hu]

end States

variable {mb : MultibootInfo} {s₀ : BuddyAllocator} {σ σ' : PmmSystem}

/-- The states of the runs that stay inside the array. -/
abbrev ReachedWithin (mb : MultibootInfo) (s₀ : BuddyAllocator) (σ : PmmSystem) : Prop :=
  Reach (pmmBooted mb s₀) (fun σ op σ' => StaysWithin σ.alloc op ∧ pmmMultiStep σ op σ') σ

/-- The orders a free uses. -/
theorem PmmInv.freeOrders_iff {A : Finset ℕ} {F : Finset Block} {L : List Block} (hI : PmmInv A σ F L)
    {addr order count : ℕ} (hout : (blocksFrom addr order count).Subperm σ.outs) :
    (∀ k ∈ pmmFreePagesOrders addr order count σ.alloc, k ≤ maxOrder) ↔
      StaysWithin σ.alloc (.free addr order count) := by
  rcases Nat.eq_zero_or_pos count with rfl | hc
  · refine iff_of_true (fun k hk => ?_) trivial
    simp [pmmFreePagesOrders] at hk
  obtain ⟨C, hC, hnd, htarget, hCL⟩ := hI.exists_blocks hout
  obtain ⟨n, rfl⟩ : ∃ n, count = n + 1 := ⟨count - 1, by omega⟩
  have hmem : (addr, order) ∈ C.map blockKey := by rw [hC]; exact List.mem_cons_self
  obtain ⟨c, hcC, hce⟩ := List.mem_map.1 hmem
  obtain ⟨rfl, rfl⟩ := Prod.mk.inj hce
  have hcL := (hCL c hcC).1
  have hno : ¬ (c.base * pageSize = 0 ∨ c.order > maxOrder ∨ n + 1 = 0) := by
    have := hI.small c hcL
    have : c.base * pageSize ≠ 0 := Nat.mul_ne_zero (hI.nonzero c hcL) (by decide)
    omega
  have hloop := pmmFreeLoopOrders_iff (hI.inv.of_lock true)
    (fun c hc => ⟨List.mem_toFinset.2 (hCL c hc).1, (hCL c hc).2⟩) hnd (hI.small c hcL)
  rw [htarget] at hloop
  rw [pmmFreePagesOrders, if_neg hno, spinlock, hI.unlocked]
  exact hloop

theorem ReachedWithin.inv (h : BootState mb s₀) (hbase : 0 < s₀.memoryBase) (hr : ReachedWithin mb s₀ σ) :
    ∃ F L, PmmInv (BootState.frames mb s₀) σ F L :=
  hr.invariant (P := fun σ => ∃ F L, PmmInv (BootState.frames mb s₀) σ F L)
    (fun _ hσ => ⟨_, _, h.pmmInv hσ⟩)
    fun _ _ _ _ ⟨_, _, hI⟩ hstep => hI.multiStep (zero_notMem_frames hbase) hstep.2

/-- **When a free stays inside `free_list`**: when for each block there is an order up to
`MAX_ORDER` at which the buddy is not free. -/
theorem pmm_merges_within (h : BootState mb s₀) (hbase : 0 < s₀.memoryBase)
    (hr : ReachedWithin mb s₀ σ) {addr order count : ℕ}
    (hout : (blocksFrom addr order count).Subperm σ.outs) :
    (∀ k ∈ pmmFreePagesOrders addr order count σ.alloc, k ≤ maxOrder) ↔
      StaysWithin σ.alloc (.free addr order count) := by
  obtain ⟨F, L, hI⟩ := ReachedWithin.inv h hbase hr
  exact hI.freeOrders_iff hout

theorem pmm_merges_within_twoPage : ∃ σ : PmmSystem, σ.outs = [(0x101000, 0)] ∧
    ((∀ k ∈ pmmFreePagesOrders 0x101000 0 1 σ.alloc, k ≤ maxOrder) ↔
      StaysWithin σ.alloc (.free 0x101000 0 1)) := by
  have hrun : ((PmmMultiOp.alloc 0 1).run
      ⟨pmmCreateFreeList twoPageMap twoPageStart, []⟩).map PmmSystem.outs = some [(0x101000, 0)] := by decide
  obtain ⟨σ, hσ, houts⟩ := Option.map_eq_some_iff.1 hrun
  refine ⟨σ, houts, pmm_merges_within bootState_twoPage (by decide)
    (.step (.alloc 0 1) (.init rfl) ⟨trivial, hσ⟩) ?_⟩
  rw [houts]
  exact List.Subperm.refl _

/-! ### A run that climbs past the array -/

section Climb

variable {A : Finset ℕ} {F : Finset Block} {L : List Block}

/-- The blocks on the lists are determined by the state. -/
theorem BuddyInv.free_unique {s : BuddyAllocator} {F' O O' H H' : Finset Block}
    (hI : BuddyInv A s F O H) (hI' : BuddyInv A s F' O' H') : F = F' := by
  have hsub : ∀ {F F' O O' H H' : Finset Block}, BuddyInv A s F O H → BuddyInv A s F' O' H' → F ⊆ F' := by
    intro F F' O O' H H' hI hI' b hb
    obtain ⟨c, hc, hck, hcb⟩ := hI'.linkedAt_iff.1 (hI.linkedAt_iff.2 ⟨b, hb, rfl, rfl⟩)
    have hcb : c = b := Block.ext (Nat.eq_of_mul_eq_mul_right (by decide) hcb) hck
    exact hcb ▸ hc
  exact Finset.Subset.antisymm (hsub hI hI') (hsub hI' hI)

/-- A free of one block is the same call in both kinds of runs. -/
theorem free_one (addr order : ℕ) (σ : PmmSystem) :
    (PmmMultiOp.free addr order 1).run σ = (PmmOp.free addr order).run σ := by
  simp only [PmmMultiOp.run, PmmOp.run, blocksFrom, pmmFreeTargets, List.map_cons, List.map_nil,
    List.singleton_subperm_iff, List.diff_cons, List.diff_nil]

/-- Taking a page leaves one less on the lists. -/
theorem PmmCover.take_page (hC : PmmCover A σ F L) (h0 : 0 ∉ A) (hne : F.Nonempty)
    (hpages : ∀ b ∈ F, b.order = 0) :
    ∃ σ' b, b ∈ F ∧ pmmMultiStep σ (.alloc 0 1) σ' ∧ PmmCover A σ' (F.erase b) (b :: L) := by
  obtain ⟨B, C, hT, hfull, -⟩ := hC.takes h0 (Nat.zero_le maxOrder) one_ne_zero
  have hlen : B.length = 1 := by
    rw [hT.length_eq_iff]
    obtain ⟨b, hb⟩ := hne
    exact Finset.card_pos.2 ⟨b, Finset.mem_filter.2 ⟨hb, Nat.zero_le _, by rw [hpages b hb]; omega⟩⟩
  obtain ⟨start, hstart, -, hrun, hI'⟩ := hfull hlen
  obtain ⟨b, rfl⟩ := List.length_eq_one_iff.1 hlen
  obtain ⟨c, rfl⟩ := List.length_eq_one_iff.1 (hT.length.trans hlen)
  have hbF : b ∈ F := (hT.taken b List.mem_cons_self).1
  obtain rfl : c = b := by
    refine Block.ext (List.cons.inj hT.bases).1 ?_
    rw [hT.orders c List.mem_cons_self, hpages b hbF]
  refine ⟨⟨spinlockUnlock (pmmTake 0 1 { σ.alloc with lock := true }).2, [c].map blockKey ++ σ.outs⟩, c,
    hbF, ?_, ?_, fun p hp => ?_, fun b hb => hC.bounded b (Finset.mem_of_mem_erase hb)⟩
  · rw [pmmMultiStep, PmmMultiOp.run, hrun, Option.map_some, if_neg hstart, hT.outs_eq]
  · have herase : F \ [c].toFinset = F.erase c := by
      rw [List.toFinset_cons, List.toFinset_nil, insert_empty_eq, Finset.sdiff_singleton_eq_erase]
    rw [← herase]
    exact hI'
  · obtain ⟨b, hb, hpb⟩ := hC.covers p hp
    refine ⟨b, ?_, hpb⟩
    simp only [List.toFinset_cons, Finset.mem_union, Finset.mem_erase, Finset.mem_insert] at hb ⊢
    tauto

/-- Giving a block back, where that does not climb past the array. -/
theorem PmmCover.give_back {h : Block} (hC : PmmCover A σ F (h :: L)) (h0 : 0 ∉ A) (hm : Merged F)
    (hwithin : ¬ MergesPast σ.alloc (maxOrder + 1 - h.order) (h.base * pageSize) h.order) :
    ∃ σ' F', pmmMultiStep σ (.free (h.base * pageSize) h.order 1) σ' ∧ PmmCover A σ' F' L ∧ Merged F' := by
  obtain ⟨σ', F', hrun, hI', -, -, hmerged⟩ := hC.free (List.mem_cons_self (a := h))
  have hkeep : KeepsPages σ.alloc (.free (h.base * pageSize) h.order) := hwithin
  obtain ⟨F₁, L₁, hC₁⟩ := hC.step h0 hkeep hrun
  obtain rfl : F₁ = F' := hC₁.inv.free_unique hI'.inv
  rw [List.erase_cons_head] at hI'
  obtain rfl : L₁ = L := by
    have hmap := hC₁.outs.symm.trans hI'.outs
    exact List.map_injective_iff.2 blockKey_injective hmap
  refine ⟨σ', F₁, ?_, hC₁, hmerged hm⟩
  rw [pmmMultiStep, free_one]
  exact hrun

/-- **All pages can be taken one by one.** -/
theorem take_all (h0 : 0 ∉ A) (hr : ReachedWithin mb s₀ σ) (hC : PmmCover A σ F L)
    (hpages : ∀ b ∈ F, b.order = 0) : ∃ σ' L', ReachedWithin mb s₀ σ' ∧ PmmCover A σ' ∅ L' := by
  induction hn : F.card generalizing σ F L with
  | zero =>
    rw [Finset.card_eq_zero.1 hn] at hC
    exact ⟨σ, L, hr, hC⟩
  | succ n ih =>
    have hne : F.Nonempty := Finset.card_pos.1 (by omega)
    obtain ⟨σ', b, hb, hstep, hC'⟩ := hC.take_page h0 hne hpages
    refine ih (hr.step (.alloc 0 1) ⟨trivial, hstep⟩) hC'
      (fun c hc => hpages c (Finset.mem_of_mem_erase hc)) ?_
    rw [Finset.card_erase_of_mem hb, hn]
    rfl

/-- **All blocks can be given back**, unless a free climbs past the array. -/
theorem give_all (h0 : 0 ∉ A) (hr : ReachedWithin mb s₀ σ) (hC : PmmCover A σ F L) (hm : Merged F)
    (hwithin : ∀ σ, ReachedWithin mb s₀ σ → ∀ addr order, (addr, order) ∈ σ.outs →
      StaysWithin σ.alloc (.free addr order 1)) :
    ∃ σ' F', ReachedWithin mb s₀ σ' ∧ PmmCover A σ' F' [] ∧ Merged F' := by
  induction L generalizing σ F with
  | nil => exact ⟨σ, F, hr, hC, hm⟩
  | cons h L ih =>
    have hmem : (h.base * pageSize, h.order) ∈ σ.outs := by
      rw [hC.outs]
      exact List.mem_cons_self
    have hstays := hwithin σ hr _ _ hmem
    have hnot : ¬ MergesPast σ.alloc (maxOrder + 1 - h.order) (h.base * pageSize) h.order := fun hpast =>
      hstays.1 (MergesPast.congr (s := { σ.alloc with lock := true }) (t := σ.alloc) ⟨rfl, rfl, rfl, rfl⟩
        (fun _ => ⟨rfl, rfl⟩) hpast)
    obtain ⟨σ', F', hstep, hC', hm'⟩ := hC.give_back h0 hm hnot
    exact ih (hr.step _ ⟨hstays, hstep⟩) hC' hm'

end Climb

/-- A memory map with one usable region, of `2 ^ (MAX_ORDER + 1)` pages at 8 MiB. -/
def eightMiBMap : MultibootInfo where
  self := 0x9000
  flags := 0x40
  modsCount := 0
  mods := fun _ => ⟨0, 0⟩
  mmapLength := 24
  mmapAddr := 0x9100
  mmap := [⟨20, 0x800000, 0x800000, 1⟩]

/-- The allocator `pmm_create_free_list` starts from on `eightMiBMap`, when the kernel ends at
16 MiB and the memory behind it is clear. -/
def eightMiBStart : BuddyAllocator :=
  { buddyZero with
    pageInfoAddr := 0x1000000
    totalPages := 2048
    memoryStart := 0x1008000
    memoryEnd := 0x1000000
    memoryBase := 0x800000 }

theorem bootState_eightMiB : BootState eightMiBMap eightMiBStart :=
  ⟨fun _ => rfl, rfl, ⟨0x800, rfl⟩, List.pairwise_singleton _ _, fun _ _ _ => rfl⟩

/-- The managed frames are a block of order `MAX_ORDER + 1`. -/
theorem mem_frames_eightMiB {p : ℕ} :
    p ∈ BootState.frames eightMiBMap eightMiBStart ↔ p / 2 ^ (maxOrder + 1) = 1 := by
  rw [BootState.mem_frames, mem_bootAdds]
  constructor
  · rintro ⟨-, ⟨-, hskip, -⟩, -, -⟩
    simp only [pmmSkipAddr, eightMiBStart, pageSize] at hskip
    simp only [maxOrder]
    omega
  · intro hp
    simp only [maxOrder] at hp
    have hmanaged : Managed eightMiBStart (p * pageSize) := by
      simp only [Managed, pmmAddrInPageinfo, pageInfoSlot, pmmSkipAddr, eightMiBStart, pmmAlign, alignUp,
        maskLow, u32, sizeofPage, pageSize]
      omega
    have hregion : pmmRegionStart ⟨20, 0x800000, 0x800000, 1⟩ = 0x800000 ∧
        pmmRegionEnd ⟨20, 0x800000, 0x800000, 1⟩ = 0x1000000 := by decide
    refine ⟨by decide, hmanaged, Nat.dvd_mul_left .., ⟨20, 0x800000, 0x800000, 1⟩, List.mem_cons_self,
      by decide, ?_, ?_⟩
    · rw [hregion.1]
      simp only [pageSize]
      omega
    · rw [hregion.2]
      simp only [pageSize]
      omega

/-- **A merge climbs past the array**: after all of `2 ^ (MAX_ORDER + 1)` aligned pages were taken,
one of the frees that give them back uses `free_list[k]` with `k > MAX_ORDER`. -/
theorem pmm_merges_past : BootState eightMiBMap eightMiBStart ∧ 0 < eightMiBStart.memoryBase ∧
    ∃ σ, ReachedWithin eightMiBMap eightMiBStart σ ∧ ∃ addr order, (addr, order) ∈ σ.outs ∧
      ∃ k ∈ pmmFreePagesOrders addr order 1 σ.alloc, maxOrder < k := by
  have h := bootState_eightMiB
  have hbase : 0 < eightMiBStart.memoryBase := by decide
  have h0 : 0 ∉ BootState.frames eightMiBMap eightMiBStart := zero_notMem_frames hbase
  refine ⟨h, hbase, ?_⟩
  by_contra hno
  have hwithin : ∀ σ, ReachedWithin eightMiBMap eightMiBStart σ → ∀ addr order, (addr, order) ∈ σ.outs →
      StaysWithin σ.alloc (.free addr order 1) := fun σ hr addr order hmem => by
    obtain ⟨F, L, hI⟩ := ReachedWithin.inv h hbase hr
    have hout : (blocksFrom addr order 1).Subperm σ.outs := List.singleton_subperm_iff.2 hmem
    refine (hI.freeOrders_iff hout).1 fun k hk => ?_
    by_contra hgt
    exact hno ⟨σ, hr, addr, order, hmem, k, hk, Nat.lt_of_not_le hgt⟩
  -- all pages are taken, all are given back, and what is on the lists cannot be merged further
  obtain ⟨σ₁, L, hr₁, hC₁⟩ := take_all h0 (.init rfl) (h.pmmCover rfl) fun b hb => by
    obtain ⟨p, -, rfl⟩ := Finset.mem_image.1 hb
    rfl
  obtain ⟨σ₂, F, hr₂, hC₂, hm⟩ := give_all h0 hr₁ hC₁ (fun b hb => absurd hb (Finset.notMem_empty b)) hwithin
  have hcov : ∀ p ∈ BootState.frames eightMiBMap eightMiBStart, ∃ b ∈ F, p ∈ b.pages := fun p hp => by
    obtain ⟨b, hb, hpb⟩ := hC₂.covers p hp
    exact ⟨b, by simpa using hb, hpb⟩
  have htile : Tiling (BootState.frames eightMiBMap eightMiBStart) F :=
    hC₂.inv.tiling.mono Finset.subset_union_left
  refine htile.not_merged hcov ?_ (fun b hb => ?_) hm
  · obtain ⟨b, hb, -⟩ := hcov (2 ^ (maxOrder + 1)) (mem_frames_eightMiB.2 (by decide))
    exact ⟨b, hb⟩
  · -- the buddy of a block that is not larger than `MAX_ORDER` lies in the same window
    have hwindow := mem_frames_eightMiB.1 (htile.subset b hb b.base_mem_pages)
    have hlt : 2 ^ b.order / 2 ^ (maxOrder + 1) = 0 :=
      Nat.div_eq_of_lt (Nat.pow_lt_pow_right (by decide) (Nat.lt_succ_of_le (hC₂.bounded b hb)))
    rw [mem_frames_eightMiB, Block.base_buddy, Nat.xor_div_two_pow, hwindow, hlt]
    rfl

end Flopperating
