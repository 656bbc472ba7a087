/-
# Runs of single-block allocations and frees

`pmm_alloc_pages(order, 1)` and `pmm_free_pages(addr, order, 1)` in any order
and any number, from the state boot leaves, with a record of the blocks that
were returned and not freed yet.  A free names such a block, with its order.

`pmm_safe` is the safety of the buddy system: nothing overlaps.  The other half
of what a buddy system promises, that no page is lost, does not hold of this
one: `pmm_alloc_block` writes the requested order into the record before it
passes that same field to `pmm_determine_split` as the order to split from, so
a larger block is handed out whole and its tail is in nobody's hands
(`pmm_loses_pages`).  Pages are conserved as long as every allocation finds a
block of its own order, or none at all, and no free merges past `MAX_ORDER`
(`pmm_conserves_pages`).
-/

import Flopperating.Data.Transition
import Flopperating.Mem.PmmBootState
import Mathlib.Order.CompletePartialOrder

namespace Flopperating

open LinkedList DyadicBlocks Transition

/-- The allocator and the blocks its callers hold, as address and order. -/
structure PmmSystem where
  alloc : BuddyAllocator
  outs : List (ℕ × ℕ)

/-- A call of the allocator. -/
inductive PmmOp
  | alloc (order : ℕ)
  | free (addr order : ℕ)

/-- One call: `pmm_alloc_pages(order, 1)`, or `pmm_free_pages(addr, order, 1)` of
a block that is outstanding with that order. -/
def PmmOp.run : PmmOp → PmmSystem → Option PmmSystem
  | .alloc order, σ => (pmmAllocPages order 1 σ.alloc).map fun r =>
      ⟨r.2, if r.1 = 0 then σ.outs else (r.1, order) :: σ.outs⟩
  | .free addr order, σ =>
    if (addr, order) ∈ σ.outs then
      (pmmFreePages addr order 1 σ.alloc).map fun s => ⟨s, σ.outs.erase (addr, order)⟩
    else none

/-- The step relation of the calls. -/
def pmmStep (σ : PmmSystem) (op : PmmOp) (σ' : PmmSystem) : Prop := op.run σ = some σ'

/-- The state boot leaves, with nothing handed out. -/
def pmmBooted (mb : MultibootInfo) (s₀ : BuddyAllocator) (σ : PmmSystem) : Prop :=
  σ = ⟨pmmCreateFreeList mb s₀, []⟩

/-- The addresses of the `2 ^ order` pages at `addr`. -/
def blockRange (addr order : ℕ) : Set ℕ := Set.Ico addr (addr + 2 ^ order * pageSize)

/-- The record `i` is linked on `free_list[k]`. -/
def OnFreeList (s : BuddyAllocator) (k i : ℕ) : Prop := Linked s.next (s.freeList k) i

/-- The addresses of the block of order `k` with record `i`. -/
def linkedRange (s : BuddyAllocator) (k i : ℕ) : Set ℕ := blockRange (s.pageInfo i).address k

/-! ### Blocks of frames and ranges of addresses -/

/-- Address and order of a block of page frames. -/
def blockKey (b : Block) : ℕ × ℕ := (b.base * pageSize, b.order)

theorem blockKey_injective : Function.Injective blockKey := fun b c h => by
  obtain ⟨h₁, h₂⟩ := Prod.mk.inj h
  exact Block.ext (Nat.eq_of_mul_eq_mul_right (by decide) h₁) h₂

theorem mem_blockRange_blockKey {b : Block} {x : ℕ} :
    x ∈ blockRange (blockKey b).1 (blockKey b).2 ↔ x / pageSize ∈ b.pages := by
  rw [blockRange, Set.mem_Ico, Block.mem_pages]
  simp only [blockKey, pageSize]
  omega

theorem disjoint_blockRange {b c : Block} (h : Disjoint b.pages c.pages) :
    Disjoint (blockRange (blockKey b).1 (blockKey b).2)
      (blockRange (blockKey c).1 (blockKey c).2) := by
  rw [Set.disjoint_left]
  intro x hb hc
  exact Finset.disjoint_left.1 h (mem_blockRange_blockKey.1 hb) (mem_blockRange_blockKey.1 hc)

/-! ### The invariant of a run -/

/-- The blocks held by callers are `L`, and the allocator satisfies its
invariant with them. -/
structure PmmInv (A : Finset ℕ) (σ : PmmSystem) (F : Finset Block) (L : List Block) : Prop where
  outs : σ.outs = L.map blockKey
  nodup : L.Nodup
  unlocked : σ.alloc.lock = false
  nonzero : ∀ b ∈ L, b.base ≠ 0
  small : ∀ b ∈ L, b.order ≤ maxOrder
  inv : BuddyInv A σ.alloc F L.toFinset (F ∪ L.toFinset)

section Calls

variable {A : Finset ℕ} {s : BuddyAllocator} {F O : Finset Block} {h : Block}

/-- With the lock free, `pmm_alloc_pages(order, 1)` is one `pmm_alloc_block`. -/
theorem pmmAllocPages_one {s : BuddyAllocator} (hlock : s.lock = false) {order : ℕ}
    (ho : order ≤ maxOrder) :
    pmmAllocPages order 1 s = some ((pmmAllocBlock order { s with lock := true }).1,
      spinlockUnlock (pmmAllocBlock order { s with lock := true }).2) := by
  have hno : ¬ (order > maxOrder ∨ 1 = 0) := by omega
  simp only [pmmAllocPages, if_neg hno, spinlock, hlock, Bool.false_eq_true, if_false,
    Option.bind_eq_bind, Option.bind_some, pmmAllocLoop]
  by_cases hpg : (pmmAllocBlock order { s with lock := true }).1 = 0
  · simp [hpg]
  · simp [hpg]

/-- With the lock free, `pmm_free_pages(addr, order, 1)` is one `pmm_free_block`. -/
theorem pmmFreePages_one {s : BuddyAllocator} (hlock : s.lock = false) {addr order : ℕ}
    (ha : addr ≠ 0) (ho : order ≤ maxOrder) :
    pmmFreePages addr order 1 s =
      (pmmFreeBlock order { s with lock := true } addr).map spinlockUnlock := by
  have hno : ¬ (addr = 0 ∨ order > maxOrder ∨ 1 = 0) := by omega
  simp only [pmmFreePages, if_neg hno, spinlock, hlock, Bool.false_eq_true, if_false,
    Option.bind_eq_bind, Option.bind_some, pmmFreeTargets, List.foldlM_cons, List.foldlM_nil,
    Option.pure_def]
  cases pmmFreeBlock order { s with lock := true } addr <;> rfl

/-- **One allocation** returns; it takes a block of `F` and hands out its
initial part, or fails because the lists from `order` on are empty, or loses a
block at address `0`. -/
theorem PmmInv.alloc {σ : PmmSystem} {L : List Block} (hI : PmmInv A σ F L) (order : ℕ) :
    ∃ σ' F' L', (PmmOp.alloc order).run σ = some σ' ∧ PmmInv A σ' F' L' ∧
      ((F' = F ∧ L' = L ∧ (order ≤ maxOrder → ∀ b ∈ F, order ≤ b.order → maxOrder < b.order)) ∨
        ∃ b ∈ F, ∃ hb : order ≤ b.order, F' = F.erase b ∧ b.order ≤ maxOrder ∧
          (∀ m, order ≤ m → m < b.order → σ.alloc.freeList m = none) ∧
          σ.alloc.freeList b.order ≠ none ∧
          (b.base = 0 ∧ L' = L ∨ b.base ≠ 0 ∧ L' = b.shrink order hb :: L)) := by
  by_cases ho : order ≤ maxOrder
  swap
  · refine ⟨σ, F, L, ?_, hI, .inl ⟨rfl, rfl, fun h => absurd h ho⟩⟩
    simp [PmmOp.run, pmmAllocPages, lt_of_not_ge ho]
  have hrun := pmmAllocPages_one hI.unlocked ho
  rcases pmmAllocBlock_spec (hI.inv.of_lock true) ho with
    ⟨hnone, hblk⟩ | ⟨b, hbF, hb, t, hbm, hlow, hhead, hblk, -, -, -, -, hI'⟩
  · refine ⟨σ, F, L, ?_, hI, .inl ⟨rfl, rfl, fun _ b hbF hb => ?_⟩⟩
    · rw [PmmOp.run, hrun, hblk]
      simp [spinlockUnlock, ← hI.unlocked]
    · -- a linked block is on the list of its order
      by_contra hle
      obtain ⟨l, hc, hl⟩ := hI.inv.lists b.order
      have hc' := hc
      rw [show σ.alloc.freeList b.order = none from hnone b.order hb (by omega)] at hc'
      have hbl := (hI.inv.index_mem_iff hl (hI.inv.mem_of_free hbF)).2 ⟨hbF, rfl⟩
      exact not_linked_none (hc'.linked hbl)
  · have hbH : b ∈ F ∪ L.toFinset := Finset.mem_union_left _ hbF
    have hI₂ := hI'.of_lock false
    have hnotin : b.shrink order hb ∉ L := fun hm => by
      have hm' : b.shrink order hb ∈ F ∪ L.toFinset :=
        Finset.mem_union_right _ (List.mem_toFinset.2 hm)
      have hbe : b.shrink order hb = b := hI.inv.eq_of_base_eq hm' hbH rfl
      rw [hbe] at hm
      exact Finset.disjoint_left.1 hI.inv.disjoint_free_out hbF (List.mem_toFinset.2 hm)
    by_cases hz : b.base = 0
    · refine ⟨⟨spinlockUnlock t, σ.outs⟩, F.erase b, L, ?_, ?_, .inr ⟨b, hbF, hb, rfl, hbm,
        hlow, by rw [show σ.alloc.freeList b.order = _ from hhead]; simp, .inl ⟨hz, rfl⟩⟩⟩
      · rw [PmmOp.run, hrun, hblk]
        simp [hz]
      · refine ⟨hI.outs, hI.nodup, rfl, hI.nonzero, hI.small, hI₂.drop rfl
          (Finset.subset_insert _ _) ?_ subset_rfl⟩
        exact Finset.union_subset_union_right (Finset.subset_insert _ _)
    · refine ⟨⟨spinlockUnlock t, (b.base * pageSize, order) :: σ.outs⟩, F.erase b,
        b.shrink order hb :: L, ?_, ?_, .inr ⟨b, hbF, hb, rfl, hbm, hlow, by
          rw [show σ.alloc.freeList b.order = _ from hhead]; simp, .inr ⟨hz, rfl⟩⟩⟩
      · rw [PmmOp.run, hrun, hblk]
        simp [hz]
      · refine ⟨by simp [hI.outs, blockKey, Block.shrink], List.nodup_cons.2 ⟨hnotin, hI.nodup⟩,
          rfl, ?_, ?_, by rw [List.toFinset_cons]; exact hI₂⟩
        · intro c hc
          rcases List.mem_cons.1 hc with rfl | hc
          · exact hz
          · exact hI.nonzero c hc
        · intro c hc
          rcases List.mem_cons.1 hc with rfl | hc
          · exact ho
          · exact hI.small c hc

/-- **One free** of an outstanding block returns and gives its frames back. -/
theorem PmmInv.free {σ : PmmSystem} {L : List Block} (hI : PmmInv A σ F L) (hh : h ∈ L) :
    ∃ σ' F', (PmmOp.free (blockKey h).1 (blockKey h).2).run σ = some σ' ∧
      PmmInv A σ' F' (L.erase h) ∧ (∀ b ∈ insert h F, ∃ c ∈ F', b.pages ⊆ c.pages) ∧
      (¬ MergesPast σ.alloc (maxOrder + 1 - h.order) (h.base * pageSize) h.order →
        ∀ b ∈ F', b ∈ F ∨ b.order ≤ maxOrder) ∧ (Merged F → Merged F') := by
  have hO : h ∈ L.toFinset := List.mem_toFinset.2 hh
  have hL : (L.erase h).toFinset = L.toFinset.erase h := by
    ext b
    simp [hI.nodup.mem_erase_iff]
  obtain ⟨t, F', hrun, -, -, hI', hcov, hpast, hmerged⟩ := pmmFreeBlock_spec (hI.inv.of_lock true) hO
  have hmem : blockKey h ∈ σ.outs := hI.outs ▸ List.mem_map_of_mem hh
  refine ⟨⟨spinlockUnlock t, σ.outs.erase (blockKey h)⟩, F', ?_, ?_, hcov, fun hm => ?_, hmerged⟩
  · have hne : h.base * pageSize ≠ 0 := Nat.mul_ne_zero (hI.nonzero h hh) (by decide)
    have hfree := pmmFreePages_one hI.unlocked hne (hI.small h hh)
    rw [hrun] at hfree
    rw [PmmOp.run, if_pos hmem, show pmmFreePages (blockKey h).1 (blockKey h).2 1 σ.alloc = _
      from hfree]
    rfl
  · refine ⟨?_, hI.nodup.erase h, rfl, fun b hb => hI.nonzero b (List.mem_of_mem_erase hb),
      fun b hb => hI.small b (List.mem_of_mem_erase hb), hL ▸ hI'.of_lock false⟩
    rw [hI.outs, List.map_erase blockKey_injective]
  · refine hpast (fun hm' => hm ?_) (hI.small h hh)
    exact MergesPast.congr (s := σ.alloc) (t := { σ.alloc with lock := true })
      ⟨rfl, rfl, rfl, rfl⟩ (fun i => ⟨rfl, rfl⟩) hm'

/-- A call that returns is one of the two above. -/
theorem PmmInv.step {σ σ' : PmmSystem} {L : List Block} {op : PmmOp} (hI : PmmInv A σ F L)
    (hstep : pmmStep σ op σ') : ∃ F' L', PmmInv A σ' F' L' := by
  cases op with
  | alloc order =>
    obtain ⟨τ, F', L', hrun, hI', -⟩ := hI.alloc order
    rw [pmmStep, hrun, Option.some.injEq] at hstep
    exact ⟨F', L', hstep ▸ hI'⟩
  | free addr order =>
    by_cases hm : (addr, order) ∈ σ.outs
    · rw [hI.outs, List.mem_map] at hm
      obtain ⟨b, hb, he⟩ := hm
      obtain ⟨τ, F', hrun, hI', -⟩ := hI.free hb
      rw [he, ← pmmStep.eq_def] at hrun
      obtain rfl : τ = σ' := Option.some.inj (hrun.symm.trans hstep)
      exact ⟨F', _, hI'⟩
    · simp [pmmStep, PmmOp.run, hm] at hstep

end Calls

/-! ### Safety -/

/-- What the callers of the allocator rely on: the blocks they hold and the
blocks on the free lists are apart from each other, in place, and made of pages
that were added at boot; and every further call returns. -/
structure PmmSafe (added : List ℕ) (σ : PmmSystem) : Prop where
  outstanding : σ.outs.Pairwise fun x y => Disjoint (blockRange x.1 x.2) (blockRange y.1 y.2)
  outstanding_linked : ∀ x ∈ σ.outs, ∀ k i, OnFreeList σ.alloc k i →
    Disjoint (blockRange x.1 x.2) (linkedRange σ.alloc k i)
  linked : ∀ k i k' i', OnFreeList σ.alloc k i → OnFreeList σ.alloc k' i' → (k, i) ≠ (k', i') →
    Disjoint (linkedRange σ.alloc k i) (linkedRange σ.alloc k' i')
  lists : ∀ k, ∃ l, Chain σ.alloc.next (σ.alloc.freeList k) l
  order : ∀ k i, OnFreeList σ.alloc k i → (σ.alloc.pageInfo i).order = k
  aligned : ∀ k i, OnFreeList σ.alloc k i → 2 ^ k * pageSize ∣ (σ.alloc.pageInfo i).address
  outstanding_added : ∀ x ∈ σ.outs, ∀ j < 2 ^ x.2, x.1 + j * pageSize ∈ added
  linked_added : ∀ k i, OnFreeList σ.alloc k i → ∀ j < 2 ^ k,
    (σ.alloc.pageInfo i).address + j * pageSize ∈ added
  returns : ∀ op : PmmOp, (∀ addr order, op = .free addr order → (addr, order) ∈ σ.outs) →
    (op.run σ).isSome

section Safety

variable {mb : MultibootInfo} {s₀ : BuddyAllocator} {σ : PmmSystem} {F : Finset Block}
  {L : List Block}

/-- A record on a free list is a block of `F`. -/
theorem PmmInv.linked_block {A : Finset ℕ} (hI : PmmInv A σ F L) {k i : ℕ}
    (h : OnFreeList σ.alloc k i) :
    ∃ b ∈ F, b.order = k ∧ b.base = σ.alloc.baseFrame + i ∧
      (σ.alloc.pageInfo i).address = b.base * pageSize := by
  obtain ⟨l, hc, hl⟩ := hI.inv.lists k
  obtain ⟨b, hbF, hbk, hbi⟩ := (hl i).1 (hc.linked_iff.1 h)
  refine ⟨b, hbF, hbk, hbi, ?_⟩
  have := hI.inv.address b.base (hI.inv.base_mem (hI.inv.mem_of_free hbF))
  rwa [BuddyAllocator.frame, hbi, Nat.add_sub_cancel_left, ← hbi] at this

/-- The pages of a block in hand were added. -/
theorem page_mem_bootAdds {b : Block} (h : b.pages ⊆ BootState.frames mb s₀) {j : ℕ}
    (hj : j < 2 ^ b.order) : b.base * pageSize + j * pageSize ∈ bootAdds mb s₀ := by
  rw [← Nat.add_mul]
  exact BootState.mem_frames.1 (h (Block.mem_pages.2 ⟨by omega, by omega⟩))

theorem PmmInv.safe (hI : PmmInv (BootState.frames mb s₀) σ F L) :
    PmmSafe (bootAdds mb s₀) σ := by
  have hlink : ∀ k i, OnFreeList σ.alloc k i → ∃ b ∈ F,
      linkedRange σ.alloc k i = blockRange (blockKey b).1 (blockKey b).2 ∧ b.order = k ∧
      b.base = σ.alloc.baseFrame + i ∧ (σ.alloc.pageInfo i).address = b.base * pageSize :=
    fun k i h => by
      obtain ⟨b, hbF, hbk, hbi, ha⟩ := hI.linked_block h
      exact ⟨b, hbF, by rw [linkedRange, ha, ← hbk]; rfl, hbk, hbi, ha⟩
  have htile := hI.inv.tiling
  have hL : ∀ b ∈ L, b ∈ F ∪ L.toFinset := fun b hb =>
    Finset.mem_union_right _ (List.mem_toFinset.2 hb)
  refine ⟨?_, ?_, ?_, fun k => ?_, ?_, ?_, ?_, ?_, ?_⟩
  · rw [hI.outs, List.pairwise_map]
    refine hI.nodup.imp_of_mem fun {b c} hb hc hne => ?_
    exact disjoint_blockRange (htile.disjoint b (hL b hb) c (hL c hc) hne)
  · intro x hx k i h
    rw [hI.outs, List.mem_map] at hx
    obtain ⟨c, hc, rfl⟩ := hx
    obtain ⟨b, hbF, hr, -⟩ := hlink k i h
    rw [hr]
    refine disjoint_blockRange (htile.disjoint c (hL c hc) b (Finset.mem_union_left _ hbF) ?_)
    rintro rfl
    exact Finset.disjoint_left.1 hI.inv.disjoint_free_out hbF (List.mem_toFinset.2 hc)
  · intro k i k' i' h h' hne
    obtain ⟨b, hbF, hr, hbk, hbi, -⟩ := hlink k i h
    obtain ⟨c, hcF, hr', hck, hci, -⟩ := hlink k' i' h'
    rw [hr, hr']
    refine disjoint_blockRange (htile.disjoint b (Finset.mem_union_left _ hbF) c
      (Finset.mem_union_left _ hcF) ?_)
    rintro rfl
    exact hne (Prod.ext (hbk.symm.trans hck) (show i = i' by omega))
  · obtain ⟨l, hc, -⟩ := hI.inv.lists k
    exact ⟨l, hc⟩
  · intro k i h
    obtain ⟨b, hbF, -, hbk, hbi, -⟩ := hlink k i h
    have := (hI.inv.linked b hbF).2
    rwa [BuddyAllocator.frame, hbi, Nat.add_sub_cancel_left, hbk] at this
  · intro k i h
    obtain ⟨b, -, -, hbk, -, ha⟩ := hlink k i h
    rw [ha, ← hbk]
    exact Nat.mul_dvd_mul_right b.aligned _
  · intro x hx j hj
    rw [hI.outs, List.mem_map] at hx
    obtain ⟨b, hb, rfl⟩ := hx
    exact page_mem_bootAdds (htile.subset b (hL b hb)) hj
  · intro k i h j hj
    obtain ⟨b, hbF, -, hbk, -, ha⟩ := hlink k i h
    rw [ha]
    exact page_mem_bootAdds (htile.subset b (Finset.mem_union_left _ hbF)) (hbk ▸ hj)
  · intro op hop
    cases op with
    | alloc order =>
      obtain ⟨σ', -, -, hrun, -⟩ := hI.alloc order
      rw [hrun]; rfl
    | free addr order =>
      have hx := hop addr order rfl
      rw [hI.outs, List.mem_map] at hx
      obtain ⟨b, hb, he⟩ := hx
      obtain ⟨σ', -, hrun, -⟩ := hI.free hb
      rw [he] at hrun
      rw [show (PmmOp.free addr order).run σ = _ from hrun]; rfl

/-- The invariant at the start of a run. -/
theorem BootState.pmmInv (h : BootState mb s₀) (hσ : pmmBooted mb s₀ σ) :
    PmmInv (BootState.frames mb s₀) σ ((BootState.frames mb s₀).image frameBlock) [] := by
  obtain rfl : σ = _ := hσ
  refine ⟨rfl, List.nodup_nil, ?_, by simp, by simp, h.inv⟩
  rw [pmmCreateFreeList_eq, addPages_lock, h.unlocked]

/-- **Safety of the buddy system.**  From the state boot leaves over disjoint
usable regions, whatever blocks are allocated and freed, in whatever order:
nothing that is handed out or linked overlaps. -/
theorem pmm_safe (h : BootState mb s₀) (hr : Reach (pmmBooted mb s₀) pmmStep σ) :
    PmmSafe (bootAdds mb s₀) σ := by
  have hinv : ∃ F L, PmmInv (BootState.frames mb s₀) σ F L :=
    hr.invariant (P := fun σ => ∃ F L, PmmInv (BootState.frames mb s₀) σ F L)
      (fun σ hσ => ⟨_, _, h.pmmInv hσ⟩) fun σ op σ' _ ⟨_, _, hI⟩ hstep => hI.step hstep
  obtain ⟨F, L, hI⟩ := hinv
  exact hI.safe

end Safety

/-- A memory map with a single usable region, of two pages at 1 MiB. -/
def twoPageMap : MultibootInfo where
  self := 0x9000
  flags := 0x40
  modsCount := 0
  mods := fun _ => ⟨0, 0⟩
  mmapLength := 24
  mmapAddr := 0x9100
  mmap := [⟨20, 0x100000, 0x2000, 1⟩]

/-- The allocator `pmm_create_free_list` starts from on `twoPageMap`, when the
kernel ends at 2 MiB and the memory behind it is clear. -/
def twoPageStart : BuddyAllocator :=
  { buddyZero with
    pageInfoAddr := 0x200000
    totalPages := 2
    memoryStart := 0x201000
    memoryEnd := 0x102000
    memoryBase := 0x100000 }

theorem bootState_twoPage : BootState twoPageMap twoPageStart :=
  ⟨fun _ => rfl, rfl, ⟨0x100, rfl⟩, List.pairwise_singleton _ _, fun _ _ _ => rfl⟩

/-- Take both pages, give them back, and take one. -/
def twoPageOps : List PmmOp :=
  [.alloc 0, .alloc 0, .free 0x101000 0, .free 0x100000 0, .alloc 0]

/-- What `twoPageOps` leaves: one page outstanding, nothing linked. -/
theorem twoPage_run : ∃ σ, Reach (pmmBooted twoPageMap twoPageStart) pmmStep σ ∧
    σ.outs = [(0x100000, 0)] ∧ ∀ k ≤ maxOrder, σ.alloc.freeList k = none := by
  have hrun : (twoPageOps.foldlM (fun σ (op : PmmOp) => op.run σ)
      (⟨pmmCreateFreeList twoPageMap twoPageStart, []⟩ : PmmSystem)).map
        (fun σ => (σ.outs, (List.range 11).map σ.alloc.freeList)) =
      some ([(0x100000, 0)], List.replicate 11 none) := by decide
  obtain ⟨σ, hσ, he⟩ := Option.map_eq_some_iff.1 hrun
  obtain ⟨houts, hlists⟩ := Prod.mk.inj he
  refine ⟨σ, Reach.of_foldlM (.init rfl) hσ, houts, fun k hk => ?_⟩
  have hmem : σ.alloc.freeList k ∈ List.replicate 11 none :=
    hlists ▸ List.mem_map_of_mem (List.mem_range.2 (Nat.lt_succ_of_le hk))
  exact List.eq_of_mem_replicate hmem

theorem pmm_safe_twoPage : ∃ σ, σ.outs = [(0x100000, 0)] ∧
    PmmSafe (bootAdds twoPageMap twoPageStart) σ := by
  obtain ⟨σ, hr, houts, -⟩ := twoPage_run
  exact ⟨σ, houts, pmm_safe bootState_twoPage hr⟩

/-! ### Conservation of pages -/

/-- `chain k` are the records on `free_list[k]`, for the orders that exist. -/
def FreeLists (s : BuddyAllocator) (chain : ℕ → List ℕ) : Prop :=
  ∀ k ≤ maxOrder, Chain s.next (s.freeList k) (chain k)

/-- No page is lost: linked and outstanding blocks add up to what was added, and
`pmm_alloc_page` fails only when every page is outstanding. -/
structure PagesConserved (added : List ℕ) (σ : PmmSystem) : Prop where
  sum : ∃ chain, FreeLists σ.alloc chain ∧
    ∑ k ∈ Finset.range (maxOrder + 1), (chain k).length * 2 ^ k +
      (σ.outs.map fun x => 2 ^ x.2).sum = added.length
  exhausted : ∀ s', pmmAllocPage σ.alloc = some (0, s') →
    ∀ a ∈ added, ∃ x ∈ σ.outs, a ∈ blockRange x.1 x.2

/-- The calls that lose nothing: an allocation that finds a block of its own
order, or no block at all, and a free that does not merge past `MAX_ORDER`. -/
def KeepsPages (s : BuddyAllocator) : PmmOp → Prop
  | .alloc order => s.freeList order = none →
      ∀ j, order ≤ j → j ≤ maxOrder → s.freeList j = none
  | .free addr order => ¬ MergesPast s (maxOrder + 1 - order) addr order

/-- The invariant of the runs that lose nothing: the blocks in hand cover every
added frame, and no list beyond `MAX_ORDER` is in use. -/
structure PmmCover (A : Finset ℕ) (σ : PmmSystem) (F : Finset Block) (L : List Block) : Prop
    extends PmmInv A σ F L where
  covers : ∀ p ∈ A, ∃ b ∈ F ∪ L.toFinset, p ∈ b.pages
  bounded : ∀ b ∈ F, b.order ≤ maxOrder

section Conservation

variable {A : Finset ℕ} {mb : MultibootInfo} {s₀ : BuddyAllocator} {σ σ' : PmmSystem}
  {F : Finset Block} {L : List Block}

/-- The blocks of one order, counted on their list. -/
theorem BuddyInv.length_list {s : BuddyAllocator} {O H : Finset Block} (hI : BuddyInv A s F O H)
    {k : ℕ} {l : List ℕ} (hc : Chain s.next (s.freeList k) l) :
    l.length = (F.filter fun b => b.order = k).card := by
  obtain ⟨l', hc', hl⟩ := hI.lists k
  obtain rfl := hc.unique hc'
  have himage : l.toFinset = (F.filter fun b => b.order = k).image fun b => b.base - s.baseFrame := by
    ext i
    rw [List.mem_toFinset, hl, Finset.mem_image]
    constructor
    · rintro ⟨b, hbF, hbk, hbi⟩
      exact ⟨b, Finset.mem_filter.2 ⟨hbF, hbk⟩, by omega⟩
    · rintro ⟨b, hb, rfl⟩
      obtain ⟨hbF, hbk⟩ := Finset.mem_filter.1 hb
      exact ⟨b, hbF, hbk, (hI.frame_spec (hI.base_mem (hI.mem_of_free hbF))).2.1⟩
  rw [← List.toFinset_card_of_nodup hc.nodup, himage, Finset.card_image_of_injOn]
  intro b hb c hc' he
  have hbF := hI.mem_of_free (Finset.mem_filter.1 hb).1
  have hcF := hI.mem_of_free (Finset.mem_filter.1 hc').1
  by_contra hne
  exact hI.index_ne hbF hcF hne he

/-- The linked pages, counted block by block and list by list. -/
theorem PmmCover.sum_free (hC : PmmCover A σ F L) {chain : ℕ → List ℕ}
    (hc : FreeLists σ.alloc chain) :
    ∑ k ∈ Finset.range (maxOrder + 1), (chain k).length * 2 ^ k = ∑ b ∈ F, 2 ^ b.order := by
  have hmaps : ∀ b ∈ F, b.order ∈ Finset.range (maxOrder + 1) := fun b hb =>
    Finset.mem_range.2 (Nat.lt_succ_of_le (hC.bounded b hb))
  rw [← Finset.sum_fiberwise_of_maps_to hmaps]
  refine Finset.sum_congr rfl fun k hk => ?_
  rw [hC.inv.length_list (hc k (Nat.le_of_lt_succ (Finset.mem_range.1 hk)))]
  exact (Finset.sum_const_nat fun b hb => by rw [(Finset.mem_filter.1 hb).2]).symm

/-- Covered pages add up. -/
theorem PmmCover.sum (hC : PmmCover A σ F L) {chain : ℕ → List ℕ} (hc : FreeLists σ.alloc chain) :
    ∑ k ∈ Finset.range (maxOrder + 1), (chain k).length * 2 ^ k +
      (σ.outs.map fun x => 2 ^ x.2).sum = A.card := by
  have houts : (σ.outs.map fun x => 2 ^ x.2).sum = ∑ b ∈ L.toFinset, 2 ^ b.order := by
    rw [hC.outs, List.map_map, ← List.sum_toFinset _ hC.nodup]
    rfl
  rw [hC.sum_free hc, houts, ← Finset.sum_union hC.inv.disjoint_free_out]
  exact hC.inv.tiling.sum_eq_card hC.covers

theorem PmmCover.exhausted (hC : PmmCover A σ F L) (h0 : 0 ∉ A) {s' : BuddyAllocator}
    (hnull : pmmAllocPage σ.alloc = some (0, s')) {p : ℕ} (hp : p ∈ A) :
    ∃ b ∈ L, p ∈ b.pages := by
  obtain ⟨τ, F', L', hrun, hI', hcase⟩ := hC.alloc 0
  have hτ : τ = ⟨s', σ.outs⟩ := by
    rw [PmmOp.run, show pmmAllocPages 0 1 σ.alloc = _ from hnull] at hrun
    exact (Option.some.inj hrun).symm
  have houts : L.length = L'.length := by
    have h₁ := congrArg List.length hC.outs
    have h₂ := congrArg List.length hI'.outs
    rw [List.length_map] at h₁ h₂
    rw [← h₁, ← h₂, hτ]
  obtain ⟨b, hb, hpb⟩ := hC.covers p hp
  rcases Finset.mem_union.1 hb with hbF | hbL
  · rcases hcase with ⟨-, -, hempty⟩ | ⟨c, hcF, hc, -, -, -, -, ⟨hz, -⟩ | ⟨-, rfl⟩⟩
    · have hgt := hempty (Nat.zero_le _) b hbF (Nat.zero_le _)
      have hle := hC.bounded b hbF
      omega
    · exact absurd (hz ▸ hC.inv.base_mem (hC.inv.mem_of_free hcF)) h0
    · exact absurd houts (by simp)
  · exact ⟨b, List.mem_toFinset.1 hbL, hpb⟩

/-- **One call that keeps the pages** keeps them covered. -/
theorem PmmCover.step {op : PmmOp} (hC : PmmCover A σ F L) (h0 : 0 ∉ A)
    (hkeep : KeepsPages σ.alloc op) (hstep : pmmStep σ op σ') :
    ∃ F' L', PmmCover A σ' F' L' := by
  cases op with
  | alloc order =>
    obtain ⟨τ, F', L', hrun, hI', hcase⟩ := hC.alloc order
    obtain rfl : τ = σ' := Option.some.inj (hrun.symm.trans hstep)
    refine ⟨F', L', hI', ?_, ?_⟩
    · rcases hcase with ⟨rfl, rfl, -⟩ | ⟨b, hbF, hb, rfl, hbm, hlow, hhead, hres⟩
      · exact hC.covers
      · -- the block taken has the order asked for
        have hord : order = b.order := by
          by_contra hne
          have hnone := hlow order le_rfl (by omega)
          exact hhead (hkeep hnone b.order hb hbm)
        rcases hres with ⟨hz, -⟩ | ⟨-, rfl⟩
        · exact absurd (hz ▸ hC.inv.base_mem (hC.inv.mem_of_free hbF)) h0
        · have hsame : b.shrink order hb = b := Block.ext rfl hord
          intro p hp
          obtain ⟨c, hc, hpc⟩ := hC.covers p hp
          refine ⟨c, ?_, hpc⟩
          rw [hsame, List.toFinset_cons, Finset.union_insert, Finset.mem_insert]
          rcases Finset.mem_union.1 hc with hc | hc
          · by_cases hcb : c = b
            · exact .inl hcb
            · exact .inr (Finset.mem_union_left _ (Finset.mem_erase.2 ⟨hcb, hc⟩))
          · exact .inr (Finset.mem_union_right _ hc)
    · rcases hcase with ⟨rfl, -⟩ | ⟨b, -, -, rfl, -⟩
      · exact hC.bounded
      · exact fun c hc => hC.bounded c (Finset.mem_of_mem_erase hc)
  | free addr order =>
    by_cases hm : (addr, order) ∈ σ.outs
    swap
    · simp [pmmStep, PmmOp.run, hm] at hstep
    rw [hC.outs, List.mem_map] at hm
    obtain ⟨h, hh, he⟩ := hm
    obtain ⟨rfl, rfl⟩ := Prod.mk.inj he
    obtain ⟨τ, F', hrun, hI', hcov, hpast, -⟩ := hC.free hh
    obtain rfl : τ = σ' := Option.some.inj (hrun.symm.trans hstep)
    refine ⟨F', _, hI', fun p hp => ?_, fun b hb => ?_⟩
    · obtain ⟨b, hb, hpb⟩ := hC.covers p hp
      have hback : ∀ c ∈ insert h F, p ∈ c.pages →
          ∃ d ∈ F' ∪ (L.erase h).toFinset, p ∈ d.pages := fun c hc hpc => by
        obtain ⟨d, hd, hsub⟩ := hcov c hc
        exact ⟨d, Finset.mem_union_left _ hd, hsub hpc⟩
      rcases Finset.mem_union.1 hb with hb | hb
      · exact hback b (Finset.mem_insert_of_mem hb) hpb
      · by_cases hbh : b = h
        · exact hback h (Finset.mem_insert_self _ _) (hbh ▸ hpb)
        · refine ⟨b, Finset.mem_union_right _ (List.mem_toFinset.2 ?_), hpb⟩
          exact (hC.nodup.mem_erase_iff).2 ⟨hbh, List.mem_toFinset.1 hb⟩
    · rcases hpast hkeep b hb with hb | hb
      · exact hC.bounded b hb
      · exact hb

/-- Every added frame is free on its own at the start of a run. -/
theorem BootState.pmmCover (h : BootState mb s₀) (hσ : pmmBooted mb s₀ σ) :
    PmmCover (BootState.frames mb s₀) σ ((BootState.frames mb s₀).image frameBlock) [] := by
  refine ⟨h.pmmInv hσ, fun p hp => ?_, fun b hb => ?_⟩
  · exact ⟨frameBlock p, Finset.mem_union_left _ (Finset.mem_image_of_mem _ hp),
      (frameBlock p).base_mem_pages⟩
  · obtain ⟨p, -, rfl⟩ := Finset.mem_image.1 hb
    exact Nat.zero_le _

/-- **When pages are conserved**: in every run from boot whose calls all keep the
pages. -/
theorem pmm_conserves_pages (h : BootState mb s₀) (hbase : 0 < s₀.memoryBase)
    (hr : Reach (pmmBooted mb s₀)
      (fun σ op σ' => KeepsPages σ.alloc op ∧ pmmStep σ op σ') σ) :
    PagesConserved (bootAdds mb s₀) σ := by
  have h0 : 0 ∉ BootState.frames mb s₀ := fun hm => by
    have := (mem_bootAdds.1 (BootState.mem_frames.1 hm)).2.1.2.1
    rw [pmmSkipAddr] at this
    omega
  obtain ⟨F, L, hC⟩ : ∃ F L, PmmCover (BootState.frames mb s₀) σ F L :=
    hr.invariant (P := fun σ => ∃ F L, PmmCover (BootState.frames mb s₀) σ F L)
      (fun σ hσ => ⟨_, _, h.pmmCover hσ⟩)
      fun σ op σ' _ hC hstep => by
        obtain ⟨F, L, hC⟩ := hC
        exact hC.step h0 hstep.1 hstep.2
  refine ⟨?_, fun s' hnull a ha => ?_⟩
  · choose chain hchain _ using hC.inv.lists
    exact ⟨chain, fun k _ => hchain k, (hC.sum fun k _ => hchain k).trans h.card_frames⟩
  · have hpage := Nat.div_mul_cancel (mem_bootAdds.1 ha).2.2.1
    obtain ⟨b, hb, hpb⟩ := hC.exhausted h0 hnull (BootState.mem_frames.2 (hpage.symm ▸ ha))
    exact ⟨blockKey b, hC.outs ▸ List.mem_map_of_mem hb, mem_blockRange_blockKey.2 hpb⟩

theorem pmm_conserves_pages_twoPage : ∃ σ, σ.outs = [(0x101000, 0)] ∧
    PagesConserved (bootAdds twoPageMap twoPageStart) σ := by
  have hrun : ((PmmOp.alloc 0).run
      ⟨pmmCreateFreeList twoPageMap twoPageStart, []⟩).map PmmSystem.outs =
      some [(0x101000, 0)] := by decide
  obtain ⟨σ, hσ, houts⟩ := Option.map_eq_some_iff.1 hrun
  refine ⟨σ, houts, pmm_conserves_pages bootState_twoPage (by decide)
    (.step (.alloc 0) (.init rfl) ⟨fun hnone => absurd hnone (by decide), hσ⟩)⟩

/-- **Pages are lost**: after both pages came back as one block of order `1`, an
allocation of one page takes the whole block, and the other page is neither
linked nor outstanding. -/
theorem pmm_loses_pages : BootState twoPageMap twoPageStart ∧ 0 < twoPageStart.memoryBase ∧
    ∃ σ, Reach (pmmBooted twoPageMap twoPageStart) pmmStep σ ∧
      ¬ PagesConserved (bootAdds twoPageMap twoPageStart) σ := by
  refine ⟨bootState_twoPage, by decide, ?_⟩
  obtain ⟨σ, hr, houts, hlists⟩ := twoPage_run
  refine ⟨σ, hr, fun hC => ?_⟩
  obtain ⟨chain, hchain, hsum⟩ := hC.sum
  have hnil : ∀ k ∈ Finset.range (maxOrder + 1), (chain k).length * 2 ^ k = 0 := fun k hk => by
    have hk' : k ≤ maxOrder := Nat.le_of_lt_succ (Finset.mem_range.1 hk)
    have hc := hchain k hk'
    rw [hlists k hk'] at hc
    rw [show chain k = [] from hc.unique rfl, List.length_nil, Nat.zero_mul]
  rw [Finset.sum_eq_zero hnil, houts] at hsum
  exact absurd hsum (by decide)

end Conservation

end Flopperating
