/-
# Runs of multi-block allocations and frees

`pmm_alloc_pages(order, count)` and `pmm_free_pages(addr, order, count)` in any
order, with a record of the blocks that are out.  A free names blocks that are
out with its order, each once.

Two promises of the interface are examined.  An allocation returns one address,
and its callers take it for the start of `count` adjacent blocks; but the blocks
come off the list one by one, wherever they lie, and the list is a stack
(`pmm_multi_inverse`).  And an allocation that runs out of memory gives back
what it took so far; but it does so with the lock held, through the public
function that takes that lock (`pmm_exhausted_iff`).
-/

import Flopperating.Mem.PmmMulti

namespace Flopperating

open LinkedList DyadicBlocks Transition

/-- A call of the allocator, for any number of blocks. -/
inductive PmmMultiOp
  | alloc (order count : ℕ)
  | free (addr order count : ℕ)

/-- The blocks `pmm_free_pages(addr, order, count)` gives back. -/
def blocksFrom (addr order count : ℕ) : List (ℕ × ℕ) :=
  (pmmFreeTargets order count addr).map fun a => (a, order)

/-- One call.  What an allocation took is out when it returns a block. -/
def PmmMultiOp.run : PmmMultiOp → PmmSystem → Option PmmSystem
  | .alloc order count, σ => (pmmAllocPages order count σ.alloc).map fun r =>
      ⟨r.2, if r.1 = 0 then σ.outs else
        ((pmmTake order count { σ.alloc with lock := true }).1.map fun a => (a, order)) ++ σ.outs⟩
  | .free addr order count, σ =>
    if (blocksFrom addr order count).Subperm σ.outs then
      (pmmFreePages addr order count σ.alloc).map fun s =>
        ⟨s, σ.outs.diff (blocksFrom addr order count)⟩
    else none

/-- The step relation of these calls. -/
def pmmMultiStep (σ : PmmSystem) (op : PmmMultiOp) (σ' : PmmSystem) : Prop := op.run σ = some σ'

/-- The block at `a` is linked on `free_list[k]`. -/
def LinkedAt (s : BuddyAllocator) (k a : ℕ) : Prop :=
  ∃ i, OnFreeList s k i ∧ (s.pageInfo i).address = a

/-- The blocks that left the free lists between `s` and `s'` are the `count`
blocks of this order from `start` on. -/
def TakesBlocks (s s' : BuddyAllocator) (start order count : ℕ) : Prop :=
  ∀ k a, (LinkedAt s k a ∧ ¬ LinkedAt s' k a) ↔ (a, k) ∈ blocksFrom start order count

/-- An allocation that succeeds takes the blocks its caller counts on, and
freeing them restores the pages on the lists. -/
def AllocInverse (s : BuddyAllocator) (order count : ℕ) : Prop :=
  ∀ start s', pmmAllocPages order count s = some (start, s') → start ≠ 0 →
    TakesBlocks s s' start order count ∧
      ∃ s'', pmmFreePages start order count s' = some s'' ∧ covered s'' = covered s

/-- The first `count` addresses on `free_list[order]`, in whatever order, are
those of adjacent blocks, the first one being the lowest. -/
def HeadsContiguous (s : BuddyAllocator) (order count : ℕ) : Prop :=
  ∃ l, Chain s.next (s.freeList order) l ∧ count ≤ l.length ∧
    ∀ a, a ∈ (l.take count).map (fun i => (s.pageInfo i).address) ↔
      a ∈ pmmFreeTargets order count
        (((l.take count).map fun i => (s.pageInfo i).address).headD 0)

/-- There are fewer than `count` blocks to take, or those to be taken are of
their own order and adjacent. -/
def TakesAdjacent (s : BuddyAllocator) (order count : ℕ) : Prop :=
  (∃ n < count, Available s order n) ∨ HeadsContiguous s order count

/-- A call that is a free, or an allocation that stays within its means. -/
def StaysAdjacent (s : BuddyAllocator) : PmmMultiOp → Prop
  | .alloc order count => order ≤ maxOrder → count ≠ 0 → TakesAdjacent s order count
  | .free _ _ _ => True

/-- An allocation fails as its callers expect: it returns, the lock is free, and
the lists cover the pages they covered. -/
def FailsClean (s : BuddyAllocator) (order count : ℕ) : Prop :=
  ∃ s', pmmAllocPages order count s = some (0, s') ∧ s'.lock = false ∧ covered s' = covered s

/-! ### Lists of blocks -/

theorem exists_map_eq {α β : Type*} {f : α → β} {l : List β} {L : List α}
    (h : ∀ x ∈ l, x ∈ L.map f) : ∃ C : List α, C.map f = l ∧ ∀ c ∈ C, c ∈ L := by
  induction l with
  | nil => exact ⟨[], rfl, by simp⟩
  | cons x l ih =>
    obtain ⟨hx, hl⟩ := List.forall_mem_cons.1 h
    obtain ⟨c, hc, rfl⟩ := List.mem_map.1 hx
    obtain ⟨C, rfl, hC⟩ := ih hl
    exact ⟨c :: C, rfl, List.forall_mem_cons.2 ⟨hc, hC⟩⟩

/-- Blocks are determined by their bases and orders. -/
theorem eq_of_map_base {B C : List Block} {order : ℕ} (hbase : C.map Block.base = B.map Block.base)
    (hC : ∀ c ∈ C, c.order = order) (hB : ∀ b ∈ B, b.order = order) : C = B := by
  induction C generalizing B with
  | nil => exact (List.map_eq_nil_iff.1 hbase.symm).symm
  | cons c C ih =>
    obtain ⟨b, B, rfl, hb, hbase⟩ := List.map_eq_cons_iff.1 hbase.symm
    obtain ⟨hc, hC⟩ := List.forall_mem_cons.1 hC
    obtain ⟨hb', hB⟩ := List.forall_mem_cons.1 hB
    rw [ih hbase.symm hC hB, Block.ext (hb.symm) (hc.trans hb'.symm)]

theorem length_pmmFreeTargets (order count cur : ℕ) :
    (pmmFreeTargets order count cur).length = count := by
  induction count generalizing cur with
  | zero => rfl
  | succ count ih => rw [pmmFreeTargets, List.length_cons, ih]

theorem mem_blocksFrom {start order count a k : ℕ} :
    (a, k) ∈ blocksFrom start order count ↔ k = order ∧ a ∈ pmmFreeTargets order count start := by
  simp only [blocksFrom, List.mem_map, Prod.mk.injEq]
  constructor
  · rintro ⟨b, hb, rfl, rfl⟩
    exact ⟨rfl, hb⟩
  · rintro ⟨rfl, ha⟩
    exact ⟨a, ha, rfl, rfl⟩

section States

variable {A : Finset ℕ} {s : BuddyAllocator} {F O : Finset Block}

/-! ### The blocks on the lists -/

/-- What is linked, in terms of the free blocks. -/
theorem BuddyInv.linkedAt_iff {H : Finset Block} (hI : BuddyInv A s F O H) {k a : ℕ} :
    LinkedAt s k a ↔ ∃ b ∈ F, b.order = k ∧ b.base * pageSize = a := by
  obtain ⟨l, hc, hl⟩ := hI.lists k
  constructor
  · rintro ⟨i, hi, rfl⟩
    obtain ⟨b, hbF, hbk, hbi⟩ := (hl i).1 (hc.linked_iff.1 hi)
    refine ⟨b, hbF, hbk, ?_⟩
    have haddr := hI.address b.base (hI.base_mem (hI.mem_of_free hbF))
    rw [BuddyAllocator.frame, hbi, Nat.add_sub_cancel_left] at haddr
    rw [haddr, hbi]
  · rintro ⟨b, hbF, hbk, rfl⟩
    have hbH := hI.mem_of_free hbF
    exact ⟨b.base - s.baseFrame, hc.linked ((hI.index_mem_iff hl hbH).2 ⟨hbF, hbk⟩),
      hI.address b.base (hI.base_mem hbH)⟩

/-- The addresses on a list. -/
theorem BuddyInv.address_of_mem {H : Finset Block} (hI : BuddyInv A s F O H) {k i : ℕ} {l : List ℕ}
    (hc : Chain s.next (s.freeList k) l) (hi : i ∈ l) :
    (s.pageInfo i).address = (s.baseFrame + i) * pageSize := by
  obtain ⟨l', hc', hl⟩ := hI.lists k
  obtain rfl := hc.unique hc'
  obtain ⟨b, hbF, -, hbi⟩ := (hl i).1 hi
  have haddr := hI.address b.base (hI.base_mem (hI.mem_of_free hbF))
  rwa [BuddyAllocator.frame, hbi, Nat.add_sub_cancel_left] at haddr

theorem mem_covered_iff {H : Finset Block} (hI : BuddyInv A s F O H) {x : ℕ} :
    x ∈ covered s ↔ ∃ b ∈ F, x / pageSize ∈ b.pages := by
  constructor
  · rintro ⟨k, i, hi, hx⟩
    obtain ⟨b, hbF, hbk, hba⟩ := hI.linkedAt_iff.1 ⟨i, hi, rfl⟩
    rw [linkedRange, ← hba, ← hbk] at hx
    exact ⟨b, hbF, mem_blockRange_blockKey.1 hx⟩
  · rintro ⟨b, hbF, hx⟩
    obtain ⟨i, hi, ha⟩ := hI.linkedAt_iff.2 ⟨b, hbF, rfl, rfl⟩
    refine ⟨b.order, i, hi, ?_⟩
    rw [linkedRange, ha]
    exact mem_blockRange_blockKey.2 hx

/-- The number of blocks that can be taken. -/
theorem BuddyInv.available_iff {H : Finset Block} (hI : BuddyInv A s F O H) {order n : ℕ} :
    Available s order n ↔ (F.filter fun b => order ≤ b.order ∧ b.order ≤ maxOrder).card = n := by
  have hcount : ∀ chain, FreeLists s chain → ∑ k ∈ Finset.Icc order maxOrder, (chain k).length =
      (F.filter fun b => order ≤ b.order ∧ b.order ≤ maxOrder).card := fun chain hchain => by
    have hmaps : ∀ b ∈ F.filter fun b => order ≤ b.order ∧ b.order ≤ maxOrder,
        b.order ∈ Finset.Icc order maxOrder := fun b hb =>
      Finset.mem_Icc.2 (Finset.mem_filter.1 hb).2
    rw [Finset.card_eq_sum_card_fiberwise hmaps]
    refine Finset.sum_congr rfl fun k hk => ?_
    rw [hI.length_list (hchain k (Finset.mem_Icc.1 hk).2), Finset.filter_filter]
    congr 1
    refine Finset.filter_congr fun b _ => ⟨?_, fun h => h.2⟩
    rintro rfl
    exact ⟨Finset.mem_Icc.1 hk, rfl⟩
  constructor
  · rintro ⟨chain, hchain, rfl⟩
    exact (hcount chain hchain).symm
  · rintro rfl
    choose chain hchain _ using hI.lists
    exact ⟨chain, fun k _ => hchain k, hcount chain fun k _ => hchain k⟩

/-! ### What an allocation takes -/

section Take

variable {order n : ℕ} {B C : List Block}

/-- An allocation takes what there is, up to what it wants. -/
theorem TakeOutcome.length_eq_iff (hT : TakeOutcome A s F O order n B C) :
    B.length = n ↔ n ≤ (F.filter fun b => order ≤ b.order ∧ b.order ≤ maxOrder).card := by
  have hsub : B.toFinset ⊆ F.filter fun b => order ≤ b.order ∧ b.order ≤ maxOrder := fun b hb =>
    Finset.mem_filter.2 (hT.taken b (List.mem_toFinset.1 hb))
  have hcard := List.toFinset_card_of_nodup hT.nodup
  constructor
  · rintro rfl
    exact hcard ▸ Finset.card_le_card hsub
  · intro hle
    by_contra hne
    have hlt : B.length < n := lt_of_le_of_ne hT.le hne
    have hall : (F.filter fun b => order ≤ b.order ∧ b.order ≤ maxOrder) ⊆ B.toFinset :=
      fun b hb => by
        obtain ⟨hbF, hbo, hbm⟩ := Finset.mem_filter.1 hb
        exact List.mem_toFinset.2 (hT.full hlt b hbF hbo hbm)
    have := Finset.card_le_card hall
    omega

/-- An allocation of at least one block takes none only when there is none. -/
theorem TakeOutcome.eq_nil_iff (hT : TakeOutcome A s F O order n B C) (hn : n ≠ 0) :
    B = [] ↔ (F.filter fun b => order ≤ b.order ∧ b.order ≤ maxOrder).card = 0 := by
  rw [Finset.card_eq_zero, Finset.filter_eq_empty_iff]
  constructor
  · rintro rfl b hb ⟨hbo, hbm⟩
    exact List.not_mem_nil (hT.full (Nat.pos_of_ne_zero hn) b hb hbo hbm)
  · intro hnone
    exact List.eq_nil_iff_forall_not_mem.2 fun b hb => hnone (hT.taken b hb).1 (hT.taken b hb).2

theorem TakeOutcome.length (hT : TakeOutcome A s F O order n B C) : C.length = B.length := by
  have := congrArg List.length hT.bases
  rwa [List.length_map, List.length_map] at this

/-- What is handed out, by address and order. -/
theorem TakeOutcome.outs_eq (hT : TakeOutcome A s F O order n B C) :
    ((pmmTake order n s).1.map fun a => (a, order)) = C.map blockKey := by
  rw [hT.result, List.map_map]
  exact List.map_congr_left fun c hc => Prod.ext rfl (hT.orders c hc).symm

theorem TakeOutcome.nodup_handed (hT : TakeOutcome A s F O order n B C)
    (hI : BuddyInv A s F O (F ∪ O)) : C.Nodup := by
  refine List.Nodup.of_map Block.base ?_
  rw [hT.bases]
  refine hT.nodup.map_on fun b hb c hc he => ?_
  exact hI.eq_of_base_eq (Finset.mem_union_left _ (hT.taken b hb).1)
    (Finset.mem_union_left _ (hT.taken c hc).1) he

/-- An allocation takes from the list of its own order first. -/
theorem pmmTake_own (hI : BuddyInv A s F O (F ∪ O)) (h0 : 0 ∉ A) (ho : order ≤ maxOrder)
    {l : List ℕ} (hc : Chain s.next (s.freeList order) l) (hn : n ≤ l.length) :
    (pmmTake order n s).1 = (l.take n).map fun i => (s.baseFrame + i) * pageSize := by
  induction n generalizing s F O l with
  | zero => rfl
  | succ n ih =>
    cases l with
    | nil => exact absurd hn (by simp)
    | cons i l =>
      obtain ⟨hhead, hc⟩ := hc
      rcases pmmAllocBlock_spec hI ho with
        ⟨hnone, -⟩ | ⟨b, hbF, hb, t, hbm, hlow, hbi, hblk, hlay, -, hfree, hnext, hI'⟩
      · exact absurd (hhead.symm.trans (hnone order le_rfl ho)) (by simp)
      · have hord : b.order = order := by
          by_contra hne
          exact absurd (hhead.symm.trans (hlow order le_rfl (by omega))) (by simp)
        rw [hord, hhead, Option.some.injEq] at hbi
        have hbH : b ∈ F ∪ O := Finset.mem_union_left _ hbF
        have hz : b.base * pageSize ≠ 0 :=
          Nat.mul_ne_zero (fun hz => h0 (hz ▸ hI.base_mem hbH)) (by decide)
        have hc' : Chain t.next (t.freeList order) l := by
          rw [hfree, hnext, hord, Function.update_self, ← hbi]
          exact hc
        have hbase := (hI.frame_spec (hI.base_mem hbH)).2.1
        rw [pmmTake, hblk]
        simp only [if_neg hz]
        rw [ih hI' hc' (by simpa using hn), hlay.baseFrame, List.take_succ_cons, List.map_cons,
          hbi, ← hbase]

/-- The blocks that leave the lists are those that are taken. -/
theorem TakeOutcome.left_iff (hT : TakeOutcome A s F O order n B C) (hI : BuddyInv A s F O (F ∪ O))
    {k a : ℕ} : (LinkedAt s k a ∧ ¬ LinkedAt (spinlockUnlock (pmmTake order n s).2) k a) ↔
      ∃ b ∈ B, b.order = k ∧ b.base * pageSize = a := by
  have hI' : BuddyInv A (spinlockUnlock (pmmTake order n s).2) (F \ B.toFinset) (C.toFinset ∪ O)
      (F \ B.toFinset ∪ (C.toFinset ∪ O)) := hT.inv.of_lock false
  rw [hI.linkedAt_iff, hI'.linkedAt_iff]
  constructor
  · rintro ⟨⟨b, hbF, hbk, hba⟩, hnot⟩
    refine ⟨b, ?_, hbk, hba⟩
    by_contra hbB
    exact hnot ⟨b, Finset.mem_sdiff.2 ⟨hbF, by simpa using hbB⟩, hbk, hba⟩
  · rintro ⟨b, hbB, hbk, hba⟩
    refine ⟨⟨b, (hT.taken b hbB).1, hbk, hba⟩, ?_⟩
    rintro ⟨c, hc, hck, hca⟩
    obtain rfl : c = b := blockKey_injective
      (Prod.ext (hca.trans hba.symm) (hck.trans hbk.symm))
    exact (Finset.mem_sdiff.1 hc).2 (List.mem_toFinset.2 hbB)

/-- The blocks taken are all of the order asked for exactly when the list of
that order is long enough. -/
theorem TakeOutcome.own_iff (hT : TakeOutcome A s F O order n B C) (hI : BuddyInv A s F O (F ∪ O))
    (h0 : 0 ∉ A) (ho : order ≤ maxOrder) (hlen : B.length = n) {l : List ℕ}
    (hc : Chain s.next (s.freeList order) l) :
    (∀ b ∈ B, b.order = order) ↔ n ≤ l.length := by
  constructor
  · intro hord
    have hsub : B.toFinset ⊆ F.filter fun b => b.order = order := fun b hb =>
      have hb := List.mem_toFinset.1 hb
      Finset.mem_filter.2 ⟨(hT.taken b hb).1, hord b hb⟩
    have hcard := Finset.card_le_card hsub
    rwa [List.toFinset_card_of_nodup hT.nodup, hlen, ← hI.length_list hc] at hcard
  · intro hle b hb
    have hresult := hT.result.symm.trans (pmmTake_own hI h0 ho hc hle)
    obtain ⟨c, hcC, hcb⟩ := List.mem_map.1 (hT.bases ▸ List.mem_map_of_mem (f := Block.base) hb)
    have hmem := List.mem_map_of_mem (f := fun c : Block => c.base * pageSize) hcC
    rw [hresult, List.mem_map] at hmem
    obtain ⟨i, hi, hie⟩ := hmem
    obtain ⟨l', hc', hl⟩ := hI.lists order
    obtain rfl := hc.unique hc'
    obtain ⟨d, hdF, hdo, hdi⟩ := (hl i).1 (List.mem_of_mem_take hi)
    have hbase : b.base = d.base := by
      rw [hdi, ← hcb]
      exact (Nat.eq_of_mul_eq_mul_right (by decide) hie).symm
    rw [hI.eq_of_base_eq (Finset.mem_union_left _ (hT.taken b hb).1)
      (Finset.mem_union_left _ hdF) hbase, hdo]

end Take

/-! ### States without lost pages -/

/-- The invariant, with every added frame linked or handed out. -/
structure BuddyExact (A : Finset ℕ) (s : BuddyAllocator) (F O : Finset Block) : Prop where
  inv : BuddyInv A s F O (F ∪ O)
  covers : ∀ p ∈ A, ∃ b ∈ F ∪ O, p ∈ b.pages

/-- The lists cover what is not handed out. -/
theorem BuddyExact.mem_covered_iff (hE : BuddyExact A s F O) {x : ℕ} :
    x ∈ covered s ↔ x / pageSize ∈ A ∧ ∀ c ∈ O, x / pageSize ∉ c.pages := by
  rw [Flopperating.mem_covered_iff hE.inv]
  constructor
  · rintro ⟨b, hbF, hx⟩
    have hbH : b ∈ F ∪ O := Finset.mem_union_left _ hbF
    refine ⟨hE.inv.tiling.subset b hbH hx, fun c hc hxc => ?_⟩
    obtain rfl := hE.inv.tiling.eq_of_mem hbH (Finset.mem_union_right _ hc) hx hxc
    exact Finset.disjoint_left.1 hE.inv.disjoint_free_out hbF hc
  · rintro ⟨hA, hO⟩
    obtain ⟨b, hb, hx⟩ := hE.covers _ hA
    rcases Finset.mem_union.1 hb with hb | hb
    · exact ⟨b, hb, hx⟩
    · exact absurd hx (hO b hb)

theorem BuddyExact.of_lock (hE : BuddyExact A s F O) (v : Bool) :
    BuddyExact A { s with lock := v } F O := ⟨hE.inv.of_lock v, hE.covers⟩

/-- Handing blocks out as they are loses nothing. -/
theorem BuddyExact.take {order n : ℕ} {B : List Block} (hE : BuddyExact A s F O)
    (hT : TakeOutcome A s F O order n B B) :
    BuddyExact A (pmmTake order n s).2 (F \ B.toFinset) (B.toFinset ∪ O) := by
  refine ⟨hT.inv, fun p hp => ?_⟩
  obtain ⟨b, hb, hpb⟩ := hE.covers p hp
  refine ⟨b, ?_, hpb⟩
  simp only [Finset.mem_union, Finset.mem_sdiff, List.mem_toFinset] at hb ⊢
  tauto

/-- Freeing blocks that are out loses nothing. -/
theorem BuddyExact.free {order : ℕ} {C : List Block} (hE : BuddyExact A s F O)
    (hC : ∀ c ∈ C, c ∈ O ∧ c.order = order) (hnd : C.Nodup) :
    ∃ t F', (C.map fun c => c.base * pageSize).foldlM (pmmFreeBlock order) s = some t ∧
      BuddyExact A t F' (O \ C.toFinset) := by
  obtain ⟨t, F', hrun, -, -, hI', hcov⟩ := pmmFreeTargets_spec hE.inv hC hnd
  refine ⟨t, F', hrun, hI', fun p hp => ?_⟩
  obtain ⟨b, hb, hpb⟩ := hE.covers p hp
  have hcase : b ∈ F ∪ C.toFinset ∨ b ∈ O \ C.toFinset := by
    simp only [Finset.mem_union, Finset.mem_sdiff] at hb ⊢
    tauto
  rcases hcase with hb | hb
  · obtain ⟨c, hc, hsub⟩ := hcov b hb
    exact ⟨c, Finset.mem_union_left _ hc, hsub hpb⟩
  · exact ⟨b, Finset.mem_union_right _ hb, hpb⟩

end States

/-! ### The calls on the invariant -/

section Calls

variable {A : Finset ℕ} {σ σ' : PmmSystem} {F : Finset Block} {L : List Block}

/-- **One allocation**, of at least one block and an order that exists: what it
takes, and what it returns. -/
theorem PmmInv.takes (hI : PmmInv A σ F L) (h0 : 0 ∉ A) {order count : ℕ} (ho : order ≤ maxOrder)
    (hc : count ≠ 0) :
    ∃ B C, TakeOutcome A { σ.alloc with lock := true } F L.toFinset order count B C ∧
      (B.length = count → ∃ start, start ≠ 0 ∧ (C.map fun c => c.base * pageSize).headD 0 = start ∧
        pmmAllocPages order count σ.alloc = some (start,
          spinlockUnlock (pmmTake order count { σ.alloc with lock := true }).2) ∧
        PmmInv A ⟨spinlockUnlock (pmmTake order count { σ.alloc with lock := true }).2,
          C.map blockKey ++ σ.outs⟩ (F \ B.toFinset) (C ++ L)) ∧
      (B.length ≠ count → pmmAllocPages order count σ.alloc =
        if B = [] then some (0, σ.alloc) else none) := by
  have hIL := hI.inv.of_lock true
  obtain ⟨B, C, hT⟩ := pmmTake_spec hIL h0 ho count
  have hrun := pmmAllocPages_eq ho hc hI.unlocked
  rw [hT.result, List.length_map, hT.length] at hrun
  have hbase : ∀ c ∈ C, c.base ≠ 0 := fun c hcC hz => by
    obtain ⟨b, hb, he⟩ := List.mem_map.1 (hT.bases ▸ List.mem_map_of_mem (f := Block.base) hcC)
    have := hIL.base_mem (hIL.mem_of_free (hT.taken b hb).1)
    rw [he, hz] at this
    exact h0 this
  refine ⟨B, C, hT, fun hlen => ?_, fun hlen => ?_⟩
  · rw [if_pos hlen] at hrun
    refine ⟨_, ?_, rfl, hrun, ?_⟩
    · cases C with
      | nil => exact absurd (hT.length.trans hlen) (by simpa using hc.symm)
      | cons c C => exact Nat.mul_ne_zero (hbase c List.mem_cons_self) (by decide)
    · have hnd := hT.nodup_handed hIL
      refine ⟨by rw [List.map_append, hI.outs], hnd.append hI.nodup fun c hcC hcL =>
        hT.fresh c hcC (List.mem_toFinset.2 hcL), rfl, fun c hcL => ?_, fun c hcL => ?_, ?_⟩
      · exact (List.mem_append.1 hcL).elim (hbase c) (hI.nonzero c)
      · exact (List.mem_append.1 hcL).elim (fun h => (hT.orders c h).trans_le ho) (hI.small c)
      · rw [List.toFinset_append]
        exact hT.inv.of_lock false
  · rw [if_neg hlen] at hrun
    rw [hrun]
    by_cases hB : B = []
    · subst hB
      obtain rfl : C = [] := List.map_eq_nil_iff.1 hT.bases
      have hsame : (pmmTake order count { σ.alloc with lock := true }).2 =
          { σ.alloc with lock := true } := by
        cases count with
        | zero => rfl
        | succ n =>
          have hnil := hT.result
          rcases pmmAllocBlock_spec hIL ho with
            ⟨-, hblk⟩ | ⟨b, hbF, hb, t, -, -, -, hblk, -⟩
          · simp [pmmTake, hblk]
          · have hz : b.base * pageSize ≠ 0 := Nat.mul_ne_zero
              (fun hz => h0 (hz ▸ hIL.base_mem (hIL.mem_of_free hbF))) (by decide)
            simp [pmmTake, hblk, hz] at hnil
      rw [hsame, List.map_nil, if_pos rfl, if_pos rfl]
      simp [spinlockUnlock, ← hI.unlocked]
    · have hC : C ≠ [] := fun hC => hB (by
        have := hT.length
        rw [hC] at this
        exact List.eq_nil_of_length_eq_zero this.symm)
      rw [if_neg (by simpa using hC), if_neg hB]

/-- The blocks a free names are blocks that are out. -/
theorem PmmInv.exists_blocks (hI : PmmInv A σ F L) {addr order count : ℕ}
    (hsub : (blocksFrom addr order count).Subperm σ.outs) :
    ∃ C : List Block, C.map blockKey = blocksFrom addr order count ∧ C.Nodup ∧
      (C.map fun c => c.base * pageSize) = pmmFreeTargets order count addr ∧
      ∀ c ∈ C, c ∈ L ∧ c.order = order := by
  rw [hI.outs] at hsub
  obtain ⟨C, hC, hCL⟩ := exists_map_eq hsub.subset
  have hnd : (blocksFrom addr order count).Nodup :=
    let ⟨_, hp, hs⟩ := hsub
    hp.nodup_iff.1 ((hI.nodup.map blockKey_injective).sublist hs)
  have hfst := congrArg (List.map Prod.fst) hC
  have hsnd := congrArg (List.map Prod.snd) hC
  rw [blocksFrom, List.map_map, List.map_map] at hfst hsnd
  refine ⟨C, hC, List.Nodup.of_map blockKey (hC ▸ hnd), hfst.trans (List.map_id _),
    fun c hc => ⟨hCL c hc, ?_⟩⟩
  have hmem : (Prod.snd ∘ blockKey) c ∈ List.map (Prod.snd ∘ blockKey) C := List.mem_map_of_mem hc
  rw [hsnd, List.mem_map] at hmem
  obtain ⟨a, -, ha⟩ := hmem
  exact ha.symm

/-- **One free** returns and keeps the invariant. -/
theorem PmmInv.frees (hI : PmmInv A σ F L) {addr order count : ℕ} (hc : count ≠ 0)
    (hsub : (blocksFrom addr order count).Subperm σ.outs) :
    ∃ C : List Block, C.map blockKey = blocksFrom addr order count ∧ C.Nodup ∧
      (∀ c ∈ C, c ∈ L ∧ c.order = order) ∧
      ∃ t F', (C.map fun c => c.base * pageSize).foldlM (pmmFreeBlock order)
          { σ.alloc with lock := true } = some t ∧
        pmmFreePages addr order count σ.alloc = some (spinlockUnlock t) ∧
        (∀ b ∈ F ∪ C.toFinset, ∃ c ∈ F', b.pages ⊆ c.pages) ∧
        PmmInv A ⟨spinlockUnlock t, σ.outs.diff (blocksFrom addr order count)⟩ F' (L.diff C) := by
  obtain ⟨C, hC, hnd, htarget, hCL⟩ := hI.exists_blocks hsub
  obtain ⟨t, F', hrun, -, -, hI', hcov⟩ := pmmFreeTargets_spec (hI.inv.of_lock true)
    (fun c hc => ⟨List.mem_toFinset.2 (hCL c hc).1, (hCL c hc).2⟩) hnd
  -- at least one block is named, so the address and the order are those of a block
  obtain ⟨n, rfl⟩ : ∃ n, count = n + 1 := ⟨count - 1, by omega⟩
  have hmem : (addr, order) ∈ C.map blockKey := by rw [hC]; exact List.mem_cons_self
  obtain ⟨c, hcC, hce⟩ := List.mem_map.1 hmem
  obtain ⟨rfl, rfl⟩ := Prod.mk.inj hce
  have hcL := (hCL c hcC).1
  have haddr : c.base * pageSize ≠ 0 := Nat.mul_ne_zero (hI.nonzero c hcL) (by decide)
  have hpages := pmmFreePages_eq haddr (hI.small c hcL) hc hI.unlocked
  rw [← htarget, hrun] at hpages
  refine ⟨C, hC, hnd, hCL, t, F', hrun, hpages, hcov, ?_, hI.nodup.diff, rfl,
    fun b hb => hI.nonzero b (List.diff_subset _ _ hb),
    fun b hb => hI.small b (List.diff_subset _ _ hb), ?_⟩
  · rw [List.map_diff blockKey_injective, hC, hI.outs]
  · have hL : (L.diff C).toFinset = L.toFinset \ C.toFinset := by
      ext b
      simp [hI.nodup.mem_sdiff_iff]
    rw [hL]
    exact hI'.of_lock false

/-- What a call that returns does: nothing, or it takes the blocks it wants, or
it frees blocks that are out. -/
inductive MultiOutcome (A : Finset ℕ) (σ : PmmSystem) (F : Finset Block) (L : List Block) :
    PmmMultiOp → PmmSystem → Prop
  | same (op : PmmMultiOp) : MultiOutcome A σ F L op σ
  | takes {order count : ℕ} {B C : List Block} {σ' : PmmSystem} (ho : order ≤ maxOrder)
      (hc : count ≠ 0)
      (hT : TakeOutcome A { σ.alloc with lock := true } F L.toFinset order count B C)
      (hlen : B.length = count) (hI' : PmmInv A σ' (F \ B.toFinset) (C ++ L)) :
      MultiOutcome A σ F L (.alloc order count) σ'
  | frees {addr order count : ℕ} {C : List Block} {t : BuddyAllocator} {F' : Finset Block}
      {σ' : PmmSystem} (hnd : C.Nodup) (hC : ∀ c ∈ C, c ∈ L ∧ c.order = order)
      (hcov : ∀ b ∈ F ∪ C.toFinset, ∃ c ∈ F', b.pages ⊆ c.pages)
      (hI' : PmmInv A σ' F' (L.diff C)) : MultiOutcome A σ F L (.free addr order count) σ'

theorem PmmInv.multiStep_cases (hI : PmmInv A σ F L) (h0 : 0 ∉ A) {op : PmmMultiOp}
    (hstep : pmmMultiStep σ op σ') : MultiOutcome A σ F L op σ' := by
  cases op with
  | alloc order count =>
    by_cases hno : order > maxOrder ∨ count = 0
    · have hrun : pmmAllocPages order count σ.alloc = some (0, σ.alloc) := by
        rw [pmmAllocPages, if_pos hno]
      rw [pmmMultiStep, PmmMultiOp.run, hrun] at hstep
      exact Option.some.inj hstep ▸ .same _
    · rw [not_or, not_lt] at hno
      obtain ⟨B, C, hT, hfull, hfail⟩ := hI.takes h0 hno.1 hno.2
      by_cases hlen : B.length = count
      · obtain ⟨start, hstart, -, hrun, hI'⟩ := hfull hlen
        rw [pmmMultiStep, PmmMultiOp.run, hrun, Option.map_some, Option.some.injEq] at hstep
        simp only [if_neg hstart, hT.outs_eq] at hstep
        exact .takes hno.1 hno.2 hT hlen (hstep ▸ hI')
      · rw [pmmMultiStep, PmmMultiOp.run, hfail hlen] at hstep
        by_cases hB : B = []
        · rw [if_pos hB] at hstep
          exact Option.some.inj hstep ▸ .same _
        · rw [if_neg hB] at hstep
          exact absurd hstep (by simp)
  | free addr order count =>
    by_cases hsub : (blocksFrom addr order count).Subperm σ.outs
    swap
    · simp [pmmMultiStep, PmmMultiOp.run, hsub] at hstep
    rcases Nat.eq_zero_or_pos count with rfl | hc
    · have hrun : pmmFreePages addr order 0 σ.alloc = some σ.alloc := by simp [pmmFreePages]
      rw [pmmMultiStep, PmmMultiOp.run, if_pos hsub, hrun] at hstep
      exact Option.some.inj hstep ▸ .same _
    · obtain ⟨C, -, hnd, hC, t, F', -, hrun, hcov, hI'⟩ := hI.frees (by omega) hsub
      rw [pmmMultiStep, PmmMultiOp.run, if_pos hsub, hrun] at hstep
      obtain rfl := Option.some.inj hstep
      exact .frees (t := t) hnd hC hcov hI'

/-- A call that returns keeps the invariant. -/
theorem PmmInv.multiStep (hI : PmmInv A σ F L) (h0 : 0 ∉ A) {op : PmmMultiOp}
    (hstep : pmmMultiStep σ op σ') : ∃ F' L', PmmInv A σ' F' L' := by
  cases hI.multiStep_cases h0 hstep with
  | same => exact ⟨F, L, hI⟩
  | takes _ _ _ _ hI' => exact ⟨_, _, hI'⟩
  | frees _ _ _ hI' => exact ⟨_, _, hI'⟩

/-- **When a multi-block allocation is the inverse of a free**: when it runs out
of blocks, or the blocks at the head of its list are adjacent. -/
theorem PmmInv.alloc_inverse_iff (hI : PmmInv A σ F L) (h0 : 0 ∉ A)
    (hcov : ∀ p ∈ A, ∃ b ∈ F ∪ L.toFinset, p ∈ b.pages) {order count : ℕ} (ho : order ≤ maxOrder)
    (hc : count ≠ 0) : AllocInverse σ.alloc order count ↔ TakesAdjacent σ.alloc order count := by
  have hIL := hI.inv.of_lock true
  obtain ⟨B, C, hT, hfull, hfail⟩ := hI.takes h0 ho hc
  have hleft : ∀ k a, (LinkedAt σ.alloc k a ∧ ¬ LinkedAt
      (spinlockUnlock (pmmTake order count { σ.alloc with lock := true }).2) k a) ↔
      ∃ b ∈ B, b.order = k ∧ b.base * pageSize = a := fun k a => hT.left_iff hIL
  obtain ⟨l, hl, -⟩ := hI.inv.lists order
  have haddrs : (l.take count).map (fun i => (σ.alloc.pageInfo i).address) =
      (l.take count).map fun i => (σ.alloc.baseFrame + i) * pageSize :=
    List.map_congr_left fun i hi => hI.inv.address_of_mem hl (List.mem_of_mem_take hi)
  have hresult : count ≤ l.length →
      (C.map fun c => c.base * pageSize) = (l.take count).map fun i =>
        (σ.alloc.pageInfo i).address := fun hle =>
    (hT.result.symm.trans (pmmTake_own hIL h0 ho hl hle)).trans haddrs.symm
  constructor
  · intro hinv
    by_cases hlen : B.length = count
    swap
    · refine .inl ⟨_, ?_, hI.inv.available_iff.2 rfl⟩
      exact not_le.1 fun hle => hlen (hT.length_eq_iff.2 hle)
    obtain ⟨start, hstart, hhead, hrun, -⟩ := hfull hlen
    obtain ⟨htakes, -⟩ := hinv _ _ hrun hstart
    have htaken : ∀ b ∈ B, (b.base * pageSize, b.order) ∈ blocksFrom start order count :=
      fun b hb => (htakes _ _).1 ((hleft _ _).2 ⟨b, hb, rfl, rfl⟩)
    have hord : ∀ b ∈ B, b.order = order := fun b hb => (mem_blocksFrom.1 (htaken b hb)).1
    have hle := (hT.own_iff hIL h0 ho hlen hl).1 hord
    obtain rfl := eq_of_map_base hT.bases hT.orders hord
    refine .inr ⟨l, hl, hle, fun a => ?_⟩
    rw [← hresult hle, hhead]
    constructor
    · intro ha
      obtain ⟨b, hb, rfl⟩ := List.mem_map.1 ha
      exact (mem_blocksFrom.1 (htaken b hb)).2
    · intro ha
      obtain ⟨b, hb, -, hba⟩ := (hleft _ _).1 ((htakes _ _).2 (mem_blocksFrom.2 ⟨rfl, ha⟩))
      exact List.mem_map.2 ⟨b, hb, hba⟩
  · rintro (⟨n, hn, hav⟩ | ⟨l', hl', hle, hadj⟩) start s' hrun hstart
    · -- too few blocks: no address is returned
      have hlen : B.length ≠ count := fun hlen => by
        have := hT.length_eq_iff.1 hlen
        rw [hI.inv.available_iff.1 hav] at this
        omega
      rw [hfail hlen] at hrun
      split at hrun
      · exact absurd (congrArg Prod.fst (Option.some.inj hrun)).symm hstart
      · exact absurd hrun (by simp)
    · obtain rfl := hl.unique hl'
      rw [← hresult hle] at hadj
      have hlen : B.length = count := by
        rw [← hT.length, ← List.length_map (fun c : Block => c.base * pageSize), hresult hle,
          List.length_map, List.length_take, min_eq_left hle]
      obtain ⟨start', -, hhead, hrun', hI'⟩ := hfull hlen
      obtain ⟨rfl, rfl⟩ := Prod.mk.inj (Option.some.inj (hrun'.symm.trans hrun))
      obtain rfl := eq_of_map_base hT.bases hT.orders ((hT.own_iff hIL h0 ho hlen hl).2 hle)
      rw [hhead] at hadj
      refine ⟨fun k a => ?_, ?_⟩
      · rw [hleft, mem_blocksFrom, ← hadj, List.mem_map]
        constructor
        · rintro ⟨b, hb, rfl, rfl⟩
          exact ⟨hT.orders b hb, b, hb, rfl⟩
        · rintro ⟨rfl, b, hb, rfl⟩
          exact ⟨b, hb, hT.orders b hb, rfl⟩
      · -- the free names the blocks that were taken, in ascending order
        obtain ⟨D, hD, hDC⟩ := exists_map_eq fun a ha => (hadj a).2 ha
        have hnd := hT.nodup_handed hIL
        have hCD : C ⊆ D := fun c hcC => by
          have hmem := (hadj _).1 (List.mem_map_of_mem hcC)
          rw [← hD, List.mem_map] at hmem
          obtain ⟨d, hd, hde⟩ := hmem
          have hcd : d = c := blockKey_injective
            (Prod.ext hde ((hT.orders d (hDC d hd)).trans (hT.orders c hcC).symm))
          exact hcd ▸ hd
        have hlenD : D.length = C.length := by
          rw [← List.length_map (fun c : Block => c.base * pageSize), hD, length_pmmFreeTargets, hlen]
        have hperm : C.Perm D := (hnd.subperm hCD).perm_of_length_le hlenD.le
        have hE : BuddyExact A { σ.alloc with lock := true } F L.toFinset := ⟨hIL, hcov⟩
        have hE' := ((hE.take hT).of_lock true)
        obtain ⟨t, F', hfree, hE''⟩ := hE'.free
          (fun d hd => ⟨Finset.mem_union_left _ (List.mem_toFinset.2 (hDC d hd)),
            hT.orders d (hDC d hd)⟩) (hperm.nodup_iff.1 hnd)
        have hout : (C.toFinset ∪ L.toFinset) \ D.toFinset = L.toFinset := by
          rw [← List.toFinset_eq_of_perm _ _ hperm, Finset.union_sdiff_left]
          refine Finset.sdiff_eq_self_of_disjoint (Finset.disjoint_left.2 fun b hb hb' => ?_)
          exact hT.fresh b (List.mem_toFinset.1 hb') hb
        rw [hout] at hE''
        have hEu : BuddyExact A (spinlockUnlock t) F' L.toFinset := hE''.of_lock false
        have hEs : BuddyExact A σ.alloc F L.toFinset := ⟨hI.inv, hcov⟩
        refine ⟨spinlockUnlock t, ?_, ?_⟩
        · rw [pmmFreePages_eq hstart ho hc rfl, ← hD]
          exact congrArg (Option.map spinlockUnlock) hfree
        · ext x
          rw [hEu.mem_covered_iff, hEs.mem_covered_iff]

/-- A free gives back the pages it names. -/
theorem PmmInv.frees_covered (hI : PmmInv A σ F L)
    (hcov : ∀ p ∈ A, ∃ b ∈ F ∪ L.toFinset, p ∈ b.pages) {addr order count : ℕ}
    (hsub : (blocksFrom addr order count).Subperm σ.outs) :
    ∃ s', pmmFreePages addr order count σ.alloc = some s' ∧ covered s' =
      covered σ.alloc ∪ {x | ∃ b ∈ blocksFrom addr order count, x ∈ blockRange b.1 b.2} := by
  rcases Nat.eq_zero_or_pos count with rfl | hc
  · exact ⟨σ.alloc, by simp [pmmFreePages], by simp [blocksFrom, pmmFreeTargets]⟩
  obtain ⟨C, hC, hnd, hCL, t, F', hfree, hrun, -, -⟩ := hI.frees (by omega) hsub
  have hE : BuddyExact A σ.alloc F L.toFinset := ⟨hI.inv, hcov⟩
  obtain ⟨t', F'', hfree', hE'⟩ := (hE.of_lock true).free
    (fun c hc => ⟨List.mem_toFinset.2 (hCL c hc).1, (hCL c hc).2⟩) hnd
  obtain rfl := Option.some.inj (hfree.symm.trans hfree')
  have hEu : BuddyExact A (spinlockUnlock t) F'' (L.toFinset \ C.toFinset) := hE'.of_lock false
  refine ⟨_, hrun, Set.ext fun x => ?_⟩
  rw [hEu.mem_covered_iff, Set.mem_union, hE.mem_covered_iff, Set.mem_ofPred_eq, ← hC]
  simp only [Finset.mem_sdiff, List.mem_toFinset, List.mem_map]
  constructor
  · rintro ⟨hA, hO⟩
    by_cases hx : ∃ c ∈ C, x / pageSize ∈ c.pages
    · obtain ⟨c, hcC, hxc⟩ := hx
      exact .inr ⟨_, ⟨c, hcC, rfl⟩, mem_blockRange_blockKey.2 hxc⟩
    · exact .inl ⟨hA, fun c hcL hxc => hO c ⟨hcL, fun hcC => hx ⟨c, hcC, hxc⟩⟩ hxc⟩
  · rintro (⟨hA, hO⟩ | ⟨-, ⟨c, hcC, rfl⟩, hx⟩)
    · exact ⟨hA, fun c hc => hO c hc.1⟩
    · have hxc := mem_blockRange_blockKey.1 hx
      have hcH : c ∈ F ∪ L.toFinset := Finset.mem_union_right _ (List.mem_toFinset.2 (hCL c hcC).1)
      refine ⟨hI.inv.tiling.subset c hcH hxc, fun d hd hxd => ?_⟩
      -- the frame belongs to one block only
      have hdH : d ∈ F ∪ L.toFinset := Finset.mem_union_right _ (List.mem_toFinset.2 hd.1)
      exact hd.2 (hI.inv.tiling.eq_of_mem hcH hdH hxc hxd ▸ hcC)

/-- A call that finds its blocks adjacent, or frees, loses nothing. -/
theorem PmmInv.multiStep_covers (hI : PmmInv A σ F L) (h0 : 0 ∉ A)
    (hcov : ∀ p ∈ A, ∃ b ∈ F ∪ L.toFinset, p ∈ b.pages) {op : PmmMultiOp}
    (hadj : StaysAdjacent σ.alloc op) (hstep : pmmMultiStep σ op σ') :
    ∃ F' L', PmmInv A σ' F' L' ∧ ∀ p ∈ A, ∃ b ∈ F' ∪ L'.toFinset, p ∈ b.pages := by
  cases hI.multiStep_cases h0 hstep with
  | same => exact ⟨F, L, hI, hcov⟩
  | @takes order count B C _ ho hc hT hlen hI' =>
    have hIL := hI.inv.of_lock true
    refine ⟨_, _, hI', ?_⟩
    rcases hadj ho hc with ⟨n, hn, hav⟩ | ⟨l, hl, hle, -⟩
    · have := hT.length_eq_iff.1 hlen
      rw [hI.inv.available_iff.1 hav] at this
      omega
    · obtain rfl := eq_of_map_base hT.bases hT.orders ((hT.own_iff hIL h0 ho hlen hl).2 hle)
      rw [List.toFinset_append]
      exact ((⟨hIL, hcov⟩ : BuddyExact A _ F L.toFinset).take hT).covers
  | @frees addr order count C t F' _ hnd hC hback hI' =>
    refine ⟨_, _, hI', fun p hp => ?_⟩
    obtain ⟨b, hb, hpb⟩ := hcov p hp
    by_cases hbC : b ∈ F ∪ C.toFinset
    · obtain ⟨c, hc, hsub⟩ := hback b hbC
      exact ⟨c, Finset.mem_union_left _ hc, hsub hpb⟩
    · refine ⟨b, Finset.mem_union_right _ (List.mem_toFinset.2 ?_), hpb⟩
      simp only [Finset.mem_union, List.mem_toFinset, not_or] at hb hbC
      exact hI.nodup.mem_sdiff_iff.2 ⟨hb.resolve_left hbC.1, hbC.2⟩

end Calls

/-! ### Over whole runs -/

section Runs

variable {mb : MultibootInfo} {s₀ : BuddyAllocator} {σ : PmmSystem}

/-- Boot adds no frame `0` over a `memory_base` that is not `0`. -/
theorem zero_notMem_frames (hbase : 0 < s₀.memoryBase) : 0 ∉ BootState.frames mb s₀ := fun hm => by
  have := (mem_bootAdds.1 (BootState.mem_frames.1 hm)).2.1.2.1
  rw [pmmSkipAddr] at this
  omega

/-- What the callers of multi-block allocations rely on: what they hold is apart
and off the lists, an allocation takes the blocks it returns the first of, and a
free gives back what it names. -/
structure MultiSound (σ : PmmSystem) : Prop where
  owned : σ.outs.Pairwise fun x y => Disjoint (blockRange x.1 x.2) (blockRange y.1 y.2)
  unlinked : ∀ x ∈ σ.outs, Disjoint (blockRange x.1 x.2) (covered σ.alloc)
  allocs : ∀ order ≤ maxOrder, ∀ count ≠ 0,
    (AllocInverse σ.alloc order count ↔ TakesAdjacent σ.alloc order count)
  frees : ∀ addr order count, (blocksFrom addr order count).Subperm σ.outs →
    ∃ s', pmmFreePages addr order count σ.alloc = some s' ∧ covered s' =
      covered σ.alloc ∪ {x | ∃ b ∈ blocksFrom addr order count, x ∈ blockRange b.1 b.2}

/-- **When multi-block allocation and free are inverse**: in every run from boot
whose allocations find their blocks adjacent, or too few of them, and in the
state reached an allocation is an inverse exactly when it does, too. -/
theorem pmm_multi_inverse (h : BootState mb s₀) (hbase : 0 < s₀.memoryBase)
    (hr : Reach (pmmBooted mb s₀)
      (fun σ op σ' => StaysAdjacent σ.alloc op ∧ pmmMultiStep σ op σ') σ) : MultiSound σ := by
  have h0 : 0 ∉ BootState.frames mb s₀ := zero_notMem_frames hbase
  obtain ⟨F, L, hI, hcov⟩ : ∃ F L, PmmInv (BootState.frames mb s₀) σ F L ∧
      ∀ p ∈ BootState.frames mb s₀, ∃ b ∈ F ∪ L.toFinset, p ∈ b.pages :=
    hr.invariant (P := fun σ => ∃ F L, PmmInv (BootState.frames mb s₀) σ F L ∧
        ∀ p ∈ BootState.frames mb s₀, ∃ b ∈ F ∪ L.toFinset, p ∈ b.pages)
      (fun σ hσ => ⟨_, _, (h.pmmCover hσ).toPmmInv, (h.pmmCover hσ).covers⟩)
      fun σ op σ' _ ⟨_, _, hI, hcov⟩ hstep => hI.multiStep_covers h0 hcov hstep.1 hstep.2
  have hsafe := hI.safe
  refine ⟨hsafe.outstanding, fun x hx => ?_, fun order ho count hc =>
    hI.alloc_inverse_iff h0 hcov ho hc, fun addr order count hsub => hI.frees_covered hcov hsub⟩
  rw [Set.disjoint_left]
  rintro y hy ⟨k, i, hi, hy'⟩
  exact Set.disjoint_left.1 (hsafe.outstanding_linked x hx k i hi) hy hy'

/-- **When running out of memory is harmless**: in every state reached from boot,
an allocation that finds too few blocks fails cleanly exactly when it finds none
at all. -/
theorem pmm_exhausted_iff (h : BootState mb s₀) (hbase : 0 < s₀.memoryBase)
    (hr : Reach (pmmBooted mb s₀) pmmMultiStep σ) {order : ℕ} (ho : order ≤ maxOrder) (count : ℕ) :
    ∃ n, Available σ.alloc order n ∧
      ((n < count → FailsClean σ.alloc order count) ↔ n = 0 ∨ count ≤ n) := by
  have h0 : 0 ∉ BootState.frames mb s₀ := zero_notMem_frames hbase
  obtain ⟨F, L, hI⟩ : ∃ F L, PmmInv (BootState.frames mb s₀) σ F L :=
    hr.invariant (P := fun σ => ∃ F L, PmmInv (BootState.frames mb s₀) σ F L)
      (fun σ hσ => ⟨_, _, h.pmmInv hσ⟩)
      fun σ op σ' _ ⟨_, _, hI⟩ hstep => hI.multiStep h0 hstep
  refine ⟨_, hI.inv.available_iff.2 rfl, ?_⟩
  set n := (F.filter fun b => order ≤ b.order ∧ b.order ≤ maxOrder).card with hn
  by_cases hlt : n < count
  swap
  · exact ⟨fun _ => .inr (not_lt.1 hlt), fun _ h => absurd h hlt⟩
  obtain ⟨B, C, hT, -, hfail⟩ := hI.takes h0 ho (by omega : count ≠ 0)
  have hlen : B.length ≠ count := fun hlen => by
    have := hT.length_eq_iff.1 hlen
    omega
  have hrun := hfail hlen
  have hB : B = [] ↔ n = 0 := hT.eq_nil_iff (by omega)
  constructor
  · intro hclean
    obtain ⟨s', hs', -⟩ := hclean hlt
    refine .inl (hB.1 ?_)
    by_contra hne
    rw [hrun, if_neg hne] at hs'
    exact absurd hs' (by simp)
  · rintro (hz | hle) -
    · rw [if_pos (hB.2 hz)] at hrun
      exact ⟨σ.alloc, hrun, hI.unlocked, rfl⟩
    · omega

end Runs

/-- A memory map that lists the last page of its memory before the last but one. -/
def unsortedMap : MultibootInfo where
  self := 0x9000
  flags := 0x40
  modsCount := 0
  mods := fun _ => ⟨0, 0⟩
  mmapLength := 72
  mmapAddr := 0x9100
  mmap := [⟨20, 0x100000, 0x3000, 1⟩, ⟨20, 0x104000, 0x1000, 1⟩, ⟨20, 0x103000, 0x1000, 1⟩]

/-- The allocator `pmm_create_free_list` starts from on `unsortedMap`. -/
def unsortedStart : BuddyAllocator :=
  { buddyZero with
    pageInfoAddr := 0x200000
    totalPages := 5
    memoryStart := 0x201000
    memoryEnd := 0x105000
    memoryBase := 0x100000 }

theorem bootState_unsorted : BootState unsortedMap unsortedStart := by
  refine ⟨fun _ => rfl, rfl, ⟨0x100, rfl⟩, ?_, fun _ _ _ => rfl⟩
  have hregions : (unsortedMap.entries.filter (pmmRegionUsable ·)).map
      (fun e => (pmmRegionStart e, pmmRegionEnd e)) =
      [(0x100000, 0x103000), (0x104000, 0x105000), (0x103000, 0x104000)] := by decide
  have hpair : [(0x100000, 0x103000), (0x104000, 0x105000), (0x103000, 0x104000)].Pairwise
      fun x y : ℕ × ℕ => ∀ a, ¬ ((x.1 ≤ a ∧ a < x.2) ∧ (y.1 ≤ a ∧ a < y.2)) := by
    simp only [List.pairwise_cons, List.mem_cons, List.not_mem_nil, or_false, forall_eq_or_imp,
      forall_eq, List.Pairwise.nil, IsEmpty.forall_iff, implies_true, and_true]
    exact ⟨⟨fun a => by omega, fun a => by omega⟩, fun a => by omega⟩
  rwa [← hregions, List.pairwise_map] at hpair

theorem pmm_multi_inverse_unsorted : ∃ σ, σ.outs = [(0x103000, 0), (0x104000, 0)] ∧
    MultiSound σ := by
  have hrun : ((PmmMultiOp.alloc 0 2).run
      ⟨pmmCreateFreeList unsortedMap unsortedStart, []⟩).map PmmSystem.outs =
      some [(0x103000, 0), (0x104000, 0)] := by decide
  obtain ⟨σ, hσ, houts⟩ := Option.map_eq_some_iff.1 hrun
  refine ⟨σ, houts, pmm_multi_inverse bootState_unsorted (by decide)
    (.step (.alloc 0 2) (.init rfl) ⟨fun _ _ => .inr ⟨[3, 4, 2, 1, 0], ?_, by decide, fun a => ?_⟩,
      hσ⟩)⟩
  · exact ⟨rfl, rfl, rfl, rfl, rfl, rfl⟩
  · exact Iff.rfl

/-- **The blocks taken need not be adjacent**: on two fresh pages the allocation of
both returns the upper one. -/
theorem pmm_multi_apart : ∃ σ, pmmBooted twoPageMap twoPageStart σ ∧
    ¬ AllocInverse σ.alloc 0 2 := by
  refine ⟨_, rfl, fun hinv => ?_⟩
  have hrun : (pmmAllocPages 0 2 (pmmCreateFreeList twoPageMap twoPageStart)).map
      (fun r => (r.1, r.2.freeList 0)) = some (0x101000, none) := by decide
  obtain ⟨⟨start, s'⟩, hs', he⟩ := Option.map_eq_some_iff.1 hrun
  obtain ⟨rfl, hnone⟩ := Prod.mk.inj he
  obtain ⟨htakes, -⟩ := hinv _ _ hs' (by decide)
  have hmem := (htakes 0 0x100000).1 ⟨⟨0, .there (.here 0), by decide⟩, ?_⟩
  · exact absurd hmem (by decide)
  · rintro ⟨i, hi, -⟩
    rw [OnFreeList, hnone] at hi
    exact not_linked_none hi

theorem pmm_exhausted_iff_twoPage : ∃ n, Available
      (pmmCreateFreeList twoPageMap twoPageStart) 0 n ∧
    ((n < 2 → FailsClean (pmmCreateFreeList twoPageMap twoPageStart) 0 2) ↔ n = 0 ∨ 2 ≤ n) :=
  pmm_exhausted_iff bootState_twoPage (by decide) (.init rfl) (by decide) 2

/-- The free lists that the boot leaves on `twoPageMap`: the upper page, then the lower one. -/
theorem chains_twoPage (k : ℕ) : Chain (pmmCreateFreeList twoPageMap twoPageStart).next
    ((pmmCreateFreeList twoPageMap twoPageStart).freeList k) (Function.update (fun _ => []) 0 [1, 0] k) := by
  cases k with
  | zero => exact ⟨rfl, rfl, rfl⟩
  | succ k =>
    have hk := addPages_freeList_of_ne twoPageStart (bootAdds twoPageMap twoPageStart)
      (Nat.succ_ne_zero k)
    rw [← pmmCreateFreeList_eq] at hk
    exact hk

/-- **Running out of memory hangs**: three pages are asked for, two are there. -/
theorem pmm_exhausted_hangs : ∃ σ, pmmBooted twoPageMap twoPageStart σ ∧
    Available σ.alloc 0 2 ∧ pmmAllocPages 0 3 σ.alloc = none ∧ ¬ FailsClean σ.alloc 0 3 := by
  have hnone : pmmAllocPages 0 3 (pmmCreateFreeList twoPageMap twoPageStart) = none := by
    have hmap : (pmmAllocPages 0 3 (pmmCreateFreeList twoPageMap twoPageStart)).isSome = false := by
      decide
    simpa using hmap
  refine ⟨_, rfl, ⟨_, fun k _ => chains_twoPage k, by decide⟩, hnone, ?_⟩
  rintro ⟨s', hs', -⟩
  rw [hnone] at hs'
  exact absurd hs' (by simp)

end Flopperating
