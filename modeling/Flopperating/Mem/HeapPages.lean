/-
# The heap over the page allocator

`pmm_alloc_pages(0, count)` and `pmm_free_pages(addr, 0, count)` of
`src/mem/pmm.c` are a page allocator for the heap (`buddyPages`).  Others hold
pages too: the heap's are some of those that are out (`BuddyOwned`).

The pages of one allocation come off the free lists one by one, the lists of
the smaller blocks first.  They lie next to each other when those at the front
do (`AdjacentFree`); then the heap may rely on the contract
(`buddyPages_contract`).  How many blocks are on the lists decides whether an
allocation returns and what (`buddyPages_enough`, `buddyPages_empty`,
`buddyPages_short`).
-/

import Flopperating.Mem.HeapInvariant

namespace Flopperating

open LinkedList DyadicBlocks

/-- The page allocator of the kernel. -/
abbrev buddyPages : PageAllocator where
  State := BuddyAllocator
  allocPages count s := pmmAllocPages 0 count s
  freePages addr count s := pmmFreePages addr 0 count s

/-- The pages of the ranges. -/
def heldBlocks (held : List (ℕ × ℕ)) : List (ℕ × ℕ) := held.flatMap fun r => blocksFrom r.1 0 r.2

/-- The pages of the ranges `held` are out, and the allocator is sound over the
frames `A`. -/
def BuddyOwned (A : Finset ℕ) (s : BuddyAllocator) (held : List (ℕ × ℕ)) : Prop :=
  (∀ r ∈ held, r.2 ≠ 0) ∧ ∃ F L, PmmInv A ⟨s, L.map blockKey⟩ F L ∧
    (heldBlocks held).Subperm (L.map blockKey)

/-- The records on the free lists from `order` on, list by list. -/
def freeRecords (chain : ℕ → List ℕ) (order : ℕ) : List ℕ :=
  (List.range' order (maxOrder + 1 - order)).flatMap chain

/-- The first `count` free blocks start at addresses next to each other, the first
one lowest. -/
def AdjacentFree (count : ℕ) (s : BuddyAllocator) : Prop :=
  ∀ chain, FreeLists s chain → count ≤ (freeRecords chain 0).length →
    ∀ a, a ∈ ((freeRecords chain 0).take count).map (fun i => (s.pageInfo i).address) ↔
      a ∈ pmmFreeTargets 0 count
        ((((freeRecords chain 0).take count).map fun i => (s.pageInfo i).address).headD 0)

/-! ### Ranges of pages -/

section Ranges

variable {n a x : ℕ}

/-- Single pages from an address on, when the addresses do not wrap around. -/
theorem mem_pmmFreeTargets (h : a + n * pageSize ≤ 2 ^ 32) :
    x ∈ pmmFreeTargets 0 n a ↔ ∃ i < n, x = a + i * pageSize := by
  induction n generalizing a with
  | zero => simp [pmmFreeTargets]
  | succ n ih =>
    have hstep : n ≠ 0 → u32 (a + u32 (2 ^ 0 * pageSize)) = a + pageSize := fun hn => by
      rw [show u32 (2 ^ 0 * pageSize) = pageSize from rfl, u32_of_lt]
      simp only [pageSize] at *
      omega
    rw [pmmFreeTargets, List.mem_cons]
    rcases Nat.eq_zero_or_pos n with rfl | hn
    · simp [pmmFreeTargets]
    · rw [hstep hn.ne', ih (by simp only [pageSize] at *; omega)]
      constructor
      · rintro (rfl | ⟨i, hi, rfl⟩)
        · exact ⟨0, Nat.succ_pos _, by simp⟩
        · exact ⟨i + 1, by omega, by rw [Nat.add_mul]; omega⟩
      · rintro ⟨i, hi, rfl⟩
        rcases Nat.eq_zero_or_pos i with rfl | hi'
        · exact .inl (by simp)
        · obtain ⟨j, rfl⟩ : ∃ j, i = j + 1 := ⟨i - 1, by omega⟩
          exact .inr ⟨j, by omega, by rw [Nat.add_mul]; omega⟩

/-- Pages none of which is at `0` do not wrap around. -/
theorem le_of_pmmFreeTargets (ha : pageSize ∣ a) (hlt : a < 2 ^ 32)
    (h : ∀ x ∈ pmmFreeTargets 0 n a, x ≠ 0) : a + n * pageSize ≤ 2 ^ 32 := by
  induction n generalizing a with
  | zero => omega
  | succ n ih =>
    rw [pmmFreeTargets] at h
    obtain ⟨-, h⟩ := List.forall_mem_cons.1 h
    rw [show u32 (2 ^ 0 * pageSize) = pageSize from rfl] at h
    rcases Nat.eq_zero_or_pos n with rfl | hn
    · simp only [pageSize] at *
      omega
    · by_cases hwrap : a + pageSize < 2 ^ 32
      · rw [u32_of_lt hwrap] at h
        have := ih (Nat.dvd_add ha (Nat.dvd_refl _)) hwrap h
        rw [Nat.add_mul]
        omega
      · have hzero : u32 (a + pageSize) = 0 := by
          simp only [u32, pageSize] at *
          omega
        obtain ⟨m, rfl⟩ : ∃ m, n = m + 1 := ⟨n - 1, by omega⟩
        exact absurd hzero (h _ List.mem_cons_self)

end Ranges

section Owned

variable {A : Finset ℕ} {s s' : BuddyAllocator} {F O : Finset Block} {L : List Block}
  {held : List (ℕ × ℕ)}

/-- A range of pages that are out. -/
theorem PmmInv.range_out {outs : List (ℕ × ℕ)} (hI : PmmInv A ⟨s, outs⟩ F L) {a n : ℕ} (hn : n ≠ 0)
    (hsub : blocksFrom a 0 n ⊆ L.map blockKey) :
    pageSize ∣ a ∧ 0 < a ∧ a + n * pageSize ≤ 2 ^ 32 ∧
      ∀ i < n, ∃ c ∈ L, blockKey c = (a + i * pageSize, 0) := by
  have hout : ∀ x ∈ pmmFreeTargets 0 n a, ∃ c ∈ L, blockKey c = (x, 0) := fun x hx =>
    List.mem_map.1 (hsub (mem_blocksFrom.2 ⟨rfl, hx⟩))
  have hpage : ∀ c ∈ L, ∀ x, blockKey c = (x, 0) → pageSize ∣ x ∧ 0 < x ∧ x < 2 ^ 32 := fun c hc x he => by
    obtain ⟨rfl, -⟩ := Prod.mk.inj he
    have hlt := (hI.inv.index _ (hI.inv.base_mem (hI.inv.mem_of_out (List.mem_toFinset.2 hc)))).1
    have hpos := Nat.pos_of_ne_zero (hI.nonzero c hc)
    refine ⟨⟨c.base, Nat.mul_comm ..⟩, Nat.mul_pos hpos (by decide), ?_⟩
    simp only [pageSize]
    omega
  have hfirst : a ∈ pmmFreeTargets 0 n a := by
    obtain ⟨m, rfl⟩ : ∃ m, n = m + 1 := ⟨n - 1, by omega⟩
    exact List.mem_cons_self
  obtain ⟨c, hc, he⟩ := hout a hfirst
  obtain ⟨hdvd, hpos, hlt⟩ := hpage c hc a he
  have hle := le_of_pmmFreeTargets hdvd hlt fun x hx => by
    obtain ⟨c, hc, he⟩ := hout x hx
    exact (hpage c hc x he).2.1.ne'
  exact ⟨hdvd, hpos, hle, fun i hi => hout _ ((mem_pmmFreeTargets hle).2 ⟨i, hi, rfl⟩)⟩

/-- Ranges of pages that are out with different pages are apart. -/
theorem pageRange_apart {a b m n : ℕ} (ha : pageSize ∣ a) (hb : pageSize ∣ b) (hm : m ≠ 0) (hn : n ≠ 0)
    (hdiff : ∀ i < m, ∀ j < n, a + i * pageSize ≠ b + j * pageSize) :
    (pageRange (a, m)).Apart (pageRange (b, n)) := by
  obtain ⟨x, rfl⟩ := ha
  obtain ⟨y, rfl⟩ := hb
  refine Extent.apart_of_not_has (fun h => ?_) fun h => ?_
  · refine hdiff (y - x) ?_ 0 (Nat.pos_of_ne_zero hn) ?_ <;>
      simp only [Extent.Has, pageRange, pageSize] at * <;> omega
  · refine hdiff 0 (Nat.pos_of_ne_zero hm) (x - y) ?_ ?_ <;>
      simp only [Extent.Has, pageRange, pageSize] at * <;> omega

/-! ### What an allocation takes -/

/-- Taking the head off the first list with a record takes the first record. -/
theorem freeRecords_eq_cons {chain : ℕ → List ℕ} {order m i : ℕ} {l : List ℕ} (hm : order ≤ m)
    (hmax : m ≤ maxOrder) (hlow : ∀ k, order ≤ k → k < m → chain k = []) (hc : chain m = i :: l) :
    freeRecords chain order = i :: freeRecords (Function.update chain m l) order := by
  have hsplit : List.range' order (maxOrder + 1 - order) =
      List.range' order (m - order) ++ m :: List.range' (m + 1) (maxOrder - m) := by
    have h₁ : maxOrder + 1 - order = m - order + (maxOrder - m + 1) := by omega
    have h₂ : order + 1 * (m - order) = m := by omega
    rw [h₁, ← List.range'_append, h₂, List.range'_succ]
  have hnone : ∀ f : ℕ → List ℕ, (∀ k, order ≤ k → k < m → f k = []) →
      (List.range' order (m - order)).flatMap f = [] := fun f hf =>
    List.flatMap_eq_nil_iff.2 fun k hk => by
      obtain ⟨h₁, h₂⟩ := List.mem_range'_1.1 hk
      exact hf k h₁ (by omega)
  have hrest : (List.range' (m + 1) (maxOrder - m)).flatMap (Function.update chain m l) =
      (List.range' (m + 1) (maxOrder - m)).flatMap chain :=
    List.flatMap_congr fun k hk => Function.update_of_ne (by
      have := (List.mem_range'_1.1 hk).1
      omega) ..
  rw [freeRecords, freeRecords, hsplit, List.flatMap_append, List.flatMap_append, List.flatMap_cons,
    List.flatMap_cons, hnone chain hlow, hnone _ fun k h₁ h₂ => ?_, hrest, Function.update_self, hc]
  · rfl
  · rw [Function.update_of_ne (by omega), hlow k h₁ h₂]

/-- **The blocks come off the front of the lists**, the lists of the smaller blocks
first. -/
theorem pmmTake_records (hI : BuddyInv A s F O (F ∪ O)) (h0 : 0 ∉ A) {order n : ℕ}
    (ho : order ≤ maxOrder) {chain : ℕ → List ℕ} (hc : FreeLists s chain) :
    (pmmTake order n s).1 =
      ((freeRecords chain order).take n).map fun i => (s.baseFrame + i) * pageSize := by
  induction n generalizing s F O chain with
  | zero => rfl
  | succ n ih =>
    rcases pmmAllocBlock_spec hI ho with
      ⟨hnone, hblk⟩ | ⟨b, hbF, hb, t, hbm, hlow, hbi, hblk, hlay, -, hfree, hnext, hI'⟩
    · have hempty : freeRecords chain order = [] := List.flatMap_eq_nil_iff.2 fun k hk => by
        obtain ⟨h₁, h₂⟩ := List.mem_range'_1.1 hk
        have hk' := hc k (by omega)
        rw [hnone k h₁ (by omega)] at hk'
        exact List.head?_eq_none_iff.1 hk'.head_eq.symm
      rw [hempty, pmmTake, hblk]
      rfl
    · have hbH : b ∈ F ∪ O := Finset.mem_union_left _ hbF
      have hz : b.base * pageSize ≠ 0 :=
        Nat.mul_ne_zero (fun hz => h0 (hz ▸ hI.base_mem hbH)) (by decide)
      have hbase := (hI.frame_spec (hI.base_mem hbH)).2.1
      obtain ⟨l, hl, htail⟩ : ∃ l, chain b.order = (b.base - s.baseFrame) :: l ∧
          Chain s.next (s.next (b.base - s.baseFrame)) l := by
        have hb' := hc b.order hbm
        cases hl : chain b.order with
        | nil => exact absurd (hbi.symm.trans (hl ▸ hb').head_eq) (by simp)
        | cons j l =>
          obtain ⟨hj, htail⟩ := (hl ▸ hb' : Chain s.next (s.freeList b.order) (j :: l))
          obtain rfl : b.base - s.baseFrame = j := Option.some.inj (hbi.symm.trans hj)
          exact ⟨l, rfl, htail⟩
      have hchain : FreeLists t (Function.update chain b.order l) := fun k hk => by
        rw [hfree, hnext]
        rcases eq_or_ne k b.order with rfl | hne
        · rwa [Function.update_self, Function.update_self]
        · rw [Function.update_of_ne hne, Function.update_of_ne hne]
          exact hc k hk
      have hlow' : ∀ k, order ≤ k → k < b.order → chain k = [] := fun k h₁ h₂ => by
        have hk := hc k (by omega)
        rw [hlow k h₁ h₂] at hk
        exact List.head?_eq_none_iff.1 hk.head_eq.symm
      rw [freeRecords_eq_cons hb hbm hlow' hl, pmmTake, hblk]
      simp only [if_neg hz]
      rw [ih hI' hchain, hlay.baseFrame, List.take_succ_cons, List.map_cons, ← hbase]

/-- The address of the first of some pages. -/
def headPage (C : List Block) : ℕ := (C.map fun c => c.base * pageSize).headD 0

/-- An allocation that finds its `count` pages: it takes the blocks `B` off the
lists and hands the pages `C` at their starts out. -/
structure PagesTaken (A : Finset ℕ) (s : BuddyAllocator) (F : Finset Block) (L : List Block)
    (count : ℕ) (B C : List Block) (t : BuddyAllocator) : Prop where
  take : TakeOutcome A { s with lock := true } F L.toFinset 0 count B C
  after : t = spinlockUnlock (pmmTake 0 count { s with lock := true }).2
  length : C.length = count
  nonzero : headPage C ≠ 0
  inv : PmmInv A ⟨t, (C ++ L).map blockKey⟩ (F \ B.toFinset) (C ++ L)

/-- **What an allocation of pages does**, on `m` free blocks: it finds its pages,
or there are none, or it does not return. -/
theorem PmmInv.allocPages_cases {outs : List (ℕ × ℕ)} (hI : PmmInv A ⟨s, outs⟩ F L) (h0 : 0 ∉ A)
    {count m : ℕ} (hc : count ≠ 0) (hav : Available s 0 m) :
    (count ≤ m ∧ ∃ B C t, pmmAllocPages 0 count s = some (headPage C, t) ∧
      PagesTaken A s F L count B C t) ∨
    (m < count ∧ pmmAllocPages 0 count s = if m = 0 then some (0, s) else none) := by
  obtain ⟨B, C, hT, hfull, hfail⟩ := hI.takes h0 (Nat.zero_le _) hc
  have hm := hI.inv.available_iff.1 hav
  rcases Nat.lt_or_ge m count with hlt | hle
  · have hlen : B.length ≠ count := fun he => by
      have := hT.length_eq_iff.1 he
      omega
    refine .inr ⟨hlt, (hfail hlen).trans ?_⟩
    simp only [hT.eq_nil_iff hc, ← hm]
  · have hlen : B.length = count := hT.length_eq_iff.2 (hm ▸ hle)
    obtain ⟨start, hstart, rfl, hrun, hI'⟩ := hfull hlen
    refine .inl ⟨hle, B, C, _, hrun, hT, rfl, hT.length.trans hlen, hstart, ?_⟩
    have houts : outs = L.map blockKey := hI.outs
    rwa [List.map_append, ← houts]

/-- The blocks that are taken are missing afterwards. -/
theorem PagesTaken.available {outs : List (ℕ × ℕ)} {count m : ℕ} {B C : List Block}
    (hP : PagesTaken A s F L count B C s') (hI : PmmInv A ⟨s, outs⟩ F L) (hav : Available s 0 m) :
    Available s' 0 (m - count) := by
  have hm := hI.inv.available_iff.1 hav
  have hsub : B.toFinset ⊆ F.filter fun b => 0 ≤ b.order ∧ b.order ≤ maxOrder := fun b hb =>
    Finset.mem_filter.2 (hP.take.taken b (List.mem_toFinset.1 hb))
  refine hP.inv.inv.available_iff.2 ?_
  rw [Finset.sdiff_eq_filter, Finset.filter_comm, ← Finset.sdiff_eq_filter, Finset.card_sdiff_of_subset hsub, hm,
    List.toFinset_card_of_nodup hP.take.nodup, ← hP.take.length, hP.length]

/-- The pages are the first free blocks. -/
theorem PagesTaken.records {outs : List (ℕ × ℕ)} {count : ℕ} {B C : List Block}
    (hP : PagesTaken A s F L count B C s') (hI : PmmInv A ⟨s, outs⟩ F L) (h0 : 0 ∉ A)
    {chain : ℕ → List ℕ} (hchain : FreeLists s chain) : (C.map fun c => c.base * pageSize) =
      ((freeRecords chain 0).take count).map fun i => (s.pageInfo i).address := by
  have hIL := hI.inv.of_lock true
  have hchain' : FreeLists { s with lock := true } chain := hchain
  have htake := pmmTake_records (n := count) hIL h0 (Nat.zero_le _) hchain'
  refine (hP.take.result.symm.trans htake).trans (List.map_congr_left fun i hi => ?_)
  obtain ⟨k, hk, hik⟩ := List.mem_flatMap.1 (List.mem_of_mem_take hi)
  have hkm := (List.mem_range'_1.1 hk).2
  exact (hI.inv.address_of_mem (hchain k (by omega)) hik).symm

/-! ### The contract -/

/-- The pages of adjacent free blocks, in ascending order. -/
theorem PagesTaken.perm_blocksFrom {outs : List (ℕ × ℕ)} {count : ℕ} {B C : List Block}
    (hP : PagesTaken A s F L count B C s') (hI : PmmInv A ⟨s, outs⟩ F L) (h0 : 0 ∉ A)
    (hadj : AdjacentFree count s) : (C.map blockKey).Perm (blocksFrom (headPage C) 0 count) := by
  choose chain hchain _ using hI.inv.lists
  have hlists : FreeLists s chain := fun k _ => hchain k
  have hrec := hP.records hI h0 hlists
  have hle : count ≤ (freeRecords chain 0).length := by
    have hlen := congrArg List.length hrec
    rw [List.length_map, hP.length, List.length_map, List.length_take] at hlen
    omega
  have hmem := hadj chain hlists hle
  rw [← hrec] at hmem
  have hkeys : C.map blockKey = (C.map fun c => c.base * pageSize).map fun a => (a, 0) := by
    rw [List.map_map]
    exact List.map_congr_left fun c hc => Prod.ext rfl (hP.take.orders c hc)
  have hnd : (C.map blockKey).Nodup :=
    (hP.take.nodup_handed (hI.inv.of_lock true)).map blockKey_injective
  have hsub : C.map blockKey ⊆ blocksFrom (headPage C) 0 count := fun x hx => by
    rw [hkeys] at hx
    obtain ⟨a, ha, rfl⟩ := List.mem_map.1 hx
    exact mem_blocksFrom.2 ⟨rfl, (hmem a).1 ha⟩
  refine (hnd.subperm hsub).perm_of_length_le ?_
  rw [blocksFrom, List.length_map, length_pmmFreeTargets, List.length_map, hP.length]

/-- Pages that are handed out are apart from those of a range that was out. -/
theorem PagesTaken.apart {outs : List (ℕ × ℕ)} {count a n : ℕ} {B C : List Block}
    (hP : PagesTaken A s F L count B C s') (hI : PmmInv A ⟨s, outs⟩ F L) (hc : count ≠ 0) (hn : n ≠ 0)
    (hout : blocksFrom (headPage C) 0 count ⊆ (C.map blockKey)) (hin : blocksFrom a 0 n ⊆ L.map blockKey) :
    (pageRange (headPage C, count)).Apart (pageRange (a, n)) := by
  obtain ⟨hdvd, -, -, hpages⟩ := hI.range_out hn hin
  have hsub : blocksFrom (headPage C) 0 count ⊆ (C ++ L).map blockKey := fun x hx => by
    rw [List.map_append]
    exact List.mem_append_left _ (hout hx)
  obtain ⟨hdvd', -, hle, -⟩ := hP.inv.range_out hc hsub
  refine pageRange_apart hdvd' hdvd hc hn fun i hi j hj he => ?_
  obtain ⟨d, hd, hkey⟩ := hpages j hj
  obtain ⟨c, hcC, hkey'⟩ := List.mem_map.1
    (hout (mem_blocksFrom.2 ⟨rfl, (mem_pmmFreeTargets hle).2 ⟨i, hi, rfl⟩⟩))
  obtain rfl : c = d := blockKey_injective (hkey'.trans (he ▸ hkey.symm))
  exact hP.take.fresh c hcC (List.mem_toFinset.2 hd)

theorem BuddyOwned.alloc (h0 : 0 ∉ A) {count addr : ℕ} (hown : BuddyOwned A s held)
    (hadj : AdjacentFree count s) (hrun : pmmAllocPages 0 count s = some (addr, s')) (haddr : addr ≠ 0) :
    BuddyOwned A s' ((addr, count) :: held) ∧ addr + count * pageSize ≤ 2 ^ 32 ∧
      ∀ r ∈ held, (pageRange (addr, count)).Apart (pageRange r) := by
  obtain ⟨hnz, F, L, hI, hsub⟩ := hown
  have hc : count ≠ 0 := by
    rintro rfl
    exact haddr (Prod.mk.inj (Option.some.inj hrun)).1.symm
  rcases hI.allocPages_cases h0 hc (hI.inv.available_iff.2 rfl) with
    ⟨-, B, C, t, hrun', hP⟩ | ⟨-, hrun'⟩
  swap
  · rw [hrun'] at hrun
    split at hrun
    · exact absurd (Prod.mk.inj (Option.some.inj hrun)).1.symm haddr
    · exact absurd hrun (by simp)
  obtain ⟨rfl, rfl⟩ := Prod.mk.inj (Option.some.inj (hrun'.symm.trans hrun))
  have hperm := hP.perm_blocksFrom hI h0 hadj
  have hall : (heldBlocks ((headPage C, count) :: held)).Subperm ((C ++ L).map blockKey) := by
    rw [heldBlocks, List.flatMap_cons, List.map_append]
    exact hperm.symm.subperm.append hsub
  refine ⟨⟨List.forall_mem_cons.2 ⟨hc, hnz⟩, _, _, hP.inv, hall⟩, ?_, fun r hr => ?_⟩
  · refine (hP.inv.range_out hc fun x hx => hall.subset ?_).2.2.1
    rw [heldBlocks, List.flatMap_cons]
    exact List.mem_append_left _ hx
  · exact hP.apart hI hc (hnz r hr) hperm.symm.subset fun x hx =>
      hsub.subset (List.mem_flatMap.2 ⟨r, hr, hx⟩)

theorem append_diff_self {α : Type*} [BEq α] [LawfulBEq α] (l l' : List α) : (l ++ l').diff l = l' := by
  induction l with
  | nil => rfl
  | cons x l ih => rw [List.cons_append, List.diff_cons, List.erase_cons_head, ih]

theorem BuddyOwned.free {r : ℕ × ℕ} (hown : BuddyOwned A s held) (hr : r ∈ held)
    (hrun : pmmFreePages r.1 0 r.2 s = some s') : BuddyOwned A s' (held.erase r) := by
  obtain ⟨hnz, F, L, hI, hsub⟩ := hown
  have hperm : (heldBlocks held).Perm (blocksFrom r.1 0 r.2 ++ heldBlocks (held.erase r)) :=
    (List.perm_cons_erase hr).flatMap_right _
  have hsub' := hperm.symm.subperm.trans hsub
  have hthis : (blocksFrom r.1 0 r.2).Subperm (L.map blockKey) :=
    (List.sublist_append_left ..).subperm.trans hsub'
  obtain ⟨C, -, -, -, t, F', -, hrun', -, hI'⟩ := hI.frees (hnz r hr) hthis
  obtain rfl := Option.some.inj (hrun'.symm.trans hrun)
  have houts : (L.map blockKey).diff (blocksFrom r.1 0 r.2) = (L.diff C).map blockKey := hI'.outs
  refine ⟨fun q hq => hnz q (List.mem_of_mem_erase hq), F', L.diff C, houts ▸ hI', ?_⟩
  have hrest := hsub'.diff_right (blocksFrom r.1 0 r.2)
  rwa [append_diff_self, houts] at hrest

/-- **The buddy allocator keeps the contract** of the heap. -/
theorem buddyPages_contract (h0 : 0 ∉ A) : PageContract buddyPages (BuddyOwned A) AdjacentFree where
  together_one s chain _ hle a := by
    cases hrec : freeRecords chain 0 with
    | nil => exact absurd hle (by simp [hrec])
    | cons i l => simp [pmmFreeTargets]
  alloc hown hadj hrun haddr := hown.alloc h0 hadj hrun haddr
  alloc_zero hrun := (Prod.mk.inj (Option.some.inj hrun)).1.symm
  alloc_null := by
    rintro s s' held count ⟨-, F, L, hI, -⟩ hrun
    by_cases hc : count = 0
    · subst hc
      exact (Prod.mk.inj (Option.some.inj hrun)).2.symm
    · rcases hI.allocPages_cases h0 hc (hI.inv.available_iff.2 rfl) with
        ⟨-, B, C, t, hrun', hP⟩ | ⟨-, hrun'⟩
      · exact absurd (Prod.mk.inj (Option.some.inj (hrun'.symm.trans hrun))).1 hP.nonzero
      · have hrun : pmmAllocPages 0 count s = some (0, s') := hrun
        rw [hrun'] at hrun
        split at hrun
        · exact (Prod.mk.inj (Option.some.inj hrun)).2.symm
        · exact absurd hrun (by simp)
  free hown hr hrun := hown.free hr hrun

end Owned

end Flopperating
