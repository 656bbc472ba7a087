/-
# What an allocation has room for

An object of at most a page gets the blocks that the call marks in a box
(`InMarkedBlock`), a larger one the pages that the call takes off the free lists
(`InTakenPage`).  Small objects always fit into their blocks.  Large ones fit
into their pages when the number of pages does not wrap in 32 bits and the pages
lie one after the other from the first one on (`CoverFree`); the free lists are
stacks, so right after boot they do not.

`kcalloc` computes its size as a product in 32 bits, and has room for its array
when that product does not wrap, too (`kmalloc_covers_iff`,
`kmalloc_too_short`).
-/

import Flopperating.Mem.HeapServe

namespace Flopperating

open ByteMemory Bitmap DyadicBlocks LinkedList LinearProbing Transition

/-- Byte `x` lies in a block that is marked after the call and, in a box that was
there before, was not marked then. -/
def InMarkedBlock {pa : PageAllocator} (h h' : Heap pa) (x : ℕ) : Prop :=
  ∃ l l', Chain h.next h.boxes l ∧ Chain h'.next h'.boxes l' ∧ ∃ b ∈ l', ∃ i < (h'.box b).totalBlocks,
    (Extent.mk ((h'.box b).dataPointer + i * blockSize) blockSize).Has x ∧
    bit (h'.box b).map i = true ∧ (b ∈ l → bit (h.box b).map i = false)

/-- Byte `x` lies in a page that the call took off the free lists. -/
def InTakenPage (h h' : Heap buddyPages.traced) (x : ℕ) : Prop :=
  x ∈ covered h.pageState ∧ x ∉ covered h'.pageState

/-- Byte `x` is memory that a call for `size` bytes has reserved. -/
def ReservedBy (size : ℕ) (h h' : Heap buddyPages.traced) (x : ℕ) : Prop :=
  if size ≤ pageSize then InMarkedBlock h h' x else InTakenPage h h' x

/-- An object that `kmalloc` returns fits, with its header, into what was reserved. -/
def KmallocCovers (h : Heap buddyPages.traced) (size : ℕ) : Prop :=
  ∀ p h', kmalloc size h = some (p, h') → p ≠ 0 →
    ∀ x, p - objectAlign ≤ x → x < p + size → ReservedBy size h h' x

/-- An array that `kcalloc` returns fits into what was reserved. -/
def KcallocCovers (h : Heap buddyPages.traced) (n s : ℕ) : Prop :=
  ∀ p h', kcalloc n s h = some (p, h') → p ≠ 0 →
    ∀ x, p ≤ x → x < p + n * s → ReservedBy (u32 (n * s)) h h' x

/-- The first `count` free blocks cover `count` pages from the first of them on. -/
def CoverFree (count : ℕ) (s : BuddyAllocator) : Prop :=
  ∀ chain, FreeLists s chain → count ≤ (freeRecords chain 0).length → ∀ i < count,
    ∃ j ∈ (freeRecords chain 0).take count,
      (((freeRecords chain 0).take count).map fun j => (s.pageInfo j).address).headD 0 + i * pageSize ∈
        blockRange (s.pageInfo j).address (s.pageInfo j).order

/-! ### Pages -/

section Pages

variable {A : Finset ℕ} {s s' : BuddyAllocator} {F : Finset Block} {L B C : List Block} {count : ℕ}
  {outs : List (ℕ × ℕ)}

/-- The bytes of the blocks that are taken leave the free lists. -/
theorem PagesTaken.left_iff (hP : PagesTaken A s F L count B C s') (hI : PmmInv A ⟨s, outs⟩ F L) {x : ℕ} :
    (x ∈ covered s ∧ x ∉ covered s') ↔ ∃ b ∈ B, x / pageSize ∈ b.pages := by
  rw [mem_covered_iff hI.inv, mem_covered_iff hP.inv.inv]
  constructor
  · rintro ⟨⟨b, hb, hx⟩, hno⟩
    refine ⟨b, ?_, hx⟩
    by_contra hbB
    exact hno ⟨b, Finset.mem_sdiff.2 ⟨hb, by simpa using hbB⟩, hx⟩
  · rintro ⟨b, hb, hx⟩
    have hbF := (hP.take.taken b hb).1
    refine ⟨⟨b, hbF, hx⟩, ?_⟩
    rintro ⟨c, hc, hxc⟩
    obtain ⟨hcF, hcB⟩ := Finset.mem_sdiff.1 hc
    obtain rfl := hI.inv.tiling.eq_of_mem (hI.inv.mem_of_free hbF) (hI.inv.mem_of_free hcF) hx hxc
    exact hcB (List.mem_toFinset.2 hb)

/-- The record of a free block carries its order. -/
theorem PmmInv.record_order (hI : PmmInv A ⟨s, outs⟩ F L) {chain : ℕ → List ℕ} (hchain : FreeLists s chain)
    {b : Block} (hb : b ∈ F) {j : ℕ} (hj : j ∈ freeRecords chain 0)
    (haddr : (s.pageInfo j).address = b.base * pageSize) : (s.pageInfo j).order = b.order := by
  obtain ⟨k, hk, hjk⟩ := List.mem_flatMap.1 hj
  have hkm := (List.mem_range'_1.1 hk).2
  have hbase := hI.inv.address_of_mem (hchain k (by omega)) hjk
  have he : b.base = s.baseFrame + j :=
    Nat.eq_of_mul_eq_mul_right (show 0 < pageSize by decide) (haddr.symm.trans hbase)
  have hlinked := (hI.inv.linked b hb).2
  rwa [BuddyAllocator.frame, he, Nat.add_sub_cancel_left] at hlinked

/-- The blocks taken are those of the first records. -/
theorem PagesTaken.blocks_iff (hP : PagesTaken A s F L count B C s') (hI : PmmInv A ⟨s, outs⟩ F L)
    (h0 : 0 ∉ A) {chain : ℕ → List ℕ} (hchain : FreeLists s chain) {x : ℕ} :
    (∃ b ∈ B, x / pageSize ∈ b.pages) ↔ ∃ j ∈ (freeRecords chain 0).take count,
      x ∈ blockRange (s.pageInfo j).address (s.pageInfo j).order := by
  have hbases : (B.map fun b => b.base * pageSize) =
      ((freeRecords chain 0).take count).map fun j => (s.pageInfo j).address := by
    have hmul := congrArg (List.map (· * pageSize)) hP.take.bases
    rw [List.map_map, List.map_map] at hmul
    exact hmul.symm.trans (hP.records hI h0 hchain)
  have hrange : ∀ b ∈ B, ∀ j ∈ (freeRecords chain 0).take count,
      (s.pageInfo j).address = b.base * pageSize →
      (x / pageSize ∈ b.pages ↔ x ∈ blockRange (s.pageInfo j).address (s.pageInfo j).order) :=
    fun b hb j hj he => by
      rw [hI.record_order hchain (hP.take.taken b hb).1 (List.mem_of_mem_take hj) he, he]
      exact mem_blockRange_blockKey.symm
  constructor
  · rintro ⟨b, hb, hx⟩
    have hmem := List.mem_map_of_mem (f := fun b : Block => b.base * pageSize) hb
    rw [hbases] at hmem
    obtain ⟨j, hj, he⟩ := List.mem_map.1 hmem
    exact ⟨j, hj, (hrange b hb j hj he).1 hx⟩
  · rintro ⟨j, hj, hx⟩
    have hmem := List.mem_map_of_mem (f := fun j => (s.pageInfo j).address) hj
    rw [← hbases] at hmem
    obtain ⟨b, hb, he⟩ := List.mem_map.1 hmem
    exact ⟨b, hb, (hrange b hb j hj he.symm).2 hx⟩

/-- The pages from the first one on are covered by what was taken. -/
theorem PagesTaken.coverFree_iff (hP : PagesTaken A s F L count B C s') (hI : PmmInv A ⟨s, outs⟩ F L)
    (h0 : 0 ∉ A) : CoverFree count s ↔
      ∀ i < count, ∃ b ∈ B, (headPage C + i * pageSize) / pageSize ∈ b.pages := by
  have hhead : ∀ chain, FreeLists s chain → headPage C =
      (((freeRecords chain 0).take count).map fun j => (s.pageInfo j).address).headD 0 :=
    fun chain hchain => congrArg (fun l : List ℕ => l.headD 0) (hP.records hI h0 hchain)
  constructor
  · intro hcover i hi
    choose chain hchain _ using hI.inv.lists
    have hlists : FreeLists s chain := fun k _ => hchain k
    have hlen := congrArg List.length (hP.records hI h0 hlists)
    rw [List.length_map, hP.length, List.length_map, List.length_take] at hlen
    rw [hP.blocks_iff hI h0 hlists, hhead chain hlists]
    exact hcover chain hlists (by omega) i hi
  · intro hcover chain hchain _ i hi
    rw [← hhead chain hchain, ← hP.blocks_iff hI h0 hchain]
    exact hcover i hi

/-- **When bytes behind the first page are covered**: from its start, or from behind the header, on,
up to `len` bytes behind the header. -/
theorem PagesTaken.covers_iff (hP : PagesTaken A s F L count B C s') (hI : PmmInv A ⟨s, outs⟩ F L)
    (h0 : 0 ∉ A) {lo len : ℕ} (hlo : lo ≤ objectAlign) (hlen : 0 < len) (hcount : count ≠ 0)
    (hpages : count = (len + 4 + 4095) / 4096) :
    (∀ x, headPage C + lo ≤ x → x < headPage C + objectAlign + len → x ∈ covered s ∧ x ∉ covered s') ↔
      CoverFree count s := by
  obtain ⟨c, C', rfl⟩ : ∃ c C', C = c :: C' := by
    cases C with
    | nil => exact absurd hP.length.symm hcount
    | cons c C' => exact ⟨c, C', rfl⟩
  have hhead : headPage (c :: C') = c.base * pageSize := rfl
  rw [hP.coverFree_iff hI h0]
  constructor
  · intro hcov i hi
    have hx := hcov (headPage (c :: C') + i * pageSize + if i = 0 then objectAlign else 0)
      (by simp only [objectAlign, pageSize] at *; split <;> omega)
      (by simp only [objectAlign, pageSize] at *; split <;> omega)
    rw [hP.left_iff hI] at hx
    rwa [show (headPage (c :: C') + i * pageSize + if i = 0 then objectAlign else 0) / pageSize =
      (headPage (c :: C') + i * pageSize) / pageSize by
        rw [hhead]
        simp only [objectAlign, pageSize]
        split <;> omega] at hx
  · intro hcov x hx hx'
    rw [hP.left_iff hI]
    obtain ⟨b, hb, hmem⟩ := hcov ((x - headPage (c :: C')) / pageSize)
      (by simp only [objectAlign, pageSize] at *; omega)
    refine ⟨b, hb, ?_⟩
    rwa [show (headPage (c :: C') + (x - headPage (c :: C')) / pageSize * pageSize) / pageSize =
      x / pageSize by
        rw [hhead] at hx ⊢
        simp only [pageSize] at *
        omega] at hmem

/-- The pages on the free lists lie below 4 GiB. -/
theorem PmmInv.lt_of_covered (hI : PmmInv A ⟨s, outs⟩ F L) {x : ℕ} (hx : x ∈ covered s) : x < 2 ^ 32 := by
  obtain ⟨b, hb, hmem⟩ := (mem_covered_iff hI.inv).1 hx
  have hlt := (hI.inv.index _ (hI.inv.tiling.subset b (hI.inv.mem_of_free hb) hmem)).1
  simp only [pageSize] at hlt
  omega

end Pages

/-! ### Objects -/

section Objects

variable {A : Finset ℕ} {h h' : Heap buddyPages.traced} {live : List (ℕ × ℕ)} {l : List ℕ}
  {m p size : ℕ}

/-- **A large object** is covered, from its start or from behind its header on, when the number of its
pages does not wrap and the first free blocks cover them. -/
theorem HeapInv.large_covers_iff (h0 : 0 ∉ A) (hI : HeapInv (BuddyOwned A) h live l)
    (hav : Available h.pageState 0 m) (hs : pageSize < size) (hlt : size < 2 ^ 32)
    (hserves : KmallocServes h l m size) : ∃ p h', objectAlign < p ∧ kmalloc size h = some (p, h') ∧
      (∀ x, InTakenPage h h' x → x < 2 ^ 32) ∧
      ∀ lo ≤ objectAlign, (∀ x, p - objectAlign + lo ≤ x → x < p + size → InTakenPage h h' x) ↔
        size + 3 < 2 ^ 32 ∧ CoverFree (neededPages size) h.pageState := by
  obtain ⟨hne, hserves⟩ := hserves
  rw [if_pos hs] at hserves
  obtain ⟨hc, hle⟩ := hserves
  obtain ⟨-, F, L, hP, -⟩ := hI.owned
  rcases hP.allocPages_cases h0 hc hav with ⟨-, B, C, t, halloc, hT⟩ | ⟨hno, -⟩
  swap
  · exact absurd hle (Nat.not_le.2 hno)
  have hrun : kmalloc size h = some (headPage C + objectAlign, ({ h with pages :=
      ⟨t, (headPage C, neededPages size) :: h.held, h.returned⟩ } : Heap buddyPages.traced).writeObject
        (headPage C) 0 size) := by
    have htraced : buddyPages.traced.allocPages (neededPages size) h.pages =
        some (headPage C, ⟨t, (headPage C, neededPages size) :: h.held, h.returned⟩) :=
      Option.map_eq_some_iff.2 ⟨_, halloc, by simp only [if_neg hT.nonzero]; rfl⟩
    rw [kmalloc, if_neg hne, if_pos hs, kmallocLarge, htraced, Option.map_some]
    simp only [if_neg hT.nonzero]
  refine ⟨_, _, Nat.lt_add_of_pos_left (Nat.pos_of_ne_zero hT.nonzero), hrun,
    fun x hx => hP.lt_of_covered hx.1, fun lo hlo => ?_⟩
  rw [Nat.add_sub_cancel]
  by_cases hwrap : size + 3 < 2 ^ 32
  · rw [and_iff_right hwrap]
    refine hT.covers_iff hP h0 hlo (Nat.zero_lt_of_lt hs) hc ?_
    simp only [neededPages, u32, objectAlign, pageSize] at hc ⊢
    omega
  · -- the last byte would lie past 4 GiB
    refine iff_of_false (fun hcov => ?_) fun h => hwrap h.1
    have hpos := Nat.pos_of_ne_zero hT.nonzero
    have hlast := hP.lt_of_covered (hcov (headPage C + objectAlign + size - 1)
      (by simp only [pageSize, objectAlign] at *; omega) (by omega)).1
    simp only [objectAlign] at hlast
    omega

/-- **A small object** is covered by the blocks that were marked for it, which lie below 4 GiB. -/
theorem HeapInv.small_covered (h0 : 0 ∉ A) (hI : HeapInv (BuddyOwned A) h live l) (hst : Started h l)
    (hs : size ≤ pageSize) (hrun : kmalloc size h = some (p, h')) (hp : p ≠ 0) :
    (∀ x, InMarkedBlock h h' x → x < 2 ^ 32) ∧
      ∀ x, p - objectAlign ≤ x → x < p + size → InMarkedBlock h h' x := by
  obtain ⟨l', hout, -⟩ := hI.kmalloc_spec (buddyPages_contract h0) hst (.inl hs) hrun
  cases hout with
  | null => exact absurd rfl hp
  | object _ hI' _ _ =>
    constructor
    · rintro x ⟨l₁, l₂, -, hl₂, b, hb, i, hi, hx, -⟩
      obtain rfl := hI'.chain.unique hl₂
      obtain ⟨-, hdata, htotal⟩ := hI'.formed b hb
      have hle := (hI'.valid _ (hI'.box_mem hb)).2
      rw [htotal, blocksPerBox_eq] at hi
      simp only [Extent.Has, hdata, boxData, sizeofBox, mapBytes, blocksPerBox_eq, blockSize, pageSize] at *
      omega
    · intro x hx hx'
      obtain ⟨-, b, hb, k, hpk, hk, -⟩ := (hI'.placed _ List.mem_cons_self).resolve_right fun h =>
        absurd h.1 (Nat.not_lt.2 hs)
      have hroom := hI'.room _ List.mem_cons_self
      rw [reserved_small hs] at hroom
      simp only at hpk hk hroom
      obtain ⟨-, hdata, htotal⟩ := hI'.formed b hb
      obtain ⟨i, hi, hin⟩ : ∃ i, (k ≤ i ∧ i < k + neededBlocks size) ∧
          (Extent.mk (blockAddr b i) blockSize).Has x := by
        refine ⟨(x - blockAddr b 0) / blockSize, ?_⟩
        simp only [Extent.Has, blockAddr_eq, objectAlign, blockSize] at *
        omega
      have hhas : (reserved (p, size)).Has (blockAddr b i) := by
        rw [hpk]
        exact (reserved_objectAt (b := b) (k := k) hs) ▸ has_blockAddr_iff.2 hi
      have hi' : i < blocksPerBox := by omega
      have hi₈ : i < 8 * mapBytes := by simp only [mapBytes, blocksPerBox_eq] at *; omega
      refine ⟨l, l', hI.chain, hI'.chain, b, hb, i, htotal ▸ hi', ?_,
        (hI'.bits b hb i hi₈).2 ⟨hi', _, List.mem_cons_self, hhas⟩, fun hbl => ?_⟩
      · rwa [hdata]
      · by_contra hset
        obtain ⟨-, o, ho, hhas'⟩ := (hI.bits b hbl i hi₈).1 (Bool.not_eq_false _ ▸ hset)
        exact ((List.pairwise_cons.1 hI'.apart).1 o ho).not_has hhas hhas'

/-- Only a call that is served returns an object. -/
theorem HeapInv.serves_of_run (h0 : 0 ∉ A) (hI : HeapInv (BuddyOwned A) h live l) (hst : Started h l)
    (hH : Hashed h l) (hav : Available h.pageState 0 m) (hrun : kmalloc size h = some (p, h'))
    (hp : p ≠ 0) : KmallocServes h l m size := by
  cases hI.kmallocCase h0 hst hH hav size with
  | object hserves => exact hserves
  | null _ _ _ hrun' => exact absurd (Prod.mk.inj (Option.some.inj (hrun.symm.trans hrun'))).1 hp
  | tooSmall _ _ _ _ g hrun' =>
    exact absurd (Prod.mk.inj (Option.some.inj (hrun.symm.trans hrun'))).1 hp
  | hangs _ hrun' => exact absurd (hrun.symm.trans hrun') (by simp)

/-- An object of this size fits into what is reserved for it. -/
def SizeFits (h : Heap buddyPages.traced) (size : ℕ) : Prop :=
  size ≤ pageSize ∨ size + 3 < 2 ^ 32 ∧ CoverFree (neededPages size) h.pageState

theorem HeapInv.kmallocCovers_iff (h0 : 0 ∉ A) (hI : HeapInv (BuddyOwned A) h live l) (hst : Started h l)
    (hH : Hashed h l) (hav : Available h.pageState 0 m) (hlt : size < 2 ^ 32) :
    KmallocCovers h size ↔ ¬ KmallocServes h l m size ∨ SizeFits h size := by
  by_cases hserves : KmallocServes h l m size
  swap
  · refine iff_of_true (fun p h' hrun hp => ?_) (.inl hserves)
    exact absurd (hI.serves_of_run h0 hst hH hav hrun hp) hserves
  rw [or_iff_right (not_not.2 hserves), SizeFits]
  rcases Nat.lt_or_ge pageSize size with hs | hs
  · obtain ⟨p, h', hp, hrun, -, hcov⟩ := hI.large_covers_iff h0 hav hs hlt hserves
    have hp := Nat.ne_zero_of_lt hp
    rw [or_iff_right (Nat.not_le.2 hs), ← hcov 0 (Nat.zero_le _)]
    constructor
    · intro h x hx hx'
      have hres := h p h' hrun hp x hx hx'
      rwa [ReservedBy, if_neg (Nat.not_le.2 hs)] at hres
    · intro h q g hrun' _ x hx hx'
      obtain ⟨rfl, rfl⟩ := Prod.mk.inj (Option.some.inj (hrun.symm.trans hrun'))
      rw [ReservedBy, if_neg (Nat.not_le.2 hs)]
      exact h x hx hx'
  · refine iff_of_true (fun p h' hrun hp x hx hx' => ?_) (.inl hs)
    rw [ReservedBy, if_pos hs]
    exact (hI.small_covered h0 hst hs hrun hp).2 x hx hx'

/-- What `kcalloc` leaves is what `kmalloc` leaves, but for the bytes of the array. -/
theorem kcallocCovers_iff_kmalloc {n s : ℕ} : KcallocCovers h n s ↔
    ∀ p h', kmalloc (u32 (n * s)) h = some (p, h') → p ≠ 0 →
      ∀ x, p ≤ x → x < p + n * s → ReservedBy (u32 (n * s)) h h' x := by
  constructor
  · intro hcov p h' hrun hp
    refine hcov p { h' with mem := fill h'.mem p 0 (u32 (n * s)) } ?_ hp
    rw [kcalloc, hrun, Option.map_some]
    simp only [if_neg hp]
  · intro hcov p g hrun hp
    obtain ⟨⟨q, h'⟩, hkm, he⟩ := Option.map_eq_some_iff.1 hrun
    obtain ⟨rfl, rfl⟩ := Prod.mk.inj he
    have hres := hcov q h' hkm hp
    rw [if_neg hp]
    exact hres

theorem HeapInv.kcallocCovers_iff (h0 : 0 ∉ A) (hI : HeapInv (BuddyOwned A) h live l) (hst : Started h l)
    (hH : Hashed h l) (hav : Available h.pageState 0 m) (n s : ℕ) : KcallocCovers h n s ↔
      ¬ KmallocServes h l m (u32 (n * s)) ∨ n * s < 2 ^ 32 ∧ SizeFits h (n * s) := by
  rw [kcallocCovers_iff_kmalloc]
  by_cases hserves : KmallocServes h l m (u32 (n * s))
  swap
  · refine iff_of_true (fun p h' hrun hp => ?_) (.inl hserves)
    exact absurd (hI.serves_of_run h0 hst hH hav hrun hp) hserves
  rw [or_iff_right (not_not.2 hserves)]
  have hlt : u32 (n * s) < 2 ^ 32 := Nat.mod_lt _ (by decide)
  have hpos : 0 < u32 (n * s) := Nat.pos_of_ne_zero hserves.1
  -- with a product that wraps the last byte would lie past 4 GiB
  have hwrap : ∀ p h', p ≠ 0 → (∀ x, ReservedBy (u32 (n * s)) h h' x → x < 2 ^ 32) →
      (∀ x, p ≤ x → x < p + n * s → ReservedBy (u32 (n * s)) h h' x) → n * s < 2 ^ 32 :=
    fun p h' hp hbound hcov => by
      by_contra hge
      have := hbound _ (hcov (p + n * s - 1) (by omega) (by omega))
      omega
  rcases Nat.lt_or_ge pageSize (u32 (n * s)) with hs | hs
  · obtain ⟨p, h', hheader, hrun, hbound, hcov⟩ := hI.large_covers_iff h0 hav hs hlt hserves
    have hp := Nat.ne_zero_of_lt hheader
    have hcov := hcov objectAlign le_rfl
    rw [Nat.sub_add_cancel hheader.le] at hcov
    have hlarge : ¬ u32 (n * s) ≤ pageSize := Nat.not_le.2 hs
    have hall : (∀ q g, kmalloc (u32 (n * s)) h = some (q, g) → q ≠ 0 →
        ∀ x, q ≤ x → x < q + n * s → ReservedBy (u32 (n * s)) h g x) ↔
        ∀ x, p ≤ x → x < p + n * s → ReservedBy (u32 (n * s)) h h' x := by
      constructor
      · exact fun hall => hall p h' hrun hp
      · intro hone q g hrun' _
        obtain ⟨rfl, rfl⟩ := Prod.mk.inj (Option.some.inj (hrun.symm.trans hrun'))
        exact hone
    have hres : ∀ x, ReservedBy (u32 (n * s)) h h' x ↔ InTakenPage h h' x := fun x => by
      rw [ReservedBy, if_neg hlarge]
    rw [hall]
    constructor
    · intro hone
      have hns := hwrap p h' hp (fun x hx => hbound x ((hres x).1 hx)) hone
      have hfit := hcov.1 fun x hx hx' => (hres x).1 (hone x hx (by rwa [u32_of_lt hns] at hx'))
      rw [u32_of_lt hns] at hfit
      exact ⟨hns, .inr hfit⟩
    · rintro ⟨hns, hfit⟩ x hx hx'
      rw [SizeFits, ← u32_of_lt hns] at hfit
      refine (hres x).2 (hcov.2 (hfit.resolve_left hlarge) x hx ?_)
      rwa [u32_of_lt hns]
  · obtain ⟨p, h', hrun, hp⟩ : ∃ p h', kmalloc (u32 (n * s)) h = some (p, h') ∧ p ≠ 0 := by
      cases hI.kmallocCase h0 hst hH hav (u32 (n * s)) with
      | object _ p h' hrun hp => exact ⟨p, h', hrun, hp⟩
      | null hno => exact absurd hserves hno
      | tooSmall _ _ hno => exact absurd hserves hno
      | hangs hno => exact absurd hserves.returns hno
    have hres : ∀ g x, ReservedBy (u32 (n * s)) h g x ↔ InMarkedBlock h g x := fun g x => by
      rw [ReservedBy, if_pos hs]
    constructor
    · intro hall
      have hns := hwrap p h' hp (fun x hx => (hI.small_covered h0 hst hs hrun hp).1 x ((hres _ x).1 hx))
        (hall p h' hrun hp)
      rw [u32_of_lt hns] at hs
      exact ⟨hns, .inl hs⟩
    · rintro ⟨hns, -⟩ q g hrun' hq x hx hx'
      rw [u32_of_lt hns] at hs hrun' ⊢
      rw [ReservedBy, if_pos hs]
      exact (hI.small_covered h0 hst hs hrun' hq).2 x (by omega) hx'

/-- **When an allocation is big enough**: `kmalloc` returns no object, or one of at most a page, or
the number of pages does not wrap and the first free blocks cover the pages; and for `kcalloc` the
product does not wrap, too. -/
theorem kmalloc_covers_iff (h0 : 0 ∉ A) {σ : HeapSystem buddyPages}
    (hr : HeapReached (BuddyOwned A) AdjacentFree σ) :
    ∃ l m, Chain σ.heap.next σ.heap.boxes l ∧ Available σ.heap.pageState 0 m ∧
      (∀ size < 2 ^ 32, KmallocCovers σ.heap size ↔
        ¬ KmallocServes σ.heap l m size ∨ SizeFits σ.heap size) ∧
      ∀ n s, KcallocCovers σ.heap n s ↔
        ¬ KmallocServes σ.heap l m (u32 (n * s)) ∨ n * s < 2 ^ 32 ∧ SizeFits σ.heap (n * s) := by
  obtain ⟨l, hI, hst, hH⟩ := hr.inv (buddyPages_contract h0)
  obtain ⟨m, hav⟩ := hI.owned.exists_available
  exact ⟨l, m, hI.chain, hav, fun size hlt => hI.kmallocCovers_iff h0 hst hH hav hlt,
    fun n s => hI.kcallocCovers_iff h0 hst hH hav n s⟩

theorem zero_notMem_twoPage : 0 ∉ BootState.frames twoPageMap twoPageStart :=
  zero_notMem_frames (by decide)

/-- The first array, of 16 words. -/
theorem kmalloc_covers_booted : KcallocCovers (bootedHeap twoPageMap twoPageStart).heap 16 4 := by
  obtain ⟨l, m, -, -, -, hcalloc⟩ :=
    kmalloc_covers_iff zero_notMem_twoPage (.init bootState_twoPage.heapBoot)
  exact (hcalloc 16 4).2 (.inr ⟨by decide, .inl (by decide)⟩)

/-- **Objects that do not fit**: on two fresh pages, the largest size there is gets one page, an array
of 2 times `2^31 + 32` bytes gets 64 bytes, and an object of 8000 bytes gets the upper page and the
lower one. -/
theorem kmalloc_too_short : ∃ A, 0 ∉ A ∧
    HeapReached (BuddyOwned A) AdjacentFree (bootedHeap twoPageMap twoPageStart) ∧
    ¬ KmallocCovers (bootedHeap twoPageMap twoPageStart).heap (2 ^ 32 - 1) ∧
    ¬ KcallocCovers (bootedHeap twoPageMap twoPageStart).heap 2 (2 ^ 31 + 32) ∧
    ¬ KmallocCovers (bootedHeap twoPageMap twoPageStart).heap 8000 := by
  have hboot := bootState_twoPage.heapBoot
  have hI := hboot.toHeapStart.inv.1
  have hst := hboot.toHeapStart.inv.2
  have hH := hboot.boxesHashed.of_chain hI.chain
  have hav := bootState_twoPage.available
  have h0 := zero_notMem_twoPage
  have hcard : (BootState.frames twoPageMap twoPageStart).card = 2 := by decide
  rw [hcard] at hav
  refine ⟨_, h0, .init hboot, ?_, ?_, ?_⟩
  · rw [hI.kmallocCovers_iff h0 hst hH hav (by decide)]
    rintro (h | h | h)
    · exact h ⟨by decide, by rw [if_pos (by decide)]; exact ⟨by decide, by decide⟩⟩
    · exact absurd h (by decide)
    · exact absurd h.1 (by decide)
  · rw [hI.kcallocCovers_iff h0 hst hH hav]
    rintro (h | h)
    · refine h ((kmallocServes_small (by decide) (by decide)).2 (.inr ⟨by decide, by decide, by decide⟩))
    · exact absurd h.1 (by decide)
  · rw [hI.kmallocCovers_iff h0 hst hH hav (by decide)]
    rintro (h | h | ⟨-, h⟩)
    · exact h ⟨by decide, by rw [if_pos (by decide)]; exact ⟨by decide, by decide⟩⟩
    · exact absurd h (by decide)
    · obtain ⟨j, hj, hmem⟩ := h _ (fun k _ => chains_twoPage k) (by decide) 1 (by decide)
      have hmem : 0x102000 ∈ blockRange ((bootedHeap twoPageMap twoPageStart).heap.pageState.pageInfo j).address
          ((bootedHeap twoPageMap twoPageStart).heap.pageState.pageInfo j).order := hmem
      have hj : j ∈ [1, 0] := hj
      rcases List.mem_pair.1 hj with rfl | rfl
      · exact absurd hmem.2 (by decide)
      · exact absurd hmem.2 (by decide)

end Objects

end Flopperating
