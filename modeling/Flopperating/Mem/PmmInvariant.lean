/-
# What the buddy allocator keeps

The records of `src/mem/pmm.c` lie: a page absorbed by a merge keeps its
`is_free` mark and its order, and so does every page inside a large block that
is handed out whole.  `pmm_buddy_merge` trusts such marks.  `BuddyInv` is the
invariant that makes this safe.  It speaks about three sets of dyadic blocks of
page frames: the blocks `F` linked on the free lists, the blocks `O` handed
out, and all blocks `H` in somebody's hands, which is `F ∪ O` between calls and
one block more inside `pmm_free_block`.  The blocks of `H` tile, and every mark
is `Submerged` in them.

One lemma per move says what becomes of the three sets: `BuddyInv.link`,
`BuddyInv.unlink`, `BuddyInv.coalesce`, `BuddyInv.fetch`, `BuddyInv.unmark`.
-/

import Flopperating.Data.DyadicBlocks
import Flopperating.Mem.Pmm

namespace Flopperating

open LinkedList DyadicBlocks

/-- The page frame number `memory_base` stands for. -/
def BuddyAllocator.baseFrame (s : BuddyAllocator) : ℕ := s.memoryBase / pageSize

/-- The record of page frame `p`. -/
def BuddyAllocator.frame (s : BuddyAllocator) (p : ℕ) : Page := s.pageInfo (p - s.baseFrame)

/-- Two states that differ at most in lists, records and lock. -/
structure SameLayout (s t : BuddyAllocator) : Prop where
  pageInfoAddr : s.pageInfoAddr = t.pageInfoAddr
  totalPages : s.totalPages = t.totalPages
  memoryEnd : s.memoryEnd = t.memoryEnd
  memoryBase : s.memoryBase = t.memoryBase

theorem SameLayout.refl (s : BuddyAllocator) : SameLayout s s := ⟨rfl, rfl, rfl, rfl⟩

theorem SameLayout.trans {s t u : BuddyAllocator} (h : SameLayout s t) (h' : SameLayout t u) :
    SameLayout s u :=
  ⟨h.1.trans h'.1, h.2.trans h'.2, h.3.trans h'.3, h.4.trans h'.4⟩

theorem SameLayout.baseFrame {s t : BuddyAllocator} (h : SameLayout s t) :
    s.baseFrame = t.baseFrame := by rw [BuddyAllocator.baseFrame, h.memoryBase]; rfl

theorem SameLayout.physToPageIndex {s t : BuddyAllocator} (h : SameLayout s t) (a : ℕ) :
    physToPageIndex s a = physToPageIndex t a := by
  unfold Flopperating.physToPageIndex pageIndex
  rw [h.memoryBase, h.memoryEnd, h.totalPages]

section Updates

variable (s : BuddyAllocator) (i k : ℕ) (pg : Page) (p : Option ℕ) (f : ℕ → Option ℕ)

theorem sameLayout_setPage : SameLayout (s.setPage i pg) s := ⟨rfl, rfl, rfl, rfl⟩

theorem sameLayout_setFreeList : SameLayout (s.setFreeList k p) s := ⟨rfl, rfl, rfl, rfl⟩

theorem sameLayout_setNext : SameLayout (s.setNext f) s := ⟨rfl, rfl, rfl, rfl⟩

theorem sameLayout_pushPage : SameLayout (s.pushPage k i pg) s := ⟨rfl, rfl, rfl, rfl⟩

@[simp] theorem setPage_freeList : (s.setPage i pg).freeList = s.freeList := rfl

@[simp] theorem setFreeList_pageInfo : (s.setFreeList k p).pageInfo = s.pageInfo := rfl

@[simp] theorem setFreeList_next : (s.setFreeList k p).next = s.next := rfl

@[simp] theorem setNext_next : (s.setNext f).next = f := rfl

@[simp] theorem setNext_freeList : (s.setNext f).freeList = s.freeList := rfl

@[simp] theorem setPage_lock : (s.setPage i pg).lock = s.lock := rfl

@[simp] theorem setFreeList_lock : (s.setFreeList k p).lock = s.lock := rfl

@[simp] theorem setNext_lock : (s.setNext f).lock = s.lock := rfl

@[simp] theorem pushPage_lock : (s.pushPage k i pg).lock = s.lock := rfl

theorem setPage_next : (s.setPage i pg).next = Function.update s.next i pg.next := by
  funext j
  by_cases h : j = i
  · subst h; simp [BuddyAllocator.next, BuddyAllocator.setPage]
  · simp [BuddyAllocator.next, BuddyAllocator.setPage, h]

theorem setPage_next_of_eq (h : pg.next = s.next i) : (s.setPage i pg).next = s.next := by
  rw [setPage_next, h, Function.update_eq_self]

theorem pushPage_next : (s.pushPage k i pg).next = Function.update s.next i (s.freeList k) :=
  setPage_next s i { pg with next := s.freeList k }

@[simp] theorem pushPage_freeList :
    (s.pushPage k i pg).freeList = Function.update s.freeList k (some i) := rfl

@[simp] theorem setPage_pageInfo_self : (s.setPage i pg).pageInfo i = pg :=
  Function.update_self ..

@[simp] theorem pushPage_pageInfo_self :
    (s.pushPage k i pg).pageInfo i = { pg with next := s.freeList k } :=
  Function.update_self ..

variable {i} {j k' : ℕ}

@[simp] theorem setFreeList_freeList_self : (s.setFreeList k p).freeList k = p :=
  Function.update_self ..

theorem setFreeList_freeList_of_ne (h : k' ≠ k) : (s.setFreeList k p).freeList k' = s.freeList k' :=
  Function.update_of_ne h ..

theorem setPage_pageInfo_of_ne (h : j ≠ i) : (s.setPage i pg).pageInfo j = s.pageInfo j :=
  Function.update_of_ne h ..

theorem pushPage_pageInfo_of_ne (h : j ≠ i) : (s.pushPage k i pg).pageInfo j = s.pageInfo j :=
  Function.update_of_ne h ..

end Updates

/-! ### Addresses of page frames -/

/-- The record of a page-aligned address, read backwards. -/
theorem physToPageIndex_eq_some {s : BuddyAllocator} {p i : ℕ} (hbase : pageSize ∣ s.memoryBase)
    (hp : p < 2 ^ 20) (h : physToPageIndex s (p * pageSize) = some i) :
    p = s.baseFrame + i ∧ i < s.totalPages := by
  obtain ⟨b, hb⟩ := hbase
  have hbf : s.baseFrame = b := by
    rw [BuddyAllocator.baseFrame, hb, Nat.mul_div_cancel_left _ (by decide)]
  simp only [physToPageIndex, pageIndex, u32, hb, pageSize] at h
  split_ifs at h with h₁ h₂
  rw [Option.some.injEq] at h
  simp only [not_or, not_lt, ge_iff_le, not_le] at h₁ h₂
  have hle : b ≤ p := by omega
  have hmod : (p * 4096 + 2 ^ 32 - 4096 * b) % 2 ^ 32 = (p - b) * 4096 := by omega
  rw [hmod, Nat.mul_div_cancel _ (by decide)] at h h₂
  omega

/-- Flipping the size bit of an address flips it in the frame number. -/
theorem pmmGetBuddyAddress_frame (p : ℕ) {k : ℕ} (hk : k < 20) :
    pmmGetBuddyAddress (p * pageSize) k = (p ^^^ 2 ^ k) * pageSize := by
  have hlt : 2 ^ k * pageSize < 2 ^ 32 := by
    have : (2 : ℕ) ^ k < 2 ^ 20 := Nat.pow_lt_pow_right (by norm_num) hk
    simp only [pageSize]; omega
  have hk' : (2 : ℕ) ^ k < 2 ^ 32 := Nat.pow_lt_pow_right (by norm_num) (by omega)
  rw [pmmGetBuddyAddress, u32_of_lt hk', u32_of_lt hlt]
  have := Nat.shiftLeft_xor_distrib (i := 12) (a := p) (b := 2 ^ k)
  simp only [Nat.shiftLeft_eq] at this
  exact this.symm

/-! ### The invariant -/

/-- The invariant of the buddy allocator over the added frames `A`: the blocks
`F` are those on the free lists, the blocks `O` those handed out, and `H` all
that are in somebody's hands. -/
structure BuddyInv (A : Finset ℕ) (s : BuddyAllocator) (F O H : Finset Block) : Prop where
  /-- `memory_base` is page-aligned. -/
  base : pageSize ∣ s.memoryBase
  /-- Every added frame has a record, and none is the last frame. -/
  index : ∀ p ∈ A, p < 2 ^ 20 - 1 ∧
    physToPageIndex s (p * pageSize) = some (p - s.baseFrame)
  /-- The record of an added frame holds its address. -/
  address : ∀ p ∈ A, (s.frame p).address = p * pageSize
  /-- The free lists end in `NULL` and hold the blocks of `F`, by order. -/
  lists : ∀ k, ∃ l, Chain s.next (s.freeList k) l ∧
    ∀ i, i ∈ l ↔ ∃ b ∈ F, b.order = k ∧ b.base = s.baseFrame + i
  /-- Linked blocks are marked free with their order. -/
  linked : ∀ b ∈ F, (s.frame b.base).isFree ≠ 0 ∧ (s.frame b.base).order = b.order
  /-- Blocks handed out are marked used and carry their order. -/
  used : ∀ b ∈ O, (s.frame b.base).isFree = 0 ∧ (s.frame b.base).order = b.order
  /-- The blocks in somebody's hands. -/
  held : F ∪ O ⊆ H
  /-- They tile. -/
  tiling : Tiling A H
  /-- Every mark names a block of added frames and is harmless. -/
  marks : ∀ i < s.totalPages, (s.pageInfo i).isFree ≠ 0 →
    ∃ c : Block, c.base = s.baseFrame + i ∧ c.order = (s.pageInfo i).order ∧ c.pages ⊆ A ∧
      Submerged H c

namespace BuddyInv

variable {A : Finset ℕ} {s t : BuddyAllocator} {F O H : Finset Block} {b h : Block}

theorem base_mem (hI : BuddyInv A s F O H) (hb : b ∈ H) : b.base ∈ A :=
  hI.tiling.subset b hb b.base_mem_pages

theorem mem_of_free (hI : BuddyInv A s F O H) (hb : b ∈ F) : b ∈ H :=
  hI.held (Finset.mem_union_left _ hb)

theorem mem_of_out (hI : BuddyInv A s F O H) (hb : b ∈ O) : b ∈ H :=
  hI.held (Finset.mem_union_right _ hb)

theorem disjoint_free_out (hI : BuddyInv A s F O H) : Disjoint F O :=
  Finset.disjoint_left.2 fun b hF hO => (hI.linked b hF).1 (hI.used b hO).1

/-- The record of an added frame, forwards. -/
theorem frame_spec (hI : BuddyInv A s F O H) {p : ℕ} (hp : p ∈ A) :
    p < 2 ^ 20 - 1 ∧ p = s.baseFrame + (p - s.baseFrame) ∧ p - s.baseFrame < s.totalPages := by
  obtain ⟨hlt, hidx⟩ := hI.index p hp
  have := physToPageIndex_eq_some hI.base (by omega) hidx
  exact ⟨hlt, this.1, this.2⟩

/-- Blocks in hand with one record are one block. -/
theorem eq_of_base_eq (hI : BuddyInv A s F O H) {c : Block} (hb : b ∈ H) (hc : c ∈ H)
    (he : b.base = c.base) : b = c :=
  hI.tiling.eq_of_mem hb hc b.base_mem_pages (he ▸ c.base_mem_pages)

/-- The record indices of two blocks in hand differ. -/
theorem index_ne (hI : BuddyInv A s F O H) {c : Block} (hb : b ∈ H) (hc : c ∈ H) (hne : b ≠ c) :
    b.base - s.baseFrame ≠ c.base - s.baseFrame := by
  intro he
  have hb' := (hI.frame_spec (hI.base_mem hb)).2.1
  have hc' := (hI.frame_spec (hI.base_mem hc)).2.1
  exact hne (hI.eq_of_base_eq hb hc (by omega))

/-- A block of added frames fits into the records. -/
theorem size_le (hI : BuddyInv A s F O H) (hA : b.pages ⊆ A) : 2 ^ b.order ≤ s.totalPages := by
  have hpos := Nat.two_pow_pos b.order
  have h₁ := hI.frame_spec (hA b.base_mem_pages)
  have h₂ := hI.frame_spec (p := b.base + (2 ^ b.order - 1))
    (hA (Block.mem_pages.2 ⟨by omega, by omega⟩))
  omega

/-- **No block of added frames has order 20**: it would hold the last frame. -/
theorem order_lt (hI : BuddyInv A s F O H) (hA : b.pages ⊆ A) : b.order < 20 := by
  by_contra hle
  have hpow : 2 ^ 20 ≤ 2 ^ b.order := Nat.pow_le_pow_right (by norm_num) (by omega)
  have hbase := (hI.frame_spec (hA b.base_mem_pages)).1
  have hzero : b.base = 0 := by
    by_contra h0
    have := Nat.le_of_dvd (Nat.pos_of_ne_zero h0) b.aligned
    omega
  have := (hI.frame_spec (p := 2 ^ 20 - 1) (hA (Block.mem_pages.2 ⟨by omega, by omega⟩))).1
  omega

/-- The list of one order and the record indices on it. -/
theorem index_mem_iff (hI : BuddyInv A s F O H) {k : ℕ} {l : List ℕ}
    (hl : ∀ i, i ∈ l ↔ ∃ b ∈ F, b.order = k ∧ b.base = s.baseFrame + i) (hb : b ∈ H) :
    b.base - s.baseFrame ∈ l ↔ b ∈ F ∧ b.order = k := by
  have hb' := (hI.frame_spec (hI.base_mem hb)).2.1
  rw [hl]
  constructor
  · rintro ⟨c, hc, hk, he⟩
    obtain rfl : c = b := hI.eq_of_base_eq (hI.mem_of_free hc) hb (by omega)
    exact ⟨hc, hk⟩
  · rintro ⟨hF, hk⟩
    exact ⟨b, hF, hk, hb'⟩

/-- Taking blocks out of somebody's hands. -/
theorem drop (hI : BuddyInv A s F O H) {F' O' H' : Finset Block} (hF : F' = F) (hO : O' ⊆ O)
    (hH : H' ⊆ H) (hheld : F' ∪ O' ⊆ H') : BuddyInv A s F' O' H' := by
  subst hF
  exact
    { base := hI.base, index := hI.index, address := hI.address, lists := hI.lists
      linked := hI.linked, used := fun b hb => hI.used b (hO hb), held := hheld
      tiling := hI.tiling.mono hH
      marks := fun i hi hf => by
        obtain ⟨c, h₁, h₂, h₃, h₄⟩ := hI.marks i hi hf
        exact ⟨c, h₁, h₂, h₃, h₄.mono hH⟩ }

/-- Nothing depends on the lock. -/
theorem of_lock (hI : BuddyInv A s F O H) (v : Bool) :
    BuddyInv A { s with lock := v } F O H :=
  ⟨hI.base, hI.index, hI.address, hI.lists, hI.linked, hI.used, hI.held, hI.tiling, hI.marks⟩

/-- **Linking**: a block in hand that nobody else has goes on the list of its
order. -/
theorem link (hI : BuddyInv A s F O H) (hh : h ∈ H) (hF : h ∉ F) (hO : h ∉ O) {pg : Page}
    (hpg : pg = { s.frame h.base with order := h.order, isFree := 1 }) :
    BuddyInv A (s.pushPage h.order (h.base - s.baseFrame) pg) (insert h F) O H := by
  set i := h.base - s.baseFrame with hi
  have hne : ∀ b ∈ H, b ≠ h → b.base - s.baseFrame ≠ i := fun b hb hbh =>
    hI.index_ne hb hh hbh
  have hrec : ∀ b ∈ H, b ≠ h →
      (s.pushPage h.order i pg).frame b.base = s.frame b.base := fun b hb hbh =>
    pushPage_pageInfo_of_ne s h.order pg (hne b hb hbh)
  have hself : (s.pushPage h.order i pg).frame h.base = { pg with next := s.freeList h.order } :=
    pushPage_pageInfo_self s i h.order pg
  refine ⟨hI.base, hI.index, ?_, ?_, ?_, ?_, ?_, hI.tiling, ?_⟩
  · intro p hp
    by_cases hpi : p - s.baseFrame = i
    · have hpb : p = h.base := by
        have h₁ := (hI.frame_spec hp).2.1
        have h₂ := (hI.frame_spec (hI.base_mem hh)).2.1
        omega
      rw [hpb, hself, hpg]
      exact hI.address _ (hI.base_mem hh)
    · rw [BuddyAllocator.frame]
      exact (congrArg Page.address (pushPage_pageInfo_of_ne s h.order pg hpi)).trans
        (hI.address p hp)
  · intro k
    obtain ⟨l, hc, hl⟩ := hI.lists k
    have hil : i ∉ l := by
      rw [hI.index_mem_iff hl hh]
      exact fun h' => hF h'.1
    rw [pushPage_next, pushPage_freeList]
    by_cases hk : k = h.order
    · subst hk
      refine ⟨i :: l, ?_, fun j => ?_⟩
      · rw [Function.update_self]
        exact Chain.push hc hil
      · rw [List.mem_cons, hl]
        constructor
        · rintro (rfl | ⟨b, hb, hbk, hbj⟩)
          · exact ⟨h, Finset.mem_insert_self _ _, rfl, (hI.frame_spec (hI.base_mem hh)).2.1⟩
          · exact ⟨b, Finset.mem_insert_of_mem hb, hbk, hbj⟩
        · rintro ⟨b, hb, hbk, hbj⟩
          rcases Finset.mem_insert.1 hb with rfl | hb
          · left
            have : b.base = s.baseFrame + j := hbj
            omega
          · exact .inr ⟨b, hb, hbk, hbj⟩
    · refine ⟨l, ?_, fun j => ?_⟩
      · rw [Function.update_of_ne hk]
        exact hc.update hil
      · rw [hl]
        constructor
        · rintro ⟨b, hb, h'⟩
          exact ⟨b, Finset.mem_insert_of_mem hb, h'⟩
        · rintro ⟨b, hb, hbk, hbj⟩
          rcases Finset.mem_insert.1 hb with rfl | hb
          · exact absurd hbk.symm hk
          · exact ⟨b, hb, hbk, hbj⟩
  · intro b hb
    rcases Finset.mem_insert.1 hb with rfl | hb
    · rw [hself, hpg]
      exact ⟨one_ne_zero, rfl⟩
    · rw [hrec b (hI.mem_of_free hb) (fun e => hF (e ▸ hb))]
      exact hI.linked b hb
  · intro b hb
    rw [hrec b (hI.mem_of_out hb) (fun e => hO (e ▸ hb))]
    exact hI.used b hb
  · rw [Finset.insert_union]
    exact Finset.insert_subset hh hI.held
  · intro j hj hf
    by_cases hji : j = i
    · subst hji
      refine ⟨h, (hI.frame_spec (hI.base_mem hh)).2.1, ?_, hI.tiling.subset h hh,
        hI.tiling.submerged_self hh⟩
      rw [pushPage_pageInfo_self, hpg]
    · rw [pushPage_pageInfo_of_ne s h.order pg hji] at hf ⊢
      exact hI.marks j hj hf

/-- **Unlinking**: walking the list of order `k` for the record of a frame
terminates, and takes off the block that sits there, if one does. -/
theorem unlink (hI : BuddyInv A s F O H) {k i : ℕ} {b : Block} (hbk : b.order = k)
    (hbi : b.base = s.baseFrame + i) :
    ∃ t, pmmUnlink s k i = some t ∧ SameLayout t s ∧ t.lock = s.lock ∧
      (∀ j, { t.pageInfo j with next := s.next j } = s.pageInfo j) ∧
      BuddyInv A t (F.erase b) O H := by
  obtain ⟨l, hc, hl⟩ := hI.lists k
  have hlen : l.length < s.totalPages + 1 := by
    -- a list without repetition of record indices is no longer than the array
    have hsub : l ⊆ List.range s.totalPages := fun j hj => by
      obtain ⟨c, hcF, -, hcj⟩ := (hl j).1 hj
      have := (hI.frame_spec (hI.base_mem (hI.mem_of_free hcF))).2
      rw [List.mem_range]
      omega
    have := (hc.nodup.subperm hsub).length_le
    rw [List.length_range] at this
    omega
  obtain ⟨p', next', hrun, hc', hframe⟩ := unlink_spec i hc hlen
  refine ⟨(s.setNext next').setFreeList k p', by simp [pmmUnlink, hrun],
    (sameLayout_setFreeList _ k p').trans (sameLayout_setNext s next'), rfl, fun j => rfl, ?_⟩
  refine ⟨hI.base, hI.index, hI.address, fun k' => ?_, fun c hcF => hI.linked c ?_, hI.used,
    fun c hcm => hI.held ?_, hI.tiling, hI.marks⟩
  · obtain ⟨l', hcl', hl'⟩ := hI.lists k'
    by_cases hk : k' = k
    · subst hk
      obtain rfl : l = l' := hc.unique hcl'
      refine ⟨l.erase i, ?_, fun j => ?_⟩
      · rwa [setFreeList_freeList_self, setFreeList_next, setNext_next]
      · rw [hc.nodup.mem_erase_iff, hl]
        constructor
        · rintro ⟨hji, c, hcF, hck, hcj⟩
          refine ⟨c, Finset.mem_erase.2 ⟨?_, hcF⟩, hck, hcj⟩
          rintro rfl
          exact hji (by omega)
        · rintro ⟨c, hcF, hck, hcj⟩
          obtain ⟨hne, hcF⟩ := Finset.mem_erase.1 hcF
          refine ⟨?_, c, hcF, hck, hcj⟩
          rintro rfl
          exact hne (Block.ext (hcj.trans hbi.symm) (hck.trans hbk.symm))
    · refine ⟨l', ?_, fun j => ?_⟩
      · rw [setFreeList_freeList_of_ne _ _ _ hk, setNext_freeList, setFreeList_next, setNext_next]
        -- lists of different orders share no record
        refine hcl'.congr fun j hj => hframe j fun hj' => hk ?_
        obtain ⟨c, hcF, hck, hcj⟩ := (hl j).1 hj'
        obtain ⟨d, hdF, hdk, hdj⟩ := (hl' j).1 hj
        obtain rfl := hI.eq_of_base_eq (hI.mem_of_free hcF) (hI.mem_of_free hdF) (by omega)
        exact hdk.symm.trans hck
      · rw [hl']
        constructor
        · rintro ⟨c, hcF, hck, hcj⟩
          refine ⟨c, Finset.mem_erase.2 ⟨?_, hcF⟩, hck, hcj⟩
          rintro rfl
          exact hk (hck.symm.trans hbk)
        · rintro ⟨c, hcF, hck, hcj⟩
          exact ⟨c, Finset.mem_of_mem_erase hcF, hck, hcj⟩
  · exact Finset.mem_of_mem_erase hcF
  · exact Finset.union_subset_union_left (Finset.erase_subset _ _) hcm

/-- **Coalescing** in somebody's hands: a block and its marked buddy, both off
every list, become their parent. -/
theorem coalesce (hI : BuddyInv A s F O H) (hh : h ∈ H) (hF : h ∉ F ∪ O) (hB : h.buddy ∉ F ∪ O)
    (hs : Submerged H h.buddy) (hA : h.buddy.pages ⊆ A) :
    BuddyInv A s F O (DyadicBlocks.coalesce H h) := by
  refine ⟨hI.base, hI.index, hI.address, hI.lists, hI.linked, hI.used, fun b hb => ?_,
    hI.tiling.coalesce hh hs hA, fun i hi hf => ?_⟩
  · exact mem_coalesce.2 (.inr ⟨fun e => hF (e ▸ hb), fun e => hB (e ▸ hb), hI.held hb⟩)
  · obtain ⟨c, h₁, h₂, h₃, h₄⟩ := hI.marks i hi hf
    exact ⟨c, h₁, h₂, h₃, h₄.coalesce hh⟩

/-- **Taking the head of a list** for an allocation of order `k`: the block
leaves its list, its record is marked used with order `k`, and its initial part
of that order is handed out. -/
theorem fetch (hI : BuddyInv A s F O (F ∪ O)) {i j k : ℕ} (hhead : s.freeList j = some i)
    (hkj : k ≤ j) {pg : Page}
    (hpg : pg = { s.pageInfo i with isFree := 0, order := k }) :
    ∃ b ∈ F, ∃ hb : b.order = j, b.base = s.baseFrame + i ∧
      BuddyInv A ((s.setFreeList j (s.pageInfo i).next).setPage i pg) (F.erase b)
        (insert (b.shrink k (hb ▸ hkj)) O) (F.erase b ∪ insert (b.shrink k (hb ▸ hkj)) O) := by
  obtain ⟨l, hc, hl⟩ := hI.lists j
  rw [hhead] at hc
  obtain ⟨l, rfl⟩ : ∃ l', l = i :: l' := by
    cases l with
    | nil => exact absurd hc (by simp)
    | cons i' l' => exact ⟨l', by rw [Option.some.inj hc.1]⟩
  have hnd := List.nodup_cons.1 hc.nodup
  obtain ⟨b, hbF, hbj, hbi⟩ := (hl i).1 List.mem_cons_self
  refine ⟨b, hbF, hbj, hbi, ?_⟩
  have hbH : b ∈ F ∪ O := Finset.mem_union_left _ hbF
  have hbO : b ∉ O := Finset.disjoint_left.1 hI.disjoint_free_out hbF
  have hi : i = b.base - s.baseFrame := by omega
  have hnext : pg.next = s.next i := by rw [hpg]; rfl
  have hH : F.erase b ∪ insert (b.shrink k (hbj ▸ hkj)) O =
      shrinkIn (F ∪ O) b k (hbj ▸ hkj) := by
    ext c
    by_cases hcb : c = b
    · subst hcb; simp [shrinkIn, hbO]
    · simp [shrinkIn, hcb]
  have hne : ∀ c ∈ F ∪ O, c ≠ b → c.base - s.baseFrame ≠ i := fun c hc' hcb => by
    rw [hi]; exact hI.index_ne hc' hbH hcb
  have hrec : ∀ c ∈ F ∪ O, c ≠ b →
      ((s.setFreeList j (s.pageInfo i).next).setPage i pg).frame c.base = s.frame c.base :=
    fun c hc' hcb => setPage_pageInfo_of_ne _ pg (hne c hc' hcb)
  have hself : ((s.setFreeList j (s.pageInfo i).next).setPage i pg).frame b.base = pg := by
    have : b.base - s.baseFrame = i := hi.symm
    exact (congrArg _ this).trans (setPage_pageInfo_self _ i pg)
  refine ⟨hI.base, hI.index, ?_, ?_, ?_, ?_, le_rfl, ?_, ?_⟩
  · intro p hp
    by_cases hpi : p - s.baseFrame = i
    · have hpb : p = b.base := by have := (hI.frame_spec hp).2.1; omega
      rw [hpb, hself, hpg, hi]
      exact hI.address _ (hI.base_mem hbH)
    · exact (congrArg Page.address (setPage_pageInfo_of_ne _ pg hpi)).trans (hI.address p hp)
  · intro k'
    have hnx : ((s.setFreeList j (s.pageInfo i).next).setPage i pg).next = s.next :=
      setPage_next_of_eq _ i pg hnext
    rw [hnx, setPage_freeList]
    by_cases hk : k' = j
    · subst hk
      refine ⟨l, ?_, fun m => ?_⟩
      · rw [setFreeList_freeList_self]; exact hc.2
      · constructor
        · intro hm
          obtain ⟨c, hcF, hck, hcm⟩ := (hl m).1 (List.mem_cons_of_mem _ hm)
          refine ⟨c, Finset.mem_erase.2 ⟨?_, hcF⟩, hck, hcm⟩
          rintro rfl
          exact hnd.1 ((show i = m by omega) ▸ hm)
        · rintro ⟨c, hcF, hck, hcm⟩
          obtain ⟨hcb, hcF⟩ := Finset.mem_erase.1 hcF
          refine (List.mem_cons.1 ((hl m).2 ⟨c, hcF, hck, hcm⟩)).resolve_left ?_
          rintro rfl
          exact hcb (Block.ext (hcm.trans hbi.symm) (hck.trans hbj.symm))
    · obtain ⟨l', hc', hl'⟩ := hI.lists k'
      refine ⟨l', ?_, fun m => ?_⟩
      · rw [setFreeList_freeList_of_ne _ _ _ hk]; exact hc'
      · rw [hl']
        constructor
        · rintro ⟨c, hcF, hck, hcm⟩
          refine ⟨c, Finset.mem_erase.2 ⟨?_, hcF⟩, hck, hcm⟩
          rintro rfl
          exact hk (hck.symm.trans hbj)
        · rintro ⟨c, hcF, hck, hcm⟩
          exact ⟨c, Finset.mem_of_mem_erase hcF, hck, hcm⟩
  · intro c hcF
    obtain ⟨hcb, hcF⟩ := Finset.mem_erase.1 hcF
    rw [hrec c (Finset.mem_union_left _ hcF) hcb]
    exact hI.linked c hcF
  · intro c hcO
    rcases Finset.mem_insert.1 hcO with rfl | hcO
    · rw [show (b.shrink k (hbj ▸ hkj)).base = b.base from rfl, hself, hpg]
      exact ⟨rfl, rfl⟩
    · rw [hrec c (Finset.mem_union_right _ hcO) (fun e => hbO (e ▸ hcO))]
      exact hI.used c hcO
  · rw [hH]
    exact hI.tiling.shrinkIn hbH _
  · intro m hm hf
    by_cases hmi : m = i
    · subst hmi
      rw [setPage_pageInfo_self, hpg] at hf
      exact absurd rfl hf
    · rw [setPage_pageInfo_of_ne _ pg hmi, setFreeList_pageInfo] at hf ⊢
      obtain ⟨c, h₁, h₂, h₃, h₄⟩ := hI.marks m hm hf
      refine ⟨c, h₁, h₂, h₃, ?_⟩
      rw [hH]
      refine h₄.shrinkIn _ hbH ?_
      have hc₁ : c.base = s.baseFrame + m := h₁
      omega

/-- **Marking a block free** that was handed out, before it is merged: it stays
in hand. -/
theorem unmark (hI : BuddyInv A s F O (F ∪ O)) (hh : h ∈ O) {pg : Page}
    (hpg : pg = { s.frame h.base with isFree := 1 }) :
    BuddyInv A (s.setPage (h.base - s.baseFrame) pg) F (O.erase h) (F ∪ O) := by
  set i := h.base - s.baseFrame with hi
  have hhH : h ∈ F ∪ O := Finset.mem_union_right _ hh
  have hself : (s.setPage i pg).frame h.base = pg := setPage_pageInfo_self s i pg
  have hrec : ∀ c ∈ F ∪ O, c ≠ h → (s.setPage i pg).frame c.base = s.frame c.base :=
    fun c hc hch => setPage_pageInfo_of_ne _ pg (hI.index_ne hc hhH hch)
  have hnx : (s.setPage i pg).next = s.next := setPage_next_of_eq s i pg (by rw [hpg]; rfl)
  refine ⟨hI.base, hI.index, ?_, ?_, ?_, ?_, ?_, hI.tiling, ?_⟩
  · intro p hp
    by_cases hpi : p - s.baseFrame = i
    · have hpb : p = h.base := by
        have h₁ := (hI.frame_spec hp).2.1
        have h₂ := (hI.frame_spec (hI.base_mem hhH)).2.1
        omega
      rw [hpb, hself, hpg]
      exact hI.address _ (hI.base_mem hhH)
    · exact (congrArg Page.address (setPage_pageInfo_of_ne _ pg hpi)).trans (hI.address p hp)
  · intro k
    rw [hnx, setPage_freeList]
    exact hI.lists k
  · intro c hcF
    rw [hrec c (Finset.mem_union_left _ hcF)
      (fun e => Finset.disjoint_left.1 hI.disjoint_free_out (e ▸ hcF) hh)]
    exact hI.linked c hcF
  · intro c hcO
    obtain ⟨hch, hcO⟩ := Finset.mem_erase.1 hcO
    rw [hrec c (Finset.mem_union_right _ hcO) hch]
    exact hI.used c hcO
  · exact Finset.union_subset_union_right (Finset.erase_subset _ _)
  · intro m hm hf
    by_cases hmi : m = i
    · subst hmi
      refine ⟨h, (hI.frame_spec (hI.base_mem hhH)).2.1, ?_, hI.tiling.subset h hhH,
        hI.tiling.submerged_self hhH⟩
      rw [setPage_pageInfo_self, hpg]
      exact (hI.used h hh).2.symm
    · rw [setPage_pageInfo_of_ne _ pg hmi] at hf ⊢
      exact hI.marks m hm hf

end BuddyInv

end Flopperating
