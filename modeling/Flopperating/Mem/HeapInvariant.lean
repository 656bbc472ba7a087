/-
# The invariant of the heap

What is known of the page allocator is a contract (`PageContract`): it hands out
page ranges apart from those the heap holds, and lets go of a range only when
it is given back.  `PageAllocator.traced` keeps the account of the ranges that
the heap has got and not given back (`held`) and of those it has given back
(`returned`).

An object is a pointer and a size, `(ptr, size)`.  What `kmalloc` has set aside
for it is its extent (`reserved`): a run of blocks, or pages of its own.
`HeapInv` says that these extents are apart, that the bits of every box are the
blocks in them, and that the ranges held are the boxes and the pages of the
large objects.
-/

import Flopperating.Data.Extent
import Flopperating.Mem.Heap

namespace Flopperating

open ByteMemory Bitmap LinkedList

/-! ### The page allocator -/

/-- The pages of a range. -/
def pageRange (r : ℕ × ℕ) : Extent := ⟨r.1, r.2 * pageSize⟩

/-- What the heap relies on: with `Owned s held` the ranges `held` are the heap's,
and with `Together count s` an allocation of `count` pages hands out pages that
lie next to each other. -/
structure PageContract (pa : PageAllocator) (Owned : pa.State → List (ℕ × ℕ) → Prop)
    (Together : ℕ → pa.State → Prop) : Prop where
  together_one : ∀ s, Together 1 s
  /-- Pages that are handed out were not in use. -/
  alloc : ∀ {s s' held count addr}, Owned s held → Together count s →
    pa.allocPages count s = some (addr, s') → addr ≠ 0 →
    Owned s' ((addr, count) :: held) ∧ addr + count * pageSize ≤ 2 ^ 32 ∧
      ∀ r ∈ held, (pageRange (addr, count)).Apart (pageRange r)
  alloc_zero : ∀ {s s' addr}, pa.allocPages 0 s = some (addr, s') → addr = 0
  /-- A call that fails changes nothing. -/
  alloc_null : ∀ {s s' held count}, Owned s held → pa.allocPages count s = some (0, s') → s' = s
  free : ∀ {s s' held r}, Owned s held → r ∈ held → pa.freePages r.1 r.2 s = some s' →
    Owned s' (held.erase r)

/-- A page allocator with the account of the heap's pages. -/
structure TracedPages (pa : PageAllocator) where
  state : pa.State
  held : List (ℕ × ℕ)
  returned : List (ℕ × ℕ)

/-- The page allocator that keeps the account. -/
def PageAllocator.traced (pa : PageAllocator) : PageAllocator where
  State := TracedPages pa
  allocPages count t := (pa.allocPages count t.state).map fun (addr, s) =>
    (addr, { t with state := s, held := if addr = 0 then t.held else (addr, count) :: t.held })
  freePages addr count t := (pa.freePages addr count t.state).map fun s =>
    { state := s, held := t.held.erase (addr, count), returned := (addr, count) :: t.returned }

variable {pa : PageAllocator}

section Traced

variable {Owned : pa.State → List (ℕ × ℕ) → Prop} {Together : ℕ → pa.State → Prop}
  {t t' : TracedPages pa} {addr count : ℕ}

/-- An allocation with the account: nothing happens, or the range is added. -/
theorem PageContract.traced_alloc (C : PageContract pa Owned Together) (hown : Owned t.state t.held)
    (htog : Together count t.state) (hrun : pa.traced.allocPages count t = some (addr, t')) :
    (addr = 0 ∧ t' = t) ∨ addr ≠ 0 ∧ t'.held = (addr, count) :: t.held ∧
      t'.returned = t.returned ∧ Owned t'.state t'.held ∧ addr + count * pageSize ≤ 2 ^ 32 ∧
      ∀ r ∈ t.held, (pageRange (addr, count)).Apart (pageRange r) := by
  obtain ⟨⟨a, s⟩, halloc, he⟩ := Option.map_eq_some_iff.1 hrun
  simp only [Prod.mk.injEq] at he
  obtain ⟨rfl, rfl⟩ := he
  rcases eq_or_ne a 0 with rfl | h0
  · refine .inl ⟨rfl, ?_⟩
    rw [C.alloc_null hown halloc]
    rfl
  · obtain ⟨hown', hle, hap⟩ := C.alloc hown htog halloc h0
    refine .inr ⟨h0, if_neg h0, rfl, ?_, hle, hap⟩
    rwa [if_neg h0]

theorem PageContract.traced_alloc_zero (C : PageContract pa Owned Together)
    (hown : Owned t.state t.held) (hrun : pa.traced.allocPages 0 t = some (addr, t')) :
    addr = 0 ∧ t' = t := by
  obtain ⟨⟨a, s⟩, halloc, he⟩ := Option.map_eq_some_iff.1 hrun
  simp only [Prod.mk.injEq] at he
  obtain ⟨rfl, rfl⟩ := he
  obtain rfl := C.alloc_zero halloc
  rw [C.alloc_null hown halloc]
  exact ⟨rfl, rfl⟩

/-- Giving back a range that is held, with the account. -/
theorem PageContract.traced_free (C : PageContract pa Owned Together) (hown : Owned t.state t.held)
    (hmem : (addr, count) ∈ t.held) (hrun : pa.traced.freePages addr count t = some t') :
    t'.held = t.held.erase (addr, count) ∧ t'.returned = (addr, count) :: t.returned ∧
      Owned t'.state t'.held := by
  obtain ⟨s, hfree, rfl⟩ := Option.map_eq_some_iff.1 hrun
  exact ⟨rfl, rfl, C.free hown hmem hfree⟩

end Traced

/-- The ranges that the heap has got and not given back. -/
def Heap.held (h : Heap pa.traced) : List (ℕ × ℕ) := TracedPages.held h.pages

/-- The ranges that the heap has given back, latest first. -/
def Heap.returned (h : Heap pa.traced) : List (ℕ × ℕ) := TracedPages.returned h.pages

/-- The state of the page allocator. -/
def Heap.pageState (h : Heap pa.traced) : pa.State := TracedPages.state h.pages

/-! ### Objects and their extents -/

/-- Where the blocks of a box start. -/
def boxData (b : ℕ) : ℕ := b + sizeofBox + mapBytes

/-- Where block `i` of a box starts. -/
def blockAddr (b i : ℕ) : ℕ := boxData b + i * blockSize

/-- The object that a run of blocks of a box from `k` on is for. -/
def objectAt (b k size : ℕ) : ℕ × ℕ := (blockAddr b k + objectAlign, size)

/-- What is set aside for an object. -/
def reserved (o : ℕ × ℕ) : Extent :=
  ⟨o.1 - objectAlign, if o.2 ≤ pageSize then neededBlocks o.2 * blockSize
    else neededPages o.2 * pageSize⟩

/-- The range of pages of a large object. -/
def pagesOf (o : ℕ × ℕ) : ℕ × ℕ := (o.1 - objectAlign, neededPages o.2)

/-- The objects with pages of their own. -/
def largeObjects (live : List (ℕ × ℕ)) : List (ℕ × ℕ) := live.filter fun o => pageSize < o.2

theorem largeObjects_cons_small {o : ℕ × ℕ} {live : List (ℕ × ℕ)} (h : o.2 ≤ pageSize) :
    largeObjects (o :: live) = largeObjects live :=
  List.filter_cons_of_neg fun hl => absurd (of_decide_eq_true hl) (Nat.not_lt.2 h)

theorem largeObjects_cons_large {o : ℕ × ℕ} {live : List (ℕ × ℕ)} (h : pageSize < o.2) :
    largeObjects (o :: live) = o :: largeObjects live :=
  List.filter_cons_of_pos (decide_eq_true h)

/-- A box as `box_init` sets it up. -/
structure FormedBox (b : ℕ) (v : Box) : Prop where
  page : v.page = b
  dataPointer : v.dataPointer = boxData b
  totalBlocks : v.totalBlocks = blocksPerBox

/-- An object in a run of blocks of one of the boxes `l`. -/
def InBlocks (h : Heap pa) (l : List ℕ) (o : ℕ × ℕ) : Prop :=
  o.2 ≤ pageSize ∧ ∃ b ∈ l, ∃ k, o.1 = blockAddr b k + objectAlign ∧
    k + neededBlocks o.2 ≤ blocksPerBox ∧ h.objectBox (o.1 - objectAlign) = b

/-- An object in pages of its own. -/
def InPages (h : Heap pa) (o : ℕ × ℕ) : Prop :=
  pageSize < o.2 ∧ objectAlign < o.1 ∧ h.objectBox (o.1 - objectAlign) = 0

/-- The pointer of an object lies in the page of a box. -/
def InPage (b : ℕ) (o : ℕ × ℕ) : Prop := (pageRange (b, 1)).Has o.1

instance (b : ℕ) (o : ℕ × ℕ) : Decidable (InPage b o) := inferInstanceAs (Decidable (_ ∧ _))

/-- The invariant: `live` are the objects handed out and not freed, `l` the boxes. -/
structure HeapInv (Owned : pa.State → List (ℕ × ℕ) → Prop) (h : Heap pa.traced)
    (live : List (ℕ × ℕ)) (l : List ℕ) : Prop where
  chain : Chain h.next h.boxes l
  formed : ∀ b ∈ l, FormedBox b (h.box b)
  owned : Owned h.pageState h.held
  valid : ∀ r ∈ h.held, 0 < r.1 ∧ r.1 + r.2 * pageSize ≤ 2 ^ 32
  heldApart : h.held.Pairwise fun r s => (pageRange r).Apart (pageRange s)
  held : h.held.Perm (l.map (·, 1) ++ (largeObjects live).map pagesOf)
  placed : ∀ o ∈ live, InBlocks h l o ∨ InPages h o
  /-- The extent of an object has room for the header and the payload. -/
  room : ∀ o ∈ live, objectAlign + o.2 ≤ (reserved o).len
  apart : live.Pairwise fun o p => (reserved o).Apart (reserved p)
  bits : ∀ b ∈ l, ∀ i < 8 * mapBytes, bit (h.box b).map i = true ↔
    i < blocksPerBox ∧ ∃ o ∈ live, (reserved o).Has (blockAddr b i)

/-! ### Sizes and addresses -/

section Geometry

variable {b b' i k n p size : ℕ}

theorem blockAddr_eq : blockAddr b i = b + 44 + i * 32 := rfl

theorem blocksPerBox_eq : blocksPerBox = 123 := rfl

theorem neededBlocks_eq (h : size ≤ pageSize) : neededBlocks size = (size + 35) / 32 := by
  unfold neededBlocks
  rw [u32_of_lt (by simp only [pageSize, objectAlign, blockSize] at *; omega)]
  rfl

/-- The number of pages is computed with overflow for the last three sizes only:
for those below it has room for the object, or is zero, and then `kmalloc` fails. -/
theorem neededPages_room_iff (h : size < 2 ^ 32) :
    neededPages size = 0 ∨ objectAlign + size ≤ neededPages size * pageSize ↔ size + 3 < 2 ^ 32 := by
  simp only [neededPages, u32, objectAlign, pageSize]
  omega

theorem reserved_small (h : size ≤ pageSize) :
    reserved (p, size) = ⟨p - objectAlign, neededBlocks size * blockSize⟩ := by
  unfold reserved
  rw [if_pos h]

theorem reserved_large (h : pageSize < size) :
    reserved (p, size) = pageRange (pagesOf (p, size)) := by
  unfold reserved
  rw [if_neg (by omega)]
  rfl

theorem reserved_objectAt (h : size ≤ pageSize) :
    reserved (objectAt b k size) = ⟨blockAddr b k, neededBlocks size * blockSize⟩ := reserved_small h

/-- The blocks in a run of blocks of the same box. -/
theorem has_blockAddr_iff :
    (Extent.mk (blockAddr b k) (n * blockSize)).Has (blockAddr b i) ↔ k ≤ i ∧ i < k + n := by
  simp only [Extent.Has, blockAddr_eq, blockSize]
  omega

/-- A run of blocks lies in the page of its box. -/
theorem run_within (h : k + n ≤ blocksPerBox) :
    (Extent.mk (blockAddr b k) (n * blockSize)).Within (pageRange (b, 1)) := by
  simp only [Extent.Within, pageRange, blockAddr_eq, blockSize, blocksPerBox_eq, pageSize] at *
  omega

/-- A block lies in the page of its box. -/
theorem pageRange_has_blockAddr (h : i < blocksPerBox) : (pageRange (b, 1)).Has (blockAddr b i) := by
  simp only [Extent.Has, pageRange, blockAddr_eq, blocksPerBox_eq, pageSize] at *
  omega

theorem inPage_objectAt (h : k < blocksPerBox) : InPage b (objectAt b k size) := by
  simp only [InPage, objectAt, Extent.Has, pageRange, blockAddr_eq, blocksPerBox_eq, objectAlign,
    pageSize] at *
  omega

/-- Two runs of blocks of one box, neither of which starts in the other, are apart. -/
theorem runs_apart {m : ℕ} (hk : ¬ (k ≤ i ∧ i < k + n)) (hi : ¬ (i ≤ k ∧ k < i + m)) :
    (Extent.mk (blockAddr b k) (n * blockSize)).Apart ⟨blockAddr b i, m * blockSize⟩ :=
  Extent.apart_of_not_has (fun h => hk (has_blockAddr_iff.1 h)) fun h => hi (has_blockAddr_iff.1 h)

theorem neededBlocks_pos (h : size ≤ pageSize) : 0 < neededBlocks size := by
  rw [neededBlocks_eq h]
  omega

end Geometry

/-! ### What the invariant says -/

namespace HeapInv

variable {Owned : pa.State → List (ℕ × ℕ) → Prop} {Together : ℕ → pa.State → Prop}
  {h : Heap pa.traced} {live : List (ℕ × ℕ)} {l : List ℕ}

/-- The boxes and the pages of the large objects are apart. -/
theorem ranges_apart (hI : HeapInv Owned h live l) :
    (l.map (·, 1) ++ (largeObjects live).map pagesOf).Pairwise
      fun r s => (pageRange r).Apart (pageRange s) :=
  (hI.held.pairwise_iff fun h => Extent.Apart.symm h).1 hI.heldApart

theorem box_mem (hI : HeapInv Owned h live l) {b : ℕ} (hb : b ∈ l) : (b, 1) ∈ h.held :=
  hI.held.mem_iff.2 (List.mem_append_left _ (List.mem_map_of_mem hb))

theorem pagesOf_mem (hI : HeapInv Owned h live l) {o : ℕ × ℕ} (ho : o ∈ live)
    (hs : pageSize < o.2) : pagesOf o ∈ h.held :=
  hI.held.mem_iff.2 (List.mem_append_right _ (List.mem_map_of_mem
    (List.mem_filter.2 ⟨ho, by simpa using hs⟩)))

theorem boxes_apart (hI : HeapInv Owned h live l) {b b' : ℕ} (hb : b ∈ l) (hb' : b' ∈ l)
    (hne : b ≠ b') : (pageRange (b, 1)).Apart (pageRange (b', 1)) := by
  have hp := List.pairwise_map.1 (List.pairwise_append.1 hI.ranges_apart).1
  exact hp.forall hb hb' hne

theorem box_apart_pagesOf (hI : HeapInv Owned h live l) {b : ℕ} (hb : b ∈ l) {o : ℕ × ℕ}
    (ho : o ∈ live) (hs : pageSize < o.2) : (pageRange (b, 1)).Apart (pageRange (pagesOf o)) :=
  (List.pairwise_append.1 hI.ranges_apart).2.2 _ (List.mem_map_of_mem hb) _
    (List.mem_map_of_mem (List.mem_filter.2 ⟨ho, by simpa using hs⟩))

/-- There are fewer boxes than steps for a walk over them. -/
theorem length_lt (hI : HeapInv Owned h live l) : l.length < boxSteps := by
  have hp := List.pairwise_map.1 (List.pairwise_append.1 hI.ranges_apart).1
  have hle := Extent.length_le_of_apart (n := pageSize) (m := 2 ^ 20) (by decide)
    (hp.imp fun {a b} h => by simpa [pageRange] using h) fun b hb => by
      simpa [pageSize] using (hI.valid _ (hI.box_mem hb)).2
  exact Nat.lt_succ_of_le hle

/-- Every object lies in a range that the heap holds. -/
theorem exists_range (hI : HeapInv Owned h live l) {o : ℕ × ℕ} (ho : o ∈ live) :
    ∃ r ∈ h.held, (reserved o).Within (pageRange r) := by
  obtain ⟨p, size⟩ := o
  rcases hI.placed _ ho with ⟨hs, b, hb, k, hp, hk, -⟩ | ⟨hs, -, -⟩
  · refine ⟨(b, 1), hI.box_mem hb, ?_⟩
    obtain rfl : p = blockAddr b k + objectAlign := hp
    exact reserved_small hs ▸ run_within hk
  · exact ⟨_, hI.pagesOf_mem ho hs, reserved_large hs ▸ ⟨le_rfl, le_rfl⟩⟩

/-- **The objects in the page of a box** are those in runs of its blocks. -/
theorem inPage_iff (hI : HeapInv Owned h live l) {b : ℕ} (hb : b ∈ l) {o : ℕ × ℕ} (ho : o ∈ live) :
    InPage b o ↔ ∃ k, o.2 ≤ pageSize ∧ k + neededBlocks o.2 ≤ blocksPerBox ∧
      o = objectAt b k o.2 ∧ h.objectBox (blockAddr b k) = b := by
  obtain ⟨p, size⟩ := o
  constructor
  · intro hin
    rcases hI.placed _ ho with ⟨hs, b', hb', k, hp, hk, hobj⟩ | ⟨hs, hp, -⟩
    · obtain rfl : p = blockAddr b' k + objectAlign := hp
      have hpos := neededBlocks_pos hs
      have hin' : InPage b' (objectAt b' k size) := inPage_objectAt (by omega)
      obtain rfl : b = b' := by
        by_contra hne
        exact (hI.boxes_apart hb hb' hne).not_has hin hin'
      exact ⟨k, hs, hk, rfl, by rwa [Nat.add_sub_cancel] at hobj⟩
    · -- the pointer lies in the object's own pages
      have hroom := hI.room _ ho
      rw [reserved_large hs] at hroom
      refine absurd hin ((hI.box_apart_pagesOf hb ho hs).symm.not_has ?_)
      simp only [Extent.Has, pageRange, pagesOf, objectAlign, pageSize] at *
      omega
  · rintro ⟨k, hs, hk, he, -⟩
    have hpos := neededBlocks_pos hs
    exact he ▸ inPage_objectAt (by omega)

/-- An object that has a block of a box lies in it. -/
theorem inPage_of_has (hI : HeapInv Owned h live l) {b i : ℕ} (hb : b ∈ l) (hi : i < blocksPerBox)
    {o : ℕ × ℕ} (ho : o ∈ live) (hhas : (reserved o).Has (blockAddr b i)) : InPage b o := by
  obtain ⟨p, size⟩ := o
  rcases hI.placed _ ho with ⟨hs, b', hb', k, hp, hk, -⟩ | ⟨hs, -, -⟩
  · obtain rfl : p = blockAddr b' k + objectAlign := hp
    rw [show reserved (blockAddr b' k + objectAlign, size) = _ from reserved_objectAt hs] at hhas
    have hpos := neededBlocks_pos hs
    obtain rfl : b = b' := by
      by_contra hne
      exact ((hI.boxes_apart hb hb' hne).mono ⟨le_rfl, le_rfl⟩ (run_within hk)).not_has
        (pageRange_has_blockAddr hi) hhas
    exact inPage_objectAt (by omega)
  · rw [reserved_large hs] at hhas
    exact absurd hhas ((hI.box_apart_pagesOf hb ho hs).not_has (pageRange_has_blockAddr hi))

/-- The invariant does not depend on the order of the objects. -/
theorem perm (hI : HeapInv Owned h live l) {live' : List (ℕ × ℕ)} (hp : live.Perm live') :
    HeapInv Owned h live' l where
  chain := hI.chain
  formed := hI.formed
  owned := hI.owned
  valid := hI.valid
  heldApart := hI.heldApart
  held := hI.held.trans (((hp.filter _).map _).append_left _)
  placed o ho := hI.placed o (hp.mem_iff.2 ho)
  room o ho := hI.room o (hp.mem_iff.2 ho)
  apart := (hp.pairwise_iff fun h => Extent.Apart.symm h).1 hI.apart
  bits b hb i hi := by simp only [hI.bits b hb i hi, hp.mem_iff]

end HeapInv

end Flopperating
