/-
# The kernel heap

`src/mem/alloc.c` and `src/mem/alloc.h`.  Small objects live in boxes, pages cut
into blocks of 32 bytes with a bitmap in front; an object takes a run of blocks,
found first-fit.  Objects larger than a page get pages of their own.

| source | here |
| --- | --- |
| `box_t` in a page | `Heap.box`, by the address of the page |
| the bytes at `box->map` | `Box.map` |
| the bytes of objects and their headers | `Heap.mem` |
| `pmm_alloc_pages(0, n)`, `pmm_free_pages(a, 0, n)` | a `PageAllocator` |
| a call that never returns | `none` |

Every function releases the locks it takes on every path and takes none twice,
so calls made one after the other never wait; the locks are left out.  `NULL` is
`0` as a pointer to an object and `none` as a pointer to a box.  A walk over the
list of boxes is given `boxSteps` steps, more than there are pages.
-/

import Flopperating.Data.Bitmap
import Flopperating.Data.ByteMemory
import Flopperating.Data.LinkedList
import Flopperating.Mem.BoxHash
import Flopperating.Mem.PmmMultiRuns

namespace Flopperating

open ByteMemory Bitmap

/-- `BLOCK_SIZE`. -/
abbrev blockSize : ℕ := 32

/-- `OBJECT_ALIGN`: `sizeof(void*)` on i386. -/
abbrev objectAlign : ℕ := 4

/-- `sizeof(box_t)`. -/
abbrev sizeofBox : ℕ := 28

/-- `BLOCKS_PER_BOX`. -/
abbrev blocksPerBox : ℕ := (pageSize - sizeofBox) / (blockSize + 1)

/-- The bytes of the bitmap. -/
abbrev mapBytes : ℕ := (blocksPerBox + 7) / 8

/-- The steps given to a walk over the boxes. -/
def boxSteps : ℕ := 2 ^ 20 + 1

/-- What the heap calls to get pages and to give them back: `pmm_alloc_pages(0,
count)` and `pmm_free_pages(addr, 0, count)`, of one page `pmm_alloc_page` and
`pmm_free_page`. -/
structure PageAllocator where
  State : Type
  allocPages : ℕ → State → Option (ℕ × State)
  freePages : ℕ → ℕ → State → Option State

/-- `box_t`, with the bytes of its bitmap. -/
structure Box where
  next : Option ℕ
  page : ℕ
  dataPointer : ℕ
  map : Bytes
  totalBlocks : ℕ
  id : ℕ

/-- The globals of `alloc.c`, the pages it works on and the page allocator. -/
structure Heap (pa : PageAllocator) where
  boxes : Option ℕ
  box : ℕ → Box
  mem : Memory
  boxHash : BoxHash
  initialized : Bool
  nextBoxId : ℕ
  pages : pa.State

/-- The blocks of an object: `(size + OBJECT_ALIGN + BLOCK_SIZE - 1) / BLOCK_SIZE`. -/
def neededBlocks (size : ℕ) : ℕ := u32 (size + objectAlign + blockSize - 1) / blockSize

/-- The pages of a large object: `(size + OBJECT_ALIGN + PAGE_SIZE - 1) / PAGE_SIZE`. -/
def neededPages (size : ℕ) : ℕ := u32 (size + objectAlign + pageSize - 1) / pageSize

variable {pa : PageAllocator}

namespace Heap

/-- The `next` fields of the boxes. -/
def next (σ : Heap pa) (b : ℕ) : Option ℕ := (σ.box b).next

/-- Overwrite one box. -/
def setBox (σ : Heap pa) (b : ℕ) (v : Box) : Heap pa :=
  { σ with box := Function.update σ.box b v }

/-- Replace every `next` field. -/
def setNext (σ : Heap pa) (next : ℕ → Option ℕ) : Heap pa :=
  { σ with box := fun b => { σ.box b with next := next b } }

/-- `obj->box = box; obj->size = size` for the `object_t` at `obj`. -/
def writeObject (σ : Heap pa) (obj box size : ℕ) : Heap pa :=
  { σ with mem := writeWord (writeWord σ.mem obj box) (obj + 4) size }

/-- `obj->box`. -/
def objectBox (σ : Heap pa) (obj : ℕ) : ℕ := readWord σ.mem obj

/-- `obj->size`. -/
def objectSize (σ : Heap pa) (obj : ℕ) : ℕ := readWord σ.mem (obj + 4)

variable {σ : Heap pa} {b b' obj box size x : ℕ} {v : Box}

@[simp] theorem setBox_box_self : (σ.setBox b v).box b = v := Function.update_self ..

theorem setBox_box_of_ne (h : b' ≠ b) : (σ.setBox b v).box b' = σ.box b' :=
  Function.update_of_ne h ..

/-- A box that keeps its link keeps the list. -/
theorem setBox_next (h : v.next = (σ.box b).next) : (σ.setBox b v).next = σ.next := by
  funext b'
  rcases eq_or_ne b' b with rfl | hne
  · exact (congrArg Box.next setBox_box_self).trans h
  · exact congrArg Box.next (setBox_box_of_ne hne)

theorem objectBox_writeObject (h : box < 2 ^ 32) :
    (σ.writeObject obj box size).objectBox obj = box := by
  have hdisj : obj + 4 ≤ obj + 4 ∨ obj + 4 + 4 ≤ obj := .inl le_rfl
  exact (readWord_writeWord_of_disjoint hdisj).trans (readWord_writeWord_self h)

/-- The header is all that is written. -/
theorem writeObject_mem (h : x < obj ∨ obj + 8 ≤ x) :
    (σ.writeObject obj box size).mem x = σ.mem x :=
  (writeWord_of_not_mem (by omega)).trans (writeWord_of_not_mem (by omega))

end Heap

/-! ### Boxes -/

/-- `box_init`, over what the page held. -/
def boxInit (page : ℕ) (old : Box) : Box :=
  { old with
    page := page
    totalBlocks := blocksPerBox
    map := fun i => if i < mapBytes then 0 else old.map i
    dataPointer := page + sizeofBox + mapBytes }

/-- `heap_box_register`. -/
def heapBoxRegister (b : ℕ) (σ : Heap pa) : Option (Heap pa) :=
  let id := σ.nextBoxId
  let σ := { σ with nextBoxId := u32 (id + 1) }
  let σ := σ.setBox b { σ.box b with id := id, next := σ.boxes }
  let σ := { σ with boxes := some b }
  (boxHashInsert id b σ.boxHash).map fun t => { σ with boxHash := t }

/-- `heap_create_box`. -/
def heapCreateBox (σ : Heap pa) : Option (Option ℕ × Heap pa) :=
  match pa.allocPages 1 σ.pages with
  | none => none
  | some (page, pages) =>
    let σ := { σ with pages := pages }
    if page = 0 then some (none, σ)
    else
      (heapBoxRegister page (σ.setBox page (boxInit page (σ.box page)))).map fun σ =>
        (some page, σ)

/-- `heap_map_find_free`. -/
def heapMapFindFree (map : Bytes) (total needed : ℕ) : Option ℕ := findRun map total needed

/-- `heap_map_set`. -/
def heapMapSet (map : Bytes) (start count : ℕ) (used : Bool) : Bytes := setRun map start count used

/-- `heap_box_alloc`. -/
def heapBoxAlloc (b size : ℕ) (σ : Heap pa) : ℕ × Heap pa :=
  let needed := neededBlocks size
  match heapMapFindFree (σ.box b).map (σ.box b).totalBlocks needed with
  | none => (0, σ)
  | some start =>
    let σ := σ.setBox b { σ.box b with map := heapMapSet (σ.box b).map start needed true }
    let mem := (σ.box b).dataPointer + start * blockSize
    (mem + objectAlign, σ.writeObject mem b size)

/-- `heap_box_is_empty`. -/
def heapBoxIsEmpty (b : ℕ) (σ : Heap pa) : Prop :=
  AllClear (σ.box b).map (((σ.box b).totalBlocks + 7) / 8)

instance (b : ℕ) (σ : Heap pa) : Decidable (heapBoxIsEmpty b σ) :=
  inferInstanceAs (Decidable (AllClear _ _))

/-- `heap_box_free`. -/
def heapBoxFree (b : ℕ) (σ : Heap pa) : Option (Heap pa) :=
  if heapBoxIsEmpty b σ then
    match LinkedList.unlink boxSteps b σ.boxes σ.next with
    | none => none
    | some (head, next) =>
      let σ := { σ.setNext next with boxes := head }
      match boxHashRemove (σ.box b).id σ.boxHash with
      | none => none
      | some t =>
        (pa.freePages (σ.box b).page 1 σ.pages).map fun pages =>
          { σ with boxHash := t, pages := pages }
  else some σ

/-- `heap_fetch_block_index`: `none` for `-1`. -/
def heapFetchBlockIndex (b : Box) (mem : ℕ) : Option ℕ :=
  if mem < b.dataPointer then none
  else
    let diff := mem - b.dataPointer
    if diff % blockSize ≠ 0 then none
    else if diff / blockSize < b.totalBlocks then some (diff / blockSize) else none

/-- `heap_init`. -/
def heapInit (σ : Heap pa) : Option (Heap pa) :=
  if σ.initialized then some σ
  else
    match heapCreateBox { σ with boxes := none } with
    | none => none
    | some (none, σ) => some σ
    | some (some _, σ) => some { σ with initialized := true }

/-- The walk of `heap_box_iterate` from the box `cur` on. -/
def heapBoxIterateFrom (size : ℕ) (σ : Heap pa) : ℕ → Option ℕ → Option (ℕ × Heap pa)
  | 0, _ => none
  | _ + 1, none => some (0, σ)
  | steps + 1, some b =>
    if (heapBoxAlloc b size σ).1 ≠ 0 then some (heapBoxAlloc b size σ)
    else heapBoxIterateFrom size σ steps (σ.box b).next

/-- `heap_box_iterate`. -/
def heapBoxIterate (size : ℕ) (σ : Heap pa) : Option (ℕ × Heap pa) :=
  heapBoxIterateFrom size σ boxSteps σ.boxes

/-! ### Objects -/

/-- The part of `kmalloc` for objects larger than a page. -/
def kmallocLarge (size : ℕ) (σ : Heap pa) : Option (ℕ × Heap pa) :=
  (pa.allocPages (neededPages size) σ.pages).map fun (mem, pages) =>
    let σ := { σ with pages := pages }
    if mem = 0 then (0, σ) else (mem + objectAlign, σ.writeObject mem 0 size)

/-- The part of `kmalloc` for the other objects, with the heap initialised. -/
def kmallocSmall (size : ℕ) (σ : Heap pa) : Option (ℕ × Heap pa) :=
  match heapBoxIterate size σ with
  | none => none
  | some (r, σ) =>
    if r ≠ 0 then some (r, σ)
    else
      match heapCreateBox σ with
      | none => none
      | some (none, σ) => some (0, σ)
      | some (some b, σ) => some (heapBoxAlloc b size σ)

/-- `kmalloc`. -/
def kmalloc (size : ℕ) (σ : Heap pa) : Option (ℕ × Heap pa) :=
  if size = 0 then some (0, σ)
  else if size > pageSize then kmallocLarge size σ
  else if σ.initialized then kmallocSmall size σ
  else (heapInit σ).bind (kmallocSmall size)

/-- `kfree`. -/
def kfree (ptr : ℕ) (σ : Heap pa) : Option (Heap pa) :=
  if ptr = 0 then some σ
  else
    let obj := ptr - objectAlign
    if σ.objectBox obj = 0 then
      (pa.freePages obj (neededPages (σ.objectSize obj)) σ.pages).map fun pages =>
        { σ with pages := pages }
    else
      let b := σ.objectBox obj
      let needed := neededBlocks (σ.objectSize obj)
      match heapFetchBlockIndex (σ.box b) obj with
      | none => some σ
      | some idx =>
        let σ := σ.setBox b { σ.box b with map := heapMapSet (σ.box b).map idx needed false }
        if heapBoxIsEmpty b σ then heapBoxFree b σ else some σ

/-- `kcalloc`. -/
def kcalloc (n s : ℕ) (σ : Heap pa) : Option (ℕ × Heap pa) :=
  (kmalloc (u32 (n * s)) σ).map fun (p, σ) =>
    (p, if p = 0 then σ else { σ with mem := fill σ.mem p 0 (u32 (n * s)) })

/-- The number of bytes that `krealloc` copies. -/
def kreallocCopy (ptr newSize : ℕ) (σ : Heap pa) : ℕ :=
  if σ.objectSize (ptr - objectAlign) < newSize then σ.objectSize (ptr - objectAlign) else newSize

/-- `krealloc`. -/
def krealloc (ptr newSize : ℕ) (σ : Heap pa) : Option (ℕ × Heap pa) :=
  if ptr = 0 then kmalloc newSize σ
  else if newSize = 0 then (kfree ptr σ).map fun σ => (0, σ)
  else
    match kmalloc newSize σ with
    | none => none
    | some (n, σ) =>
      if n = 0 then some (0, σ)
      else
        (kfree ptr { σ with mem := copy σ.mem n ptr (kreallocCopy ptr newSize σ) }).map
          fun σ => (n, σ)

end Flopperating
