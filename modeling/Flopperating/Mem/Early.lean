/-
# The early allocator

`src/mem/early.c` and `src/mem/early.h`: `early_reserve_page`,
`early_allocator_init`, `early_alloc` and `early_free`.  The pool is nine pages of
the memory map; its chunks are found first-fit, cut when enough is left over, and
joined with free neighbours when they come back.

The headers lie in the pool, in front of the bytes handed out, and are read and
written there: `loadChunk` is the header at an address, and the `set…` functions
store one of its fields.  `NULL` is `0`.

| field of `early_chunk_t` | offset |
| --- | --- |
| `size` | 0 |
| `free` | 4 |
| `next` | 8 |
| `prev` | 12 |

A loop that does not end is `none`: the search of a region for a page is given
`reserveSteps` steps, more than there are pages, and the walk over the chunks
`earlyPoolSize` steps, more than there are chunks in the pool.
-/

import Flopperating.Data.ByteMemory
import Flopperating.Mem.Multiboot

namespace Flopperating

open ByteMemory

/-- `EARLY_PAGES_TOTAL`. -/
abbrev earlyPagesTotal : ℕ := 10

/-- `EARLY_POOL_PAGES`. -/
abbrev earlyPoolPages : ℕ := 9

/-- `EARLY_POOL_PAGES * PAGE_SIZE`. -/
def earlyPoolSize : ℕ := earlyPoolPages * pageSize

/-- `CHUNK_HEADER_SIZE`: `sizeof(early_chunk_t)` on i386. -/
abbrev chunkHeaderSize : ℕ := 16

/-- The steps given to the search of a region for a page. -/
def reserveSteps : ℕ := 2 ^ 20 + 1

/-- `early_chunk_t`. -/
structure EarlyChunk where
  size : ℕ
  free : Bool
  next : ℕ
  prev : ℕ
deriving DecidableEq

/-- The header at `c`. -/
def loadChunk (m : Memory) (c : ℕ) : EarlyChunk :=
  ⟨readWord m c, m (c + 4) != 0, readWord m (c + 8), readWord m (c + 12)⟩

/-- `c->size = v`. -/
def setChunkSize (m : Memory) (c v : ℕ) : Memory := writeWord m c v

/-- `c->free = v`. -/
def setChunkFree (m : Memory) (c : ℕ) (v : Bool) : Memory :=
  Function.update m (c + 4) (if v then 1 else 0)

/-- `c->next = v`. -/
def setChunkNext (m : Memory) (c v : ℕ) : Memory := writeWord m (c + 8) v

/-- `c->prev = v`. -/
def setChunkPrev (m : Memory) (c v : ℕ) : Memory := writeWord m (c + 12) v

/-- `if (c) c->prev = v`. -/
def setPrevIf (m : Memory) (c v : ℕ) : Memory := if c ≠ 0 then setChunkPrev m c v else m

/-- The globals of `early.c` that these functions use, and the memory. -/
structure Early where
  memory : Memory
  mbInfo : Option MultibootInfo
  reserved : List ℕ
  poolBase : ℕ
  head : ℕ
  initialized : Bool

/-! ### Pages -/

/-- The inner loop of `early_reserve_page`: the first page from `p` on that ends
by `stop` and is not taken. -/
def earlyPageFrom (reserved : List ℕ) (stop : ℕ) : ℕ → ℕ → Option (Option ℕ)
  | 0, _ => none
  | fuel + 1, p =>
    if u32 (p + pageSize) ≤ stop then
      if p ∈ reserved then earlyPageFrom reserved stop fuel (u32 (p + pageSize)) else some (some p)
    else some none

/-- The loop of `early_reserve_page` over the entries stored from `ptr` on. -/
def earlyPageIn (reserved : List ℕ) (stop : ℕ) : ℕ → List MmapEntry → Option (Option ℕ)
  | _, [] => some none
  | ptr, e :: es =>
    if ptr < stop then
      let rest := earlyPageIn reserved stop (u32 (ptr + u32 (e.size + 4))) es
      if e.type = multibootMemoryAvailable then
        match earlyPageFrom reserved (u32 (u32 e.addr + u32 e.len)) reserveSteps
            (alignUp (u32 e.addr) pageSize) with
        | none => none
        | some (some p) => some (some p)
        | some none => rest
      else rest
    else some none

/-- `early_reserve_page`. -/
def earlyReservePage (σ : Early) : Option (ℕ × Early) :=
  match σ.mbInfo with
  | none => some (0, σ)
  | some mb =>
    if earlyPagesTotal ≤ σ.reserved.length then some (0, σ)
    else
      (earlyPageIn σ.reserved (u32 (mb.mmapAddr + mb.mmapLength)) mb.mmapAddr mb.mmap).map
        fun found => match found with
        | none => (0, σ)
        | some p => (p, { σ with
            reserved := σ.reserved ++ [p], memory := fill σ.memory p 0 pageSize })

/-- `n` calls of `early_reserve_page`, with the pages they return. -/
def earlyReservePages : ℕ → Early → Option (List ℕ × Early)
  | 0, σ => some ([], σ)
  | n + 1, σ =>
    match earlyReservePage σ with
    | none => none
    | some (p, σ) => (earlyReservePages n σ).map fun (ps, σ) => (p :: ps, σ)

/-- The end of `early_allocator_init`: one free chunk, all of the pool. -/
def earlyInitPool (σ : Early) (firstPool : ℕ) : Early :=
  let m := setChunkSize σ.memory firstPool (earlyPoolSize - chunkHeaderSize)
  let m := setChunkFree m firstPool true
  let m := setChunkNext m firstPool 0
  let m := setChunkPrev m firstPool 0
  { σ with memory := m, poolBase := firstPool, head := firstPool, initialized := true }

/-- `early_allocator_init`: a page for metadata, then the pages of the pool, of which
the first is kept. -/
def earlyAllocatorInit (σ : Early) : Option Early :=
  if σ.initialized then some σ
  else
    match earlyReservePage σ with
    | none => none
    | some (_, σ) =>
      (earlyReservePages earlyPoolPages σ).map fun (pages, σ) => earlyInitPool σ (pages.headD 0)

/-! ### Chunks -/

/-- The split in `early_alloc`: `cur` keeps `size` bytes, and a new chunk behind it takes
the rest. -/
def earlySplit (m : Memory) (cur size remaining : ℕ) : Memory :=
  let newChunk := u32 (cur + chunkHeaderSize + size)
  let m := setChunkSize m newChunk (remaining - chunkHeaderSize)
  let m := setChunkFree m newChunk true
  let m := setChunkNext m newChunk (loadChunk m cur).next
  let m := setChunkPrev m newChunk cur
  let m := setPrevIf m (loadChunk m cur).next newChunk
  let m := setChunkNext m cur newChunk
  setChunkSize m cur size

/-- What `early_alloc` does with the chunk it has found. -/
def earlyTake (m : Memory) (cur size : ℕ) : Memory :=
  let remaining := (loadChunk m cur).size - size
  let m := if chunkHeaderSize + 8 < remaining then earlySplit m cur size remaining else m
  setChunkFree m cur false

/-- The walk of `early_alloc`. -/
def earlyAllocFrom (size : ℕ) (m : Memory) : ℕ → ℕ → Option (ℕ × Memory)
  | 0, _ => none
  | fuel + 1, cur =>
    if cur = 0 then some (0, m)
    else if (loadChunk m cur).free = true ∧ size ≤ (loadChunk m cur).size then
      some (u32 (cur + chunkHeaderSize), earlyTake m cur size)
    else earlyAllocFrom size m fuel (loadChunk m cur).next

/-- `early_alloc`. -/
def earlyAlloc (size : ℕ) (σ : Early) : Option (ℕ × Early) :=
  if σ.initialized = false ∨ size = 0 then some (0, σ)
  else
    (earlyAllocFrom size σ.memory earlyPoolSize σ.head).map fun (p, m) =>
      (p, { σ with memory := m })

/-- A merge in `early_coalesce`: the chunk `c` takes in `d`, the one behind it. -/
def earlyMerge (m : Memory) (c d : ℕ) : Memory :=
  let next := (loadChunk m d).next
  let m := setChunkSize m c (u32 ((loadChunk m c).size + (chunkHeaderSize + (loadChunk m d).size)))
  let m := setChunkNext m c next
  setPrevIf m next c

/-- `early_coalesce`, merge forward. -/
def earlyMergeForward (m : Memory) (chunk : ℕ) : Memory :=
  let next := (loadChunk m chunk).next
  if next ≠ 0 ∧ (loadChunk m next).free = true then earlyMerge m chunk next else m

/-- `early_coalesce`, merge backward. -/
def earlyMergeBackward (m : Memory) (chunk : ℕ) : Memory :=
  let prev := (loadChunk m chunk).prev
  if prev ≠ 0 ∧ (loadChunk m prev).free = true then earlyMerge m prev chunk else m

/-- `early_coalesce`. -/
def earlyCoalesce (m : Memory) (chunk : ℕ) : Memory :=
  earlyMergeBackward (earlyMergeForward m chunk) chunk

/-- `early_free`. -/
def earlyFree (ptr : ℕ) (σ : Early) : Early :=
  if σ.initialized = false ∨ ptr = 0 then σ
  else
    let chunk := u32 (ptr + (2 ^ 32 - chunkHeaderSize))
    { σ with memory := earlyCoalesce (setChunkFree σ.memory chunk true) chunk }

/-! ### One store at a time -/

/-- Headers at these places do not overlap, unless they are the same. -/
def Clear (c d : ℕ) : Prop := c = d ∨ c + chunkHeaderSize ≤ d ∨ d + chunkHeaderSize ≤ c

variable {m : Memory} {c d v : ℕ}

theorem loadChunk_congr {m' : Memory} (h : ∀ x, c ≤ x → x < c + chunkHeaderSize → m' x = m x) :
    loadChunk m' c = loadChunk m c := by
  have hh : chunkHeaderSize = 16 := rfl
  unfold loadChunk
  rw [readWord_congr fun x hx hx' => h x hx (by omega), h (c + 4) (by omega) (by omega),
    readWord_congr fun x hx hx' => h x (by omega) (by omega),
    readWord_congr fun x hx hx' => h x (by omega) (by omega)]

/-- A store inside a header changes that header only. -/
theorem loadChunk_eq_update {m' : Memory} {ch : EarlyChunk} (h : Clear c d)
    (hframe : ∀ x, x < c ∨ c + chunkHeaderSize ≤ x → m' x = m x) (hself : loadChunk m' c = ch) :
    loadChunk m' d = Function.update (loadChunk m) c ch d := by
  have hh : chunkHeaderSize = 16 := rfl
  rcases h with rfl | h
  · rw [Function.update_self, hself]
  · rw [Function.update_of_ne (by rintro rfl; omega)]
    exact loadChunk_congr fun x hx hx' => hframe x (by omega)

theorem loadChunk_setChunkSize (h : Clear c d) (hv : v < 2 ^ 32) :
    loadChunk (setChunkSize m c v) d =
      Function.update (loadChunk m) c { loadChunk m c with size := v } d := by
  have hh : chunkHeaderSize = 16 := rfl
  refine loadChunk_eq_update h (fun x hx => writeWord_of_not_mem (by omega)) ?_
  have hnext := readWord_writeWord_of_disjoint (m := m) (a := c) (w := v) (b := c + 8) (by omega)
  have hprev := readWord_writeWord_of_disjoint (m := m) (a := c) (w := v) (b := c + 12) (by omega)
  rw [loadChunk, loadChunk, setChunkSize, readWord_writeWord_self hv,
    writeWord_of_not_mem (by omega), hnext, hprev]

theorem loadChunk_setChunkFree {v : Bool} (h : Clear c d) :
    loadChunk (setChunkFree m c v) d =
      Function.update (loadChunk m) c { loadChunk m c with free := v } d := by
  have hh : chunkHeaderSize = 16 := rfl
  have hkeep : ∀ x, x ≠ c + 4 → setChunkFree m c v x = m x := fun x hx => Function.update_of_ne hx ..
  refine loadChunk_eq_update h (fun x hx => hkeep x (by omega)) ?_
  have hfree : (setChunkFree m c v (c + 4) != 0) = v := by
    rw [setChunkFree, Function.update_self]
    cases v <;> rfl
  rw [loadChunk, loadChunk, hfree, readWord_congr fun x hx hx' => hkeep x (by omega),
    readWord_congr fun x hx hx' => hkeep x (by omega),
    readWord_congr fun x hx hx' => hkeep x (by omega)]

theorem loadChunk_setChunkNext (h : Clear c d) (hv : v < 2 ^ 32) :
    loadChunk (setChunkNext m c v) d =
      Function.update (loadChunk m) c { loadChunk m c with next := v } d := by
  have hh : chunkHeaderSize = 16 := rfl
  refine loadChunk_eq_update h (fun x hx => writeWord_of_not_mem (by omega)) ?_
  have hsize := readWord_writeWord_of_disjoint (m := m) (a := c + 8) (w := v) (b := c) (by omega)
  have hprev := readWord_writeWord_of_disjoint (m := m) (a := c + 8) (w := v) (b := c + 12) (by omega)
  rw [loadChunk, loadChunk, setChunkNext, readWord_writeWord_self hv,
    writeWord_of_not_mem (by omega), hsize, hprev]

theorem loadChunk_setChunkPrev (h : Clear c d) (hv : v < 2 ^ 32) :
    loadChunk (setChunkPrev m c v) d =
      Function.update (loadChunk m) c { loadChunk m c with prev := v } d := by
  have hh : chunkHeaderSize = 16 := rfl
  refine loadChunk_eq_update h (fun x hx => writeWord_of_not_mem (by omega)) ?_
  have hsize := readWord_writeWord_of_disjoint (m := m) (a := c + 12) (w := v) (b := c) (by omega)
  have hnext := readWord_writeWord_of_disjoint (m := m) (a := c + 12) (w := v) (b := c + 8) (by omega)
  rw [loadChunk, loadChunk, setChunkPrev, readWord_writeWord_self hv,
    writeWord_of_not_mem (by omega), hsize, hnext]

end Flopperating
