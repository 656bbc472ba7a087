/-
# Virtual memory

`src/mem/vmm.c`: regions (address spaces), their directories and page tables.

| source | here |
| --- | --- |
| the page of physical memory at `a`, as words | `Vmm.mem a` |
| the directory in CR3 | `Vmm.currentPgDir` |
| `region->pg_dir[pdi]` | `Vmm.pde`, memory at its physical address |
| `RECURSIVE_PT(pdi)`, `&pg_tbls[pdi * PAGE_ENTRIES]` | `Vmm.recursivePt` |
| `pmm_alloc_page`, `pmm_free_page` | `Vmm.allocPage`, `Vmm.freePage` on `freePages` |
| `kmalloc`, `kfree` of a descriptor | `Vmm.kmalloc`, `Vmm.kfree` on `objects` |
| `vmm_region_t*`, `vmm_alloc_class_t*`, `vmm_area_t*` | addresses, `none` for `NULL` |
| `0` and `-1` of type `int` | `0` and `-1` |
| an access that faults, a call that never returns | `none` |

The physical allocator hands out the first of `freePages`, the kernel heap the
first of `objects`; the lists are any lists, so the order in which pages and
descriptors come, and when they run out, is left open.  A region argument is not
`NULL`, and the tests for that are left out, as are the locks, `invlpg` and the
log.
-/

import Flopperating.Mem.PageTable

namespace Flopperating

/-- `vm_class_type_t`. -/
inductive VmClass
  | kernel
  | user
  | mmio
  | dma
  | stack
  | custom
  deriving DecidableEq

/-- `vmm_class_config_t`; the field `end` is `stop`. -/
structure ClassConfig where
  type : VmClass
  start : ℕ
  stop : ℕ
  flags : ℕ
  align : ℕ
  validator : Option (ℕ → ℕ → Bool)

/-- `vmm_area_t`. -/
structure Area where
  start : ℕ
  size : ℕ
  next : Option ℕ
  prev : Option ℕ

/-- `vmm_alloc_class_t`. -/
structure AllocClass where
  config : ClassConfig
  vmaHead : Option ℕ
  hintPtr : ℕ
  next : Option ℕ

/-- `vmm_region_t`. -/
structure Region where
  pgDir : ℕ
  next : Option ℕ
  baseVa : ℕ
  nextFreeVa : ℕ
  classList : Option ℕ

/-- Physical memory, the loaded directory, the two allocators and the
descriptors of `vmm.c`. -/
structure Vmm where
  mem : TwoLevel.Store ℕ ℕ ℕ
  currentPgDir : ℕ
  currentRegion : Option ℕ
  freePages : List ℕ
  objects : List ℕ
  region : ℕ → Region
  regionList : Option ℕ
  allocClass : ℕ → AllocClass
  area : ℕ → Area

namespace Vmm

/-- `pmm_alloc_page`. -/
def allocPage (σ : Vmm) : ℕ × Vmm :=
  match σ.freePages with
  | [] => (0, σ)
  | pa :: free => (pa, { σ with freePages := free })

/-- `pmm_free_page`: the page that the address lies in is free again. -/
def freePage (pa : ℕ) (σ : Vmm) : Vmm :=
  if pa = 0 then σ else { σ with freePages := maskLow pa pageSize :: σ.freePages }

/-- `kmalloc` of a descriptor. -/
def kmalloc (σ : Vmm) : Option ℕ × Vmm :=
  match σ.objects with
  | [] => (none, σ)
  | p :: objects => (some p, { σ with objects := objects })

/-- `kfree` of a descriptor. -/
def kfree (p : ℕ) (σ : Vmm) : Vmm := { σ with objects := p :: σ.objects }

/-- `page[i] = word`. -/
def setWord (page i word : ℕ) (σ : Vmm) : Vmm := { σ with mem := TwoLevel.write σ.mem page i word }

/-- `flop_memset(page, 0, PAGE_SIZE)`. -/
def zeroPage (page : ℕ) (σ : Vmm) : Vmm := { σ with mem := TwoLevel.fill σ.mem page 0 }

/-- Overwrite one region descriptor. -/
def setRegion (r : ℕ) (v : Region) (σ : Vmm) : Vmm :=
  { σ with region := Function.update σ.region r v }

/-- `region->next_free_va = va`. -/
def setNextFreeVa (r va : ℕ) (σ : Vmm) : Vmm := σ.setRegion r { σ.region r with nextFreeVa := va }

/-- `region->pg_dir[pdi]`. -/
def pde (σ : Vmm) (r pdi : ℕ) : ℕ := σ.mem (σ.region r).pgDir pdi

/-- `RECURSIVE_PT(pdi)`: the table at index `pdi` of the loaded directory. -/
def recursivePt (σ : Vmm) (pdi : ℕ) : Option ℕ := tableLink (σ.mem σ.currentPgDir pdi)

end Vmm

open Vmm

/-! ### Single pages -/

/-- The part of `vmm_map` that allocates a page table when one is needed. -/
def vmmMapTable (r pdi : ℕ) (σ : Vmm) : Option (ℤ × Vmm) :=
  if present (σ.pde r pdi) then some (0, σ)
  else
    let (ptPhys, σ) := σ.allocPage
    if ptPhys = 0 then some (-1, σ)
    else do
      let σ := σ.setWord (σ.region r).pgDir pdi (pageEntry ptPhys (pageRw ||| pageUser))
      let pt ← σ.recursivePt pdi
      return (0, σ.zeroPage pt)

/-- `vmm_map`. -/
def vmmMap (r va pa flags : ℕ) (σ : Vmm) : Option (ℤ × Vmm) := do
  let (status, σ) ← vmmMapTable r (pdIndex va) σ
  if status < 0 then return (-1, σ)
  let pt ← σ.recursivePt (pdIndex va)
  return (0, σ.setWord pt (ptIndex va) (pageEntry pa flags))

/-- `vmm_unmap`. -/
def vmmUnmap (r va : ℕ) (σ : Vmm) : Option (ℤ × Vmm) :=
  if present (σ.pde r (pdIndex va)) then do
    let pt ← σ.recursivePt (pdIndex va)
    return (0, σ.setWord pt (ptIndex va) 0)
  else some (-1, σ)

/-- The word for an address, read through `RECURSIVE_PT`; `0` without a table. -/
def vmmTableWord (r va : ℕ) (σ : Vmm) : Option ℕ :=
  if present (σ.pde r (pdIndex va)) then do
    let pt ← σ.recursivePt (pdIndex va)
    return σ.mem pt (ptIndex va)
  else some 0

/-- `vmm_is_mapped`. -/
def vmmIsMapped (r va : ℕ) (σ : Vmm) : Option Bool := (vmmTableWord r va σ).map present

/-- `vmm_is_user_mapped`. -/
def vmmIsUserMapped (r va : ℕ) (σ : Vmm) : Option Bool :=
  if present (σ.pde r (pdIndex va)) && userBit (σ.pde r (pdIndex va)) then
    (vmmTableWord r va σ).map fun word => present word && userBit word
  else some false

/-- `vmm_resolve`. -/
def vmmResolve (r va : ℕ) (σ : Vmm) : Option ℕ :=
  (vmmTableWord r va σ).map fun word =>
    if present word then maskLow word pageSize ||| va % pageSize else 0

/-- `vmm_protect`. -/
def vmmProtect (r va flags : ℕ) (σ : Vmm) : Option (ℤ × Vmm) :=
  if present (σ.pde r (pdIndex va)) then do
    let pt ← σ.recursivePt (pdIndex va)
    let word := σ.mem pt (ptIndex va)
    if present word then return (0, σ.setWord pt (ptIndex va) (pageEntry word flags))
    else return (-1, σ)
  else some (-1, σ)

/-! ### Ranges -/

/-- The loop of `vmm_map_range` from page `i` on, for `n` pages. -/
def vmmMapRangeFrom (r va pa flags : ℕ) : ℕ → ℕ → Vmm → Option (ℤ × Vmm)
  | 0, _, σ => some (0, σ)
  | n + 1, i, σ => do
    let (status, σ) ← vmmMap r (u32 (va + i * pageSize)) (u32 (pa + i * pageSize)) flags σ
    if status < 0 then return (-1, σ)
    vmmMapRangeFrom r va pa flags n (i + 1) σ

/-- `vmm_map_range`. -/
def vmmMapRange (r va pa pages flags : ℕ) (σ : Vmm) : Option (ℤ × Vmm) :=
  vmmMapRangeFrom r va pa flags pages 0 σ

/-- The loop of `vmm_unmap_range` from page `i` on, for `n` pages. -/
def vmmUnmapRangeFrom (r va : ℕ) : ℕ → ℕ → Vmm → Option (ℤ × Vmm)
  | 0, _, σ => some (0, σ)
  | n + 1, i, σ => do
    let (status, σ) ← vmmUnmap r (u32 (va + i * pageSize)) σ
    if status < 0 then return (-1, σ)
    vmmUnmapRangeFrom r va n (i + 1) σ

/-- `vmm_unmap_range`. -/
def vmmUnmapRange (r va pages : ℕ) (σ : Vmm) : Option (ℤ × Vmm) :=
  vmmUnmapRangeFrom r va pages 0 σ

/-- `vmm_unmap` of each page from page `i` on, for `n` pages, whatever it returns. -/
def vmmUnmapEach (r va : ℕ) : ℕ → ℕ → Vmm → Option Vmm
  | 0, _, σ => some σ
  | n + 1, i, σ => do
    let (_, σ) ← vmmUnmap r (u32 (va + i * pageSize)) σ
    vmmUnmapEach r va n (i + 1) σ

/-- The loop of `vmm_free` from page `i` on, for `n` pages. -/
def vmmFreeFrom (r va : ℕ) : ℕ → ℕ → Vmm → Option Vmm
  | 0, _, σ => some σ
  | n + 1, i, σ => do
    let pa ← vmmResolve r (u32 (va + i * pageSize)) σ
    let σ := if pa ≠ 0 then σ.freePage pa else σ
    let (_, σ) ← vmmUnmap r (u32 (va + i * pageSize)) σ
    vmmFreeFrom r va n (i + 1) σ

/-- `vmm_free`. -/
def vmmFree (r va pages : ℕ) (σ : Vmm) : Option Vmm := vmmFreeFrom r va pages 0 σ

/-- The loop of `vmm_map_shared` from page `i` on, for `n` pages. -/
def vmmMapSharedFrom (a b vaA vaB pa flags : ℕ) : ℕ → ℕ → Vmm → Option (ℤ × Vmm)
  | 0, _, σ => some (0, σ)
  | n + 1, i, σ => do
    let (status, σ) ← vmmMap a (u32 (vaA + i * pageSize)) (u32 (pa + i * pageSize)) flags σ
    if status < 0 then return (-1, σ)
    let (status, σ) ← vmmMap b (u32 (vaB + i * pageSize)) (u32 (pa + i * pageSize)) flags σ
    if status < 0 then return (-1, σ)
    vmmMapSharedFrom a b vaA vaB pa flags n (i + 1) σ

/-- `vmm_map_shared`. -/
def vmmMapShared (a b vaA vaB pa pages flags : ℕ) (σ : Vmm) : Option (ℤ × Vmm) :=
  vmmMapSharedFrom a b vaA vaB pa flags pages 0 σ

/-! ### Allocation

`vmm_alloc`, `vmm_map_anonymous`, `vmm_alloc_stack`, `vmm_alloc_aligned` and
`vmm_map_pages` run the same loop: a page from the physical allocator, then
`vmm_map`.  They differ in whether the result of `vmm_map` is looked at
(`checked`) and in what follows a failure. -/

/-- How the loop over new pages ends. -/
inductive LoopEnd
  | done
  /-- no page for page `i` of the range -/
  | noPage (i : ℕ)
  /-- `vmm_map` of `pa` at page `i` of the range failed -/
  | noTable (i pa : ℕ)

/-- The loop over new pages from page `i` on, for `n` pages. -/
def vmmMapFresh (checked : Bool) (r va flags : ℕ) : ℕ → ℕ → Vmm → Option (LoopEnd × Vmm)
  | 0, _, σ => some (.done, σ)
  | n + 1, i, σ =>
    let (pa, σ) := σ.allocPage
    if pa = 0 then some (.noPage i, σ)
    else do
      let (status, σ) ← vmmMap r (u32 (va + i * pageSize)) pa flags σ
      if checked && status < 0 then return (.noTable i pa, σ)
      vmmMapFresh checked r va flags n (i + 1) σ

/-- `(uintptr_t) -1`. -/
abbrev minusOne : ℕ := 2 ^ 32 - 1

/-- The address at which `vmm_alloc` allocates. -/
def vmmBump (r : ℕ) (σ : Vmm) : ℕ :=
  if (σ.region r).nextFreeVa ≠ 0 then (σ.region r).nextFreeVa else (σ.region r).baseVa

/-- `vmm_alloc`. -/
def vmmAlloc (r pages flags : ℕ) (σ : Vmm) : Option (ℕ × Vmm) :=
  if pages = 0 then some (minusOne, σ)
  else do
    let va := vmmBump r σ
    match ← vmmMapFresh false r va flags pages 0 σ with
    | (.noPage i, σ) => do
      let (_, σ) ← vmmUnmapRange r va i σ
      return (minusOne, σ)
    | (_, σ) => return (va, σ.setNextFreeVa r (u32 (va + pages * pageSize)))

/-- `used` of the loops that look for a free range. -/
def vmmPageUsed (r va : ℕ) (σ : Vmm) : Option Bool := (vmmTableWord r va σ).map present

/-- The steps given to a walk: more than it can take before it is where it was. -/
def vmmSteps : ℕ := 2 ^ 33

/-- The loop of `vmm_find_free_range`. -/
def vmmFindFreeFrom (r pages : ℕ) (σ : Vmm) : ℕ → ℕ → ℕ → ℕ → Option ℕ
  | 0, _, _, _ => none
  | steps + 1, va, run, start =>
    if va < 0xFFFFFFFF then do
      let used ← vmmPageUsed r va σ
      if used then vmmFindFreeFrom r pages σ steps (u32 (va + pageSize)) 0 start
      else
        let start := if run = 0 then va else start
        if u32 (run + 1) ≥ pages then return start
        else vmmFindFreeFrom r pages σ steps (u32 (va + pageSize)) (u32 (run + 1)) start
    else some 0

/-- `vmm_find_free_range`. -/
def vmmFindFreeRange (r pages : ℕ) (σ : Vmm) : Option ℕ := vmmFindFreeFrom r pages σ vmmSteps 0 0 0

/-- `(va + alignment - 1) & ~(alignment - 1)`. -/
def vmmRoundUp (va alignment : ℕ) : ℕ :=
  u32 (va + alignment - 1) &&& (2 ^ 32 - 1 - (alignment - 1))

/-- The loop of `vmm_find_free_range_aligned`. -/
def vmmFindAlignedFrom (r pages alignment : ℕ) (σ : Vmm) : ℕ → ℕ → ℕ → ℕ → Option ℕ
  | 0, _, _, _ => none
  | steps + 1, va, run, start =>
    if va < 0xFFFFF000 then
      if run = 0 ∧ va % alignment ≠ 0 then
        vmmFindAlignedFrom r pages alignment σ steps (u32 (va + pageSize)) run start
      else do
        let start := if run = 0 then va else start
        let used ← vmmPageUsed r va σ
        if used then
          let va := if va % alignment ≠ 0 then u32 (vmmRoundUp va alignment + 2 ^ 32 - pageSize) else va
          vmmFindAlignedFrom r pages alignment σ steps (u32 (va + pageSize)) 0 start
        else if u32 (run + 1) ≥ pages then return start
        else vmmFindAlignedFrom r pages alignment σ steps (u32 (va + pageSize)) (u32 (run + 1)) start
    else some 0

/-- `vmm_find_free_range_aligned`. -/
def vmmFindFreeRangeAligned (r pages alignment : ℕ) (σ : Vmm) : Option ℕ :=
  let next := (σ.region r).nextFreeVa
  let va :=
    if next ≠ 0 then if next % alignment ≠ 0 then vmmRoundUp next alignment else next
    else (σ.region r).baseVa
  vmmFindAlignedFrom r pages alignment σ vmmSteps va 0 0

/-- `vmm_map_anonymous`. -/
def vmmMapAnonymous (r pages flags : ℕ) (σ : Vmm) : Option (ℕ × Vmm) := do
  let va ← vmmFindFreeRange r pages σ
  if va = 0 then return (0, σ)
  match ← vmmMapFresh true r va flags pages 0 σ with
  | (.noPage i, σ) => return (0, ← vmmUnmapEach r va i 0 σ)
  | (.noTable i pa, σ) => do
    let σ ← vmmUnmapEach r va (i + 1) 0 σ
    return (0, σ.freePage pa)
  | (.done, σ) => return (va, σ)

/-- `vmm_alloc_stack`. -/
def vmmAllocStack (r pages flags : ℕ) (σ : Vmm) : Option (ℕ × Vmm) :=
  if pages = 0 then some (0, σ)
  else do
    let totalPages := u32 (pages + 2)
    let vaBase ← vmmFindFreeRange r totalPages σ
    if vaBase = 0 then return (0, σ)
    let stackStart := u32 (vaBase + pageSize)
    match ← vmmMapFresh false r stackStart flags pages 0 σ with
    | (.noPage i, σ) => do
      let (_, σ) ← vmmUnmapRange r stackStart i σ
      return (0, σ)
    | (_, σ) =>
      let top := u32 (vaBase + totalPages * pageSize)
      return (stackStart, if (σ.region r).nextFreeVa < top then σ.setNextFreeVa r top else σ)

/-- `vmm_alloc_aligned`. -/
def vmmAllocAligned (r pages alignment flags : ℕ) (σ : Vmm) : Option (ℕ × Vmm) := do
  let alignment := if alignment < pageSize then pageSize else alignment
  let va ← vmmFindFreeRangeAligned r pages alignment σ
  if va = 0 then return (0, σ)
  match ← vmmMapFresh false r va flags pages 0 σ with
  | (.noPage i, σ) => do
    let (_, σ) ← vmmUnmapRange r va i σ
    return (0, σ)
  | (_, σ) =>
    let top := u32 (va + pages * pageSize)
    return (va, if top > (σ.region r).nextFreeVa then σ.setNextFreeVa r top else σ)

/-! ### Regions -/

/-- `vmm_region_insert`. -/
def vmmRegionInsert (r : ℕ) (σ : Vmm) : Vmm :=
  { σ.setRegion r { σ.region r with next := σ.regionList } with regionList := some r }

/-- `vmm_region_remove`. -/
def vmmRegionRemove (r : ℕ) (σ : Vmm) : Option Vmm :=
  match LinkedList.unlink vmmSteps r σ.regionList fun i => (σ.region i).next with
  | none => none
  | some (head, next) =>
    some { σ with region := fun i => { σ.region i with next := next i }, regionList := head }

/-- The part of `vmm_region_create` before the first pages are allocated. -/
def vmmRegionNew (σ : Vmm) : Option ℕ × Vmm :=
  let (dirPhys, σ) := σ.allocPage
  if dirPhys = 0 then (none, σ)
  else
    let σ := σ.zeroPage dirPhys
    let σ := σ.setWord dirPhys recursivePde (pageEntry dirPhys (pageRw ||| pageUser))
    match σ.kmalloc with
    | (none, σ) => (none, σ.freePage dirPhys)
    | (some r, σ) =>
      (some r, vmmRegionInsert r (σ.setRegion r { σ.region r with
        pgDir := dirPhys, next := none, baseVa := userSpaceStart, nextFreeVa := userSpaceStart }))

/-- `vmm_region_create`: the region, and what is stored at `out_va` when
`hasOut` says that it is not `NULL`. -/
def vmmRegionCreate (initialPages flags : ℕ) (hasOut : Bool) (σ : Vmm) :
    Option ((Option ℕ × Option ℕ) × Vmm) :=
  match vmmRegionNew σ with
  | (none, σ) => some ((none, none), σ)
  | (some r, σ) =>
    let dirPhys := (σ.region r).pgDir
    if initialPages > 0 ∧ hasOut then do
      let (va, σ) ← vmmAlloc r initialPages flags σ
      if va = minusOne then
        let σ ← vmmRegionRemove r σ
        return ((none, none), (σ.kfree r).freePage dirPhys)
      return ((some r, some va), σ)
    else some ((some r, none), σ)

/-- `vmm_region_destroy`. -/
def vmmRegionDestroy (r : ℕ) (σ : Vmm) : Option Vmm := do
  let σ ← vmmRegionRemove r σ
  return (σ.freePage (σ.region r).pgDir).kfree r

/-- `vmm_switch`. -/
def vmmSwitch (r : ℕ) (σ : Vmm) : Vmm :=
  { σ with currentRegion := some r, currentPgDir := (σ.region r).pgDir }

/-! ### Copying and tearing down -/

/-- `flop_memcpy(dest, src, PAGE_SIZE)`, which does nothing for `NULL`. -/
def copyPage (dest src : ℕ) (σ : Vmm) : Vmm :=
  if dest = 0 ∨ src = 0 then σ else { σ with mem := Function.update σ.mem dest (σ.mem src) }

/-- The loop of `vmm_copy_frames` from index `pti` on, for `n` indices; the source
table is `RECURSIVE_PT(pdi)`. -/
def vmmCopyFramesFrom (pdi dstPt : ℕ) : ℕ → ℕ → Vmm → Option (ℤ × Vmm)
  | 0, _, σ => some (0, σ)
  | n + 1, pti, σ => do
    let srcPt ← σ.recursivePt pdi
    if present (σ.mem srcPt pti) then
      let (newPage, σ) := σ.allocPage
      if newPage = 0 then return (-1, σ)
      let σ := copyPage newPage (maskLow (σ.mem srcPt pti) pageSize) σ
      let σ := σ.setWord dstPt pti (maskLow newPage pageSize ||| σ.mem srcPt pti % pageSize)
      vmmCopyFramesFrom pdi dstPt n (pti + 1) σ
    else vmmCopyFramesFrom pdi dstPt n (pti + 1) σ

/-- `vmm_copy_frames`. -/
def vmmCopyFrames (pdi dstPt : ℕ) (σ : Vmm) : Option (ℤ × Vmm) :=
  vmmCopyFramesFrom pdi dstPt pageEntries 0 σ

/-- The loop of `vmm_iterate_and_copy_page_tables` from index `pdi` on, for `n`
indices. -/
def vmmCopyTablesFrom (src dst : ℕ) : ℕ → ℕ → Vmm → Option (ℤ × Vmm)
  | 0, _, σ => some (0, σ)
  | n + 1, pdi, σ =>
    if present (σ.pde src pdi) then
      let (ptPhys, σ) := σ.allocPage
      if ptPhys = 0 then some (-1, σ)
      else do
        let (status, σ) ← vmmCopyFrames pdi ptPhys (σ.zeroPage ptPhys)
        if status < 0 then return (-1, σ.freePage ptPhys)
        let σ := σ.setWord (σ.region dst).pgDir pdi
          (maskLow ptPhys pageSize ||| σ.pde src pdi % pageSize)
        vmmCopyTablesFrom src dst n (pdi + 1) σ
    else vmmCopyTablesFrom src dst n (pdi + 1) σ

/-- `vmm_iterate_and_copy_page_tables`. -/
def vmmIterateAndCopyPageTables (src dst : ℕ) (σ : Vmm) : Option (ℤ × Vmm) :=
  vmmCopyTablesFrom src dst pageEntries 0 σ

/-- `vmm_new_copied_pgdir`. -/
def vmmNewCopiedPgdir (σ : Vmm) : ℕ × Vmm :=
  let (newDir, σ) := σ.allocPage
  if newDir = 0 then (0, σ) else (newDir, σ.zeroPage newDir)

/-- `vmm_copy_pagemap`. -/
def vmmCopyPagemap (src : ℕ) (σ : Vmm) : Option (Option ℕ × Vmm) :=
  let (newDir, σ) := vmmNewCopiedPgdir σ
  if newDir = 0 then some (none, σ)
  else
    match σ.kmalloc with
    | (none, σ) => some (none, σ)
    | (some dst, σ) => do
      let σ := σ.setRegion dst { σ.region dst with
        pgDir := newDir, next := none, baseVa := (σ.region src).baseVa,
        nextFreeVa := (σ.region src).nextFreeVa }
      let (status, σ) ← vmmIterateAndCopyPageTables src dst σ
      if status < 0 then return (none, ← vmmRegionDestroy dst σ)
      let σ := σ.setWord newDir recursivePde (pageEntry newDir pageRw)
      return (some dst, vmmRegionInsert dst σ)

/-- The loop of `vmm_free_physical_frames` over the table `RECURSIVE_PT(pdi)`,
from index `pti` on, for `n` indices. -/
def vmmFreeFramesFrom (pdi : ℕ) : ℕ → ℕ → Vmm → Option Vmm
  | 0, _, σ => some σ
  | n + 1, pti, σ => do
    let pt ← σ.recursivePt pdi
    let σ := if present (σ.mem pt pti) then σ.freePage (maskLow (σ.mem pt pti) pageSize) else σ
    vmmFreeFramesFrom pdi n (pti + 1) σ

/-- `vmm_free_physical_frames`. -/
def vmmFreePhysicalFrames (pdi : ℕ) (σ : Vmm) : Option Vmm := vmmFreeFramesFrom pdi pageEntries 0 σ

/-- The loop of `vmm_iterate_through_page_tables` from index `pdi` on, for `n`
indices. -/
def vmmFreeTablesFrom (r : ℕ) : ℕ → ℕ → Vmm → Option Vmm
  | 0, _, σ => some σ
  | n + 1, pdi, σ =>
    if present (σ.pde r pdi) then do
      let σ ← vmmFreePhysicalFrames pdi σ
      vmmFreeTablesFrom r n (pdi + 1) (σ.freePage (maskLow (σ.pde r pdi) pageSize))
    else vmmFreeTablesFrom r n (pdi + 1) σ

/-- `vmm_iterate_through_page_tables`. -/
def vmmIterateThroughPageTables (r : ℕ) (σ : Vmm) : Option Vmm := vmmFreeTablesFrom r pageEntries 0 σ

/-- `vmm_nuke_pagemap`. -/
def vmmNukePagemap (r : ℕ) (σ : Vmm) : Option Vmm := do
  let σ ← vmmIterateThroughPageTables r σ
  let σ := σ.freePage (σ.region r).pgDir
  let σ ← vmmRegionRemove r σ
  return σ.kfree r

/-! ### Buffers -/

/-- The loop of `vmm_verify_buffer` from page `pg` on. -/
def vmmVerifyFrom (r lastPage : ℕ) (σ : Vmm) : ℕ → ℕ → Option ℤ
  | 0, _ => none
  | steps + 1, pg =>
    if pg ≤ lastPage then do
      if ← vmmIsUserMapped r pg σ then vmmVerifyFrom r lastPage σ steps (u32 (pg + pageSize))
      else return -1
    else some 0

/-- `vmm_verify_buffer`. -/
def vmmVerifyBuffer (r addr size : ℕ) (σ : Vmm) : Option ℤ :=
  if size = 0 then some 0
  else
    let stop := u32 (addr + size)
    if stop < addr then some (-1)
    else vmmVerifyFrom r (maskLow (u32 (stop + 2 ^ 32 - 1)) pageSize) σ vmmSteps (maskLow addr pageSize)

end Flopperating
