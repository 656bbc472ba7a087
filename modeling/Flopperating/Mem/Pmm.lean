/-
# The physical page frame allocator

`src/mem/pmm.c` and `src/mem/pmm.h`: the buddy system over the pages of the
usable regions.

| source | here |
| --- | --- |
| `struct page*` | index into `page_info`, `none` for `NULL` |
| `struct page.next` | `Page.next` |
| `buddy.free_list[k]` | `BuddyAllocator.freeList k`, for every `k` |
| `buddy.lock` | `BuddyAllocator.lock`, set while held |
| a call that never returns | `none` |

`free_list` has `MAX_ORDER + 1` entries in memory; the model lets it be indexed
at every order, so that what lies behind its end is not part of these
definitions.  The recursion of `pmm_buddy_merge` and the walk along a free list
carry a number of steps, taken from the number of page records, and give `none`
when they exceed it; `pmmBuddyMerge_spec` shows that they do not.
-/

import Flopperating.Data.LinkedList
import Flopperating.Mem.Multiboot
import Mathlib.Data.Int.Notation

namespace Flopperating

/-- `MAX_ORDER`. -/
abbrev maxOrder : ℕ := 10

/-- `struct page`. -/
structure Page where
  address : ℕ
  order : ℕ
  isFree : ℤ
  next : Option ℕ

/-- `sizeof(struct page)`: four words. -/
def sizeofPage : ℕ := 16

/-- `struct buddy_allocator`.  `pageInfo` is what the array holds and
`pageInfoAddr` where it lies. -/
structure BuddyAllocator where
  freeList : ℕ → Option ℕ
  pageInfo : ℕ → Page
  pageInfoAddr : ℕ
  totalPages : ℕ
  memoryStart : ℕ
  memoryEnd : ℕ
  memoryBase : ℕ
  lock : Bool

namespace BuddyAllocator

/-- The `next` fields of the page records. -/
def next (s : BuddyAllocator) (i : ℕ) : Option ℕ := (s.pageInfo i).next

/-- Overwrite one page record. -/
def setPage (s : BuddyAllocator) (i : ℕ) (pg : Page) : BuddyAllocator :=
  { s with pageInfo := Function.update s.pageInfo i pg }

/-- Overwrite one entry of `free_list`. -/
def setFreeList (s : BuddyAllocator) (k : ℕ) (p : Option ℕ) : BuddyAllocator :=
  { s with freeList := Function.update s.freeList k p }

/-- Replace every `next` field. -/
def setNext (s : BuddyAllocator) (next : ℕ → Option ℕ) : BuddyAllocator :=
  { s with pageInfo := fun i => { s.pageInfo i with next := next i } }

/-- `page->next = buddy.free_list[k]; buddy.free_list[k] = page`, with the
other fields of the record set to `pg`. -/
def pushPage (s : BuddyAllocator) (k i : ℕ) (pg : Page) : BuddyAllocator :=
  (s.setPage i { pg with next := s.freeList k }).setFreeList k (some i)

end BuddyAllocator

/-- `spinlock`: returns only when the lock is not held. -/
def spinlock (s : BuddyAllocator) : Option BuddyAllocator :=
  if s.lock then none else some { s with lock := true }

/-- `spinlock_unlock`. -/
def spinlockUnlock (s : BuddyAllocator) : BuddyAllocator := { s with lock := false }

/-- `page_index`. -/
def pageIndex (s : BuddyAllocator) (addr : ℕ) : ℕ :=
  u32 (addr + 2 ^ 32 - s.memoryBase) / pageSize

/-- `phys_to_page_index`. -/
def physToPageIndex (s : BuddyAllocator) (addr : ℕ) : Option ℕ :=
  if addr < s.memoryBase ∨ addr ≥ s.memoryEnd then none
  else
    let index := pageIndex s addr
    if index ≥ s.totalPages then none else some index

/-- `pmm_get_buddy_address`. -/
def pmmGetBuddyAddress (addr order : ℕ) : ℕ := addr ^^^ u32 (u32 (2 ^ order) * pageSize)

/-- The loop of `pmm_buddy_merge` that takes `page` off `free_list[order]`. -/
def pmmUnlink (s : BuddyAllocator) (order page : ℕ) : Option BuddyAllocator :=
  match LinkedList.unlink (s.totalPages + 1) page (s.freeList order) s.next with
  | none => none
  | some (head, next) => some ((s.setNext next).setFreeList order head)

/-- `pmm_buddy_merge`, for at most `steps` nested calls. -/
def pmmBuddyMerge : ℕ → ℕ → ℕ → BuddyAllocator → Option BuddyAllocator
  | 0, _, _, _ => none
  | steps + 1, addr, order, s =>
    let buddyAddr := pmmGetBuddyAddress addr order
    match physToPageIndex s addr with
    | none => some s
    | some page =>
      let link := s.pushPage order page { s.pageInfo page with order := order, isFree := 1 }
      match physToPageIndex s buddyAddr with
      | none => some link
      | some buddyPage =>
        if (s.pageInfo buddyPage).isFree ≠ 0 ∧ (s.pageInfo buddyPage).order = order then
          match pmmUnlink s order buddyPage with
          | none => none
          | some s =>
            pmmBuddyMerge steps (if addr < buddyAddr then addr else buddyAddr) (order + 1) s
        else some link

/-- The loop of `pmm_fetch_order_block` from `j` on, for `n` more orders. -/
def pmmFetchFrom (s : BuddyAllocator) : ℕ → ℕ → Option (ℕ × BuddyAllocator)
  | 0, _ => none
  | n + 1, j =>
    match s.freeList j with
    | some block => some (block, s.setFreeList j (s.pageInfo block).next)
    | none => pmmFetchFrom s n (j + 1)

/-- `pmm_fetch_order_block`. -/
def pmmFetchOrderBlock (order : ℕ) (s : BuddyAllocator) : Option (ℕ × BuddyAllocator) :=
  pmmFetchFrom s (maxOrder + 1 - order) order

/-- `pmm_determine_split`, on the value of `from_order`. -/
def pmmDetermineSplit (block toOrder : ℕ) : ℕ → BuddyAllocator → BuddyAllocator
  | 0, s => s
  | fromOrder + 1, s =>
    if fromOrder + 1 > toOrder then
      let splitSize := u32 (u32 (2 ^ fromOrder) * pageSize)
      let buddyAddr := u32 ((s.pageInfo block).address + splitSize)
      match physToPageIndex s buddyAddr with
      | none => s
      | some right =>
        let s := s.pushPage fromOrder right
          { s.pageInfo right with address := buddyAddr, order := fromOrder, isFree := 1 }
        let s := s.setPage block { s.pageInfo block with order := fromOrder }
        pmmDetermineSplit block toOrder fromOrder s
    else s

/-- `pmm_alloc_block`.  The order of the record is overwritten before it is
passed to `pmm_determine_split` as the order to split from. -/
def pmmAllocBlock (order : ℕ) (s : BuddyAllocator) : ℕ × BuddyAllocator :=
  match pmmFetchOrderBlock order s with
  | none => (0, s)
  | some (block, s) =>
    let s := s.setPage block { s.pageInfo block with isFree := 0, order := order }
    let s := pmmDetermineSplit block order (s.pageInfo block).order s
    ((s.pageInfo block).address, s)

/-- `pmm_free_block`. -/
def pmmFreeBlock (order : ℕ) (s : BuddyAllocator) (addr : ℕ) : Option BuddyAllocator :=
  match physToPageIndex s addr with
  | none => some s
  | some page =>
    let s := s.setPage page { s.pageInfo page with isFree := 1 }
    pmmBuddyMerge (s.totalPages + 1) (s.pageInfo page).address order s

/-- The successive values of `cur` in the loop of `pmm_free_pages`. -/
def pmmFreeTargets (order : ℕ) : ℕ → ℕ → List ℕ
  | 0, _ => []
  | count + 1, cur => cur :: pmmFreeTargets order count (u32 (cur + u32 (2 ^ order * pageSize)))

/-- `pmm_free_pages`. -/
def pmmFreePages (addr order count : ℕ) (s : BuddyAllocator) : Option BuddyAllocator :=
  if addr = 0 ∨ order > maxOrder ∨ count = 0 then some s
  else do
    let s ← spinlock s
    let s ← (pmmFreeTargets order count addr).foldlM (pmmFreeBlock order) s
    return spinlockUnlock s

/-- The loop of `pmm_alloc_pages`, with `count - i` rounds to go. -/
def pmmAllocLoop (order : ℕ) : ℕ → ℕ → ℕ → BuddyAllocator → Option (ℕ × BuddyAllocator)
  | 0, _, startPage, s => some (startPage, spinlockUnlock s)
  | rounds + 1, i, startPage, s =>
    let (pg, s) := pmmAllocBlock order s
    if pg = 0 then
      -- roll back what was taken so far, with the lock still held
      match (if startPage ≠ 0 then pmmFreePages startPage order i s else some s) with
      | none => none
      | some s => some (0, spinlockUnlock s)
    else pmmAllocLoop order rounds (i + 1) (if startPage = 0 then pg else startPage) s

/-- `pmm_alloc_pages`: the pointer returned and the state left. -/
def pmmAllocPages (order count : ℕ) (s : BuddyAllocator) : Option (ℕ × BuddyAllocator) :=
  if order > maxOrder ∨ count = 0 then some (0, s)
  else do
    let s ← spinlock s
    pmmAllocLoop order count 0 0 s

/-- `pmm_alloc_page`. -/
def pmmAllocPage (s : BuddyAllocator) : Option (ℕ × BuddyAllocator) := pmmAllocPages 0 1 s

/-- `pmm_free_page`. -/
def pmmFreePage (addr : ℕ) (s : BuddyAllocator) : Option BuddyAllocator := pmmFreePages addr 0 1 s

end Flopperating
