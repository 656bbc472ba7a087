/-
# The multiboot memory map

`src/multiboot/multiboot.h` and the `PMM_*` macros of `src/mem/pmm.h`.

The boot loader hands over a table of memory map entries and a list of loaded
modules.  The kernel walks the table with a byte pointer, from `mmap_addr` up
to `mmap_addr + mmap_length`, each entry naming the distance to the next; an
entry of size `0` ends the walk (`PMM_MMAP_ENTRY_VALID`).  `addr` and `len` of
an entry have 64 bits, and the page frame allocator cuts both down to 32.
-/

import Flopperating.Machine
import Mathlib.Data.List.Basic

namespace Flopperating

/-- `struct multiboot_mmap_entry`. -/
structure MmapEntry where
  size : ℕ
  addr : ℕ
  len : ℕ
  type : ℕ
deriving DecidableEq

/-- `struct multiboot_mod_list`, without the fields the allocator ignores. -/
structure MultibootModule where
  modStart : ℕ
  modEnd : ℕ

/-- `multiboot_info_t`, without the fields the allocator ignores.  `self` is
the address of the structure (`NULL` is `0`); `mmap` are the entries stored
from `mmapAddr` on and `mods` the array stored at `mods_addr`. -/
structure MultibootInfo where
  self : ℕ
  flags : ℕ
  modsCount : ℕ
  mods : ℕ → MultibootModule
  mmapLength : ℕ
  mmapAddr : ℕ
  mmap : List MmapEntry

/-- `MULTIBOOT_INFO_MODS`. -/
def multibootInfoMods : ℕ := 0x00000008

/-- `MULTIBOOT_INFO_MEM_MAP`. -/
def multibootInfoMemMap : ℕ := 0x00000040

/-- `MULTIBOOT_MEMORY_AVAILABLE`. -/
def multibootMemoryAvailable : ℕ := 1

/-- `sizeof(multiboot_info_t)`: the last member ends at offset 120. -/
def sizeofMultibootInfo : ℕ := 120

/-- `PMM_HAS_MMAP`. -/
def pmmHasMmap (mb : MultibootInfo) : Prop :=
  mb.self ≠ 0 ∧ mb.flags &&& multibootInfoMemMap ≠ 0

/-- `PMM_HAS_MODS`. -/
def pmmHasMods (mb : MultibootInfo) : Prop :=
  mb.self ≠ 0 ∧ mb.flags &&& multibootInfoMods ≠ 0

instance (mb : MultibootInfo) : Decidable (pmmHasMmap mb) := inferInstanceAs (Decidable (_ ∧ _))

instance (mb : MultibootInfo) : Decidable (pmmHasMods mb) := inferInstanceAs (Decidable (_ ∧ _))

/-- `PMM_REGION_USABLE`: the comparison is made on the 64-bit address. -/
def pmmRegionUsable (e : MmapEntry) : Prop :=
  e.type = multibootMemoryAvailable ∧ 0x100000 ≤ e.addr

instance (e : MmapEntry) : Decidable (pmmRegionUsable e) := inferInstanceAs (Decidable (_ ∧ _))

/-- `PMM_REGION_START`: the address is cut to 32 bits, then aligned up. -/
def pmmRegionStart (e : MmapEntry) : ℕ := pmmAlign (u32 e.addr)

/-- `PMM_REGION_END`: both fields are cut to 32 bits and added in 32 bits. -/
def pmmRegionEnd (e : MmapEntry) : ℕ := maskLow (u32 (u32 e.addr + u32 e.len)) pageSize

/-- The walk from `PMM_MMAP_BEGIN` by `PMM_MMAP_NEXT` while the pointer is
below the end and the entry is valid, over the entries stored there. -/
def mmapWalk (stop : ℕ) : ℕ → List MmapEntry → List MmapEntry
  | _, [] => []
  | ptr, e :: es =>
    if ptr < stop ∧ e.size ≠ 0 then e :: mmapWalk stop (u32 (ptr + e.size + 4)) es else []

/-- The entries a walk over the memory map visits, in order. -/
def MultibootInfo.entries (mb : MultibootInfo) : List MmapEntry :=
  mmapWalk (u32 (mb.mmapAddr + mb.mmapLength)) mb.mmapAddr mb.mmap

theorem pageSize_dvd_pmmRegionStart (e : MmapEntry) : pageSize ∣ pmmRegionStart e :=
  pageSize_dvd_maskLow _

theorem pageSize_dvd_pmmRegionEnd (e : MmapEntry) : pageSize ∣ pmmRegionEnd e :=
  pageSize_dvd_maskLow _

/-- No region reaches into the last page of the 32-bit address space. -/
theorem pmmRegionEnd_le (e : MmapEntry) : pmmRegionEnd e ≤ 2 ^ 32 - pageSize :=
  maskLow_pageSize_le _

end Flopperating
