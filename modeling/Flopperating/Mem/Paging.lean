/-
# The first page directory

`paging_init` of `src/mem/paging.c`, up to `enable_paging`.  Paging is off until then, so the address
of a store is a physical one.

Each of `pd`, `pd_phys`, `pt0`, `pt1022` and `pt1022_phys` is a file-level variable, and the functions
that allocate the directory and the tables have local variables of the same names: what they obtain
is lost when they return.  `paging_init_recursive_mapping` and `load_pd` use the file-level
variables, which nothing assigns.  So the directory that is loaded is what lies at `NULL`, and one of
its slots refers to itself (`pagingInit_slot`).  And the frames that are obtained are not written either: `kphys_to_virt` adds
`KERNEL_VIRT_BASE` to their addresses.

| source | here |
| --- | --- |
| physical memory, a word at a time | `PagingRun.mem` |
| the addresses stored to | `PagingRun.written` |
| what the calls of `pmm_alloc_page` return | the argument `frames` |
-/

import Flopperating.Mem.PageTable

namespace Flopperating

/-- `KERNEL_VIRT_BASE`. -/
abbrev kernelVirtBase : ℕ := 0xC0000000

/-- `TABLE_BYTES`. -/
abbrev tableBytes : ℕ := 0x1000

structure PagingRun where
  mem : ℕ → ℕ
  written : List ℕ
  /-- What `pmm_alloc_page` has returned, last first. -/
  obtained : List ℕ
  /-- `pd`. -/
  pd : ℕ
  /-- `pd_phys`. -/
  pdPhys : ℕ
  /-- `pt1022_phys`. -/
  pt1022Phys : ℕ
  /-- `%cr3`. -/
  cr3 : ℕ

/-- `kphys_to_virt`. -/
def kphysToVirt (p : ℕ) : ℕ := if kernelVirtBase = 0 then p else u32 (p + kernelVirtBase)

/-- The address that the directory in `%cr3` gives. -/
def translate (mem : ℕ → ℕ) (cr3 va : ℕ) : Option ℕ :=
  (tableLink (mem (maskLow cr3 pageSize + 4 * pdIndex va))).bind fun table =>
    (tableLink (mem (table + 4 * ptIndex va))).map fun page => page + va % pageSize

namespace PagingRun

/-- A store of a word. -/
def store (a w : ℕ) (σ : PagingRun) : PagingRun :=
  { σ with mem := Function.update σ.mem a w, written := a :: σ.written }

/-- Stores to the first `n` entries of a table. -/
def storeEntries (table : ℕ) (entry : ℕ → ℕ) : ℕ → PagingRun → PagingRun
  | 0, σ => σ
  | n + 1, σ => (storeEntries table entry n σ).store (u32 (table + 4 * n)) (entry n)

/-- `pmm_alloc_page`; `0` is `NULL`. -/
def pmmAllocPage (frames : ℕ → ℕ) (σ : PagingRun) : ℕ × PagingRun :=
  (frames σ.obtained.length, { σ with obtained := frames σ.obtained.length :: σ.obtained })

/-- `paging_area_zero`. -/
def pagingAreaZero (area : ℕ) (σ : PagingRun) : PagingRun := storeEntries area (fun _ => 0) pageEntries σ

/-- `paging_init_page_directory`; `none` where it returns `-1`. -/
def pagingInitPageDirectory (frames : ℕ → ℕ) (σ : PagingRun) : Option PagingRun :=
  let (pdPhys, σ) := σ.pmmAllocPage frames
  if pdPhys = 0 then none
  else
    let pd := kphysToVirt pdPhys
    some (σ.pagingAreaZero pd)

/-- `paging_alloc_and_zero_pt`, with `*out_virt`. -/
def pagingAllocAndZeroPt (frames : ℕ → ℕ) (σ : PagingRun) : Option (ℕ × PagingRun) :=
  let (phys, σ) := σ.pmmAllocPage frames
  if phys = 0 then none
  else some (kphysToVirt phys, σ.pagingAreaZero (kphysToVirt phys))

/-- `paging_fill_identity_mapping`. -/
def pagingFillIdentityMapping (pt : ℕ) (σ : PagingRun) : PagingRun :=
  storeEntries pt (fun i => pageEntry (u32 (i * tableBytes)) pageRw) pageEntries σ

/-- `paging_init_first_page_table`. -/
def pagingInitFirstPageTable (frames : ℕ → ℕ) (σ : PagingRun) : Option PagingRun :=
  (σ.pagingAllocAndZeroPt frames).map fun o => o.2.pagingFillIdentityMapping o.1

/-- `paging_init_recursive_page_table_slot`. -/
def pagingInitRecursivePageTableSlot (frames : ℕ → ℕ) (σ : PagingRun) : Option PagingRun :=
  (σ.pagingAllocAndZeroPt frames).map Prod.snd

/-- `paging_init_page_tables`. -/
def pagingInitPageTables (frames : ℕ → ℕ) (σ : PagingRun) : Option PagingRun :=
  (σ.pagingInitFirstPageTable frames).bind (pagingInitRecursivePageTableSlot frames)

/-- `paging_init_recursive_mapping`. -/
def pagingInitRecursiveMapping (σ : PagingRun) : PagingRun :=
  let σ := σ.store (u32 (σ.pd + 4 * 1022)) (pageEntry σ.pt1022Phys pageRw)
  let pt1022 := kphysToVirt σ.pt1022Phys
  let σ := σ.pagingAreaZero pt1022
  let σ := σ.store (u32 (σ.pd + 4 * 1023)) (pageEntry σ.pdPhys pageRw)
  σ.store (u32 (pt1022 + 4 * 1023)) (pageEntry σ.pdPhys pageRw)

/-- `load_pd`. -/
def loadPd (pd : ℕ) (σ : PagingRun) : PagingRun := { σ with cr3 := pd }

/-- Where `paging_init` starts: the file-level variables are zero. -/
def boot (mem : ℕ → ℕ) : PagingRun := ⟨mem, [], [], 0, 0, 0, 0⟩

end PagingRun

open PagingRun in
/-- `paging_init`, up to `enable_paging`; `none` where it returns before. -/
def pagingInit (mem frames : ℕ → ℕ) : Option PagingRun :=
  (((boot mem).pagingInitPageDirectory frames).bind (pagingInitPageTables frames)).map fun σ =>
    let σ := σ.pagingInitRecursiveMapping
    σ.loadPd σ.pd

namespace PagingRun

variable {σ : PagingRun} {mem frames : ℕ → ℕ} {a i n table w : ℕ} {entry : ℕ → ℕ}

/-- What keeps the kernel running when paging is enabled. -/
structure KeepsRunning (σ : PagingRun) : Prop where
  identity : ∀ va < 0x400000, translate σ.mem σ.cr3 va = some va
  recursive : tableLink (σ.mem (maskLow σ.cr3 pageSize + 4 * recursivePde)) =
    some (maskLow σ.cr3 pageSize)
  others : ∀ i, 1 ≤ i → i < recursivePde → ∀ table ∈ tableLink (σ.mem (maskLow σ.cr3 pageSize + 4 * i)),
    ∀ j < pageEntries, σ.mem (table + 4 * j) = 0
  frames : ∀ a ∈ σ.written, ∃ f ∈ σ.obtained, f ≤ a ∧ a < f + pageSize

/-! ### What is stored -/

theorem storeEntries_mem (h : ∀ i < n, u32 (table + 4 * i) ≠ a) :
    (storeEntries table entry n σ).mem a = σ.mem a := by
  induction n with
  | zero => rw [storeEntries]
  | succ n ih =>
    rw [storeEntries]
    refine (Function.update_of_ne (h n (Nat.lt_succ_self n)).symm ..).trans ?_
    exact ih fun i hi => h i (hi.trans (Nat.lt_succ_self n))

theorem storeEntries_obtained : (storeEntries table entry n σ).obtained = σ.obtained := by
  induction n with
  | zero => rw [storeEntries]
  | succ n ih =>
    rw [storeEntries]
    exact ih

/-- The file-level variables are as they were at boot. -/
def Unassigned (σ : PagingRun) : Prop := σ.pd = 0 ∧ σ.pdPhys = 0 ∧ σ.pt1022Phys = 0

theorem Unassigned.storeEntries (h : σ.Unassigned) :
    (PagingRun.storeEntries table entry n σ).Unassigned := by
  induction n with
  | zero =>
    rw [PagingRun.storeEntries]
    exact h
  | succ n ih =>
    rw [PagingRun.storeEntries]
    exact ih

-- a table has too many entries to be computed
attribute [irreducible] storeEntries

theorem Unassigned.initPageDirectory {τ : PagingRun} (h : σ.Unassigned)
    (hrun : σ.pagingInitPageDirectory frames = some τ) : τ.Unassigned := by
  unfold pagingInitPageDirectory at hrun
  dsimp only at hrun
  split at hrun
  · exact absurd hrun (by simp)
  · obtain rfl := Option.some.inj hrun
    rw [pagingAreaZero]
    exact Unassigned.storeEntries h

theorem Unassigned.allocAndZeroPt {o : ℕ × PagingRun} (h : σ.Unassigned)
    (hrun : σ.pagingAllocAndZeroPt frames = some o) : o.2.Unassigned := by
  unfold pagingAllocAndZeroPt at hrun
  dsimp only at hrun
  split at hrun
  · exact absurd hrun (by simp)
  · obtain rfl := Option.some.inj hrun
    rw [pagingAreaZero]
    exact Unassigned.storeEntries h

theorem Unassigned.initPageTables {τ : PagingRun} (h : σ.Unassigned)
    (hrun : σ.pagingInitPageTables frames = some τ) : τ.Unassigned := by
  obtain ⟨ρ, hfirst, hslot⟩ := Option.bind_eq_some_iff.1 hrun
  obtain ⟨o, ho, rfl⟩ := Option.map_eq_some_iff.1 hfirst
  obtain ⟨o', ho', rfl⟩ := Option.map_eq_some_iff.1 hslot
  have hfilled : (o.2.pagingFillIdentityMapping o.1).Unassigned := by
    rw [pagingFillIdentityMapping]
    exact (h.allocAndZeroPt ho).storeEntries
  exact hfilled.allocAndZeroPt ho'

theorem store_mem_self : (σ.store a w).mem a = w := Function.update_self ..

theorem store_mem_of_ne {b : ℕ} (h : b ≠ a) : (σ.store a w).mem b = σ.mem b :=
  Function.update_of_ne h ..

/-- What `paging_init_recursive_mapping` stores, it stores at `NULL` and at the kernel's base. -/
theorem Unassigned.recursiveMapping (h : σ.Unassigned) : σ.pagingInitRecursiveMapping.pd = 0 ∧
    σ.pagingInitRecursiveMapping.mem 4088 = pageEntry 0 pageRw := by
  obtain ⟨hpd, hpdPhys, hpt⟩ := h
  have hslot : u32 (0 + 4 * 1022) = 4088 := by decide
  have hslot' : u32 (0 + 4 * 1023) = 4092 := by decide
  have hlast : u32 (kernelVirtBase + 4 * 1023) = 0xC0000FFC := by decide
  have hvirt : kphysToVirt 0 = kernelVirtBase := by decide
  generalize h₁ : σ.store 4088 (pageEntry 0 pageRw) = σ₁
  have hvars₁ : σ₁.Unassigned := h₁ ▸ ⟨hpd, hpdPhys, hpt⟩
  generalize h₂ : σ₁.pagingAreaZero kernelVirtBase = σ₂
  have hvars₂ : σ₂.Unassigned := h₂ ▸ hvars₁.storeEntries
  have hmap : σ.pagingInitRecursiveMapping =
      (σ₂.store 4092 (pageEntry 0 pageRw)).store 0xC0000FFC (pageEntry 0 pageRw) := by
    have h₃ : (σ₂.store 4092 (pageEntry 0 pageRw)).pdPhys = 0 := hvars₂.2.1
    unfold pagingInitRecursiveMapping
    dsimp only
    rw [hpd, hpt, hslot, h₁, hvars₁.2.2, hvirt, h₂, hvars₂.1, hvars₂.2.1, hslot', h₃, hlast]
  rw [hmap]
  refine ⟨hvars₂.1, ?_⟩
  have hfar : ∀ i < pageEntries, u32 (kernelVirtBase + 4 * i) ≠ 4088 := by
    intro i hi
    simp only [u32, kernelVirtBase, pageEntries] at *
    omega
  rw [store_mem_of_ne (by decide), store_mem_of_ne (by decide), ← h₂, pagingAreaZero,
    storeEntries_mem hfar, ← h₁, store_mem_self]

/-- The directory that is loaded is at `NULL`, and its slot before the last refers to it. -/
theorem pagingInit_slot (hrun : pagingInit mem frames = some σ) :
    σ.cr3 = 0 ∧ σ.mem 4088 = pageEntry 0 pageRw := by
  obtain ⟨τ, hτ, hlast⟩ := Option.map_eq_some_iff.1 hrun
  obtain ⟨ρ, hdirectory, htables⟩ := Option.bind_eq_some_iff.1 hτ
  have hboot : (boot mem).Unassigned := ⟨rfl, rfl, rfl⟩
  obtain ⟨hpd, hslot⟩ := ((hboot.initPageDirectory hdirectory).initPageTables htables).recursiveMapping
  rw [← hlast]
  dsimp only [loadPd]
  exact ⟨hpd, hslot⟩

/-- Such a directory is no good: one of its slots refers to the directory, which is not zeroed. -/
theorem not_keepsRunning (hrun : pagingInit mem frames = some σ) : ¬ σ.KeepsRunning := by
  intro hkeeps
  obtain ⟨hcr3, hslot⟩ := pagingInit_slot hrun
  have haddr : maskLow σ.cr3 pageSize + 4 * 1022 = 4088 := by rw [hcr3]; decide
  have hlink : tableLink (σ.mem (maskLow σ.cr3 pageSize + 4 * 1022)) = some 0 := by
    rw [haddr, hslot]
    decide
  have hzero : σ.mem 4088 = 0 := hkeeps.others 1022 (by decide) (by decide) 0 hlink 1022 (by decide)
  rw [hslot] at hzero
  exact absurd hzero (by decide)

/-! ### When `enable_paging` is reached -/

theorem initPageDirectory_cases (frames : ℕ → ℕ) (σ : PagingRun) :
    frames σ.obtained.length = 0 ∧ σ.pagingInitPageDirectory frames = none ∨
    frames σ.obtained.length ≠ 0 ∧ ∃ τ, σ.pagingInitPageDirectory frames = some τ ∧
      τ.obtained.length = σ.obtained.length + 1 := by
  unfold pagingInitPageDirectory pmmAllocPage pagingAreaZero
  dsimp only
  split
  · next hnull => exact .inl ⟨hnull, rfl⟩
  · next hnull => exact .inr ⟨hnull, _, rfl, by rw [storeEntries_obtained]; rfl⟩

theorem allocAndZeroPt_cases (frames : ℕ → ℕ) (σ : PagingRun) :
    frames σ.obtained.length = 0 ∧ σ.pagingAllocAndZeroPt frames = none ∨
    frames σ.obtained.length ≠ 0 ∧ ∃ o, σ.pagingAllocAndZeroPt frames = some o ∧
      o.2.obtained.length = σ.obtained.length + 1 := by
  unfold pagingAllocAndZeroPt pmmAllocPage pagingAreaZero
  dsimp only
  split
  · next hnull => exact .inl ⟨hnull, rfl⟩
  · next hnull => exact .inr ⟨hnull, _, rfl, by rw [storeEntries_obtained]; rfl⟩

theorem initPageTables_eq_none_iff : σ.pagingInitPageTables frames = none ↔
    frames σ.obtained.length = 0 ∨ frames (σ.obtained.length + 1) = 0 := by
  unfold pagingInitPageTables pagingInitFirstPageTable pagingInitRecursivePageTableSlot
  rcases allocAndZeroPt_cases frames σ with ⟨hnull, hnone⟩ | ⟨hne, o, ho, hlength⟩
  · simp [hnone, hnull]
  · have hobtained : (o.2.pagingFillIdentityMapping o.1).obtained.length = σ.obtained.length + 1 := by
      rw [pagingFillIdentityMapping, storeEntries_obtained, hlength]
    have hnext := allocAndZeroPt_cases frames (o.2.pagingFillIdentityMapping o.1)
    rw [hobtained] at hnext
    rcases hnext with ⟨hnull, hnone⟩ | ⟨hne', o', ho', -⟩
    · simp [ho, hnone, hnull]
    · simp [ho, ho', hne, hne']

/-- `enable_paging` is not reached exactly when one of the first three pages is not to be had. -/
theorem pagingInit_eq_none_iff :
    pagingInit mem frames = none ↔ frames 0 = 0 ∨ frames 1 = 0 ∨ frames 2 = 0 := by
  unfold pagingInit
  rw [Option.map_eq_none_iff]
  rcases initPageDirectory_cases frames (boot mem) with
    ⟨hnull, hnone⟩ | ⟨hne, τ, hτ, hlength⟩
  · have hnull : frames 0 = 0 := hnull
    simp [hnone, hnull]
  · have hne : frames 0 ≠ 0 := hne
    have hlength : τ.obtained.length = 1 := hlength
    rw [hτ, Option.bind_some, initPageTables_eq_none_iff, hlength]
    simp [hne]

/-- **Boot paging keeps the kernel running** if and only if it is not turned on. -/
theorem keepsRunning_iff : (∀ σ, pagingInit mem frames = some σ → σ.KeepsRunning) ↔
    frames 0 = 0 ∨ frames 1 = 0 ∨ frames 2 = 0 := by
  rw [← pagingInit_eq_none_iff]
  constructor
  · intro hall
    by_contra hsome
    obtain ⟨σ, hσ⟩ := Option.ne_none_iff_exists'.1 hsome
    exact not_keepsRunning hσ (hall σ hσ)
  · intro hnone σ hσ
    exact absurd (hnone.symm.trans hσ) (by simp)

/-- Three frames, one after the other. -/
def freshFrames (k : ℕ) : ℕ := 0x200000 + pageSize * k

theorem not_keepsRunning_freshFrames :
    ∃ σ, pagingInit (fun _ => 0) freshFrames = some σ ∧ ¬ σ.KeepsRunning := by
  have hsome : pagingInit (fun _ => 0) freshFrames ≠ none := by
    rw [ne_eq, pagingInit_eq_none_iff]
    decide
  obtain ⟨σ, hσ⟩ := Option.ne_none_iff_exists'.1 hsome
  exact ⟨σ, hσ, not_keepsRunning hσ⟩

end PagingRun

end Flopperating
