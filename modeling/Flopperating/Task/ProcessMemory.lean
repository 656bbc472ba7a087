/-
# The memory of a process

`proc_alloc_within_process` and `proc_free_within_process` of `src/task/process.c`.  What a process
is given should be new pages, counted in `mem_usage`, and `proc_free_within_process` should take it
all back; and when memory runs out nothing should happen (`MemoryAccounted`).  None of this is so:

* `vmm_alloc` returns `-1` when it fails, and what is tested for is `0`: the process gets `-1`
  as an address, and the pages are counted (`procAllocWithinProcess_spec`);
* `proc_free_within_process` unmaps one page, whatever the size (`procFreeWithinProcess_rest`), and no
  page goes back to the physical allocator (`procFreeWithinProcess_freePages`).

What is right is that with enough free pages the process gets new ones
(`procAllocWithinProcess_granted`).
-/

import Flopperating.Mem.VmmLeak
import Flopperating.Mem.VmmAllOrNothing
import Flopperating.Task.ForkCounts

namespace Flopperating

namespace Kernel

/-- `vmm_alloc`, for a region that may be `NULL`. -/
def vmmAlloc (region : Option ℕ) (pages flags : ℕ) (σ : Kernel) : Option (ℕ × Kernel) :=
  match region with
  | none => some (minusOne, σ)
  | some r => (Flopperating.vmmAlloc r pages flags σ.vmm).map fun o => (o.1, { σ with vmm := o.2 })

/-- `vmm_unmap`, which follows the region. -/
def vmmUnmap (region : Option ℕ) (va : ℕ) (σ : Kernel) : Option (ℤ × Kernel) :=
  match region with
  | none => none
  | some r => (Flopperating.vmmUnmap r va σ.vmm).map fun o => (o.1, { σ with vmm := o.2 })

/-- The pages for `size` bytes. -/
def procPages (size : ℕ) : ℕ := if size % pageSize ≠ 0 then size / pageSize + 1 else size / pageSize

/-- `proc_alloc_within_process`. -/
def procAllocWithinProcess (process : Option ℕ) (size : ℕ) (σ : Kernel) : Option (ℕ × Kernel) :=
  match process with
  | none => some (0, σ)
  | some p =>
    if size = 0 then some (0, σ)
    else do
      let (allocAddr, σ) ← σ.vmmAlloc (σ.process p).region (procPages size) (pageUser ||| pageRw)
      if allocAddr = 0 then return (0, σ)
      return (allocAddr, σ.setProcess p { σ.process p with
        memUsage := u32 ((σ.process p).memUsage + u32 (procPages size * pageSize)) })

/-- `proc_free_within_process`. -/
def procFreeWithinProcess (process : Option ℕ) (addr size : ℕ) (σ : Kernel) : Option Kernel :=
  match process with
  | none => some σ
  | some p =>
    if addr = 0 ∨ size = 0 then some σ
    else do
      let (_, σ) ← σ.vmmUnmap (σ.process p).region addr
      return σ.setProcess p { σ.process p with
        memUsage := u32 ((σ.process p).memUsage + (2 ^ 32 - u32 (procPages size * pageSize))) }

/-! ### What should hold -/

/-- The process has new pages at `va`, and they are counted. -/
structure Granted (p r size va : ℕ) (σ σ₁ : Kernel) : Prop where
  pages : HandedOut r (procPages size) va σ.vmm σ₁.vmm
  counted : (σ₁.process p).memUsage = u32 ((σ.process p).memUsage + procPages size * pageSize)

/-- The pages at `va`, which the process had in `σ₁`, are unmapped, free, and no longer counted. -/
structure TakenBack (p r size va : ℕ) (σ σ₁ σ₂ : Kernel) : Prop where
  unmapped : RangeUnmapped r (procPages size) va σ₂.vmm
  frames : ∀ i < procPages size, ∀ f ∈ σ.vmm.freePages,
    vmmResolve r (u32 (va + i * pageSize)) σ₁.vmm = some (f ||| va % pageSize) → f ∈ σ₂.vmm.freePages
  counted : (σ₂.process p).memUsage = (σ.process p).memUsage

/-- More pages are needed than are free. -/
def RunsOut (r size : ℕ) (σ : Kernel) : Prop :=
  σ.vmm.freePages.length < pagesNeeded (σ.vmm.hasTable (σ.vmm.region r).pgDir)
    (vmmBump r σ.vmm / pageSize) (procPages size)

/-- The allocation succeeds with pages that can be given back, and when memory runs out it fails
and changes nothing. -/
def MemoryAccounted (p r size : ℕ) (σ : Kernel) : Prop :=
  ∃ va σ₁, σ.procAllocWithinProcess (some p) size = some (va, σ₁) ∧
    (va ≠ 0 → Granted p r size va σ σ₁ ∧
      ∃ σ₂, σ₁.procFreeWithinProcess (some p) va size = some σ₂ ∧ TakenBack p r size va σ σ₁ σ₂) ∧
    (RunsOut r size σ → va = 0 ∧ (σ₁.process p).memUsage = (σ.process p).memUsage ∧
      ∀ a, vmmResolve r a σ₁.vmm = vmmResolve r a σ.vmm)

/-! ### What the code does -/

section Code

variable {σ σ' : Kernel} {dirs : ℕ → Prop} {p r size va i : ℕ}

theorem procPages_pos (hsize : 0 < size) : 0 < procPages size := by
  unfold procPages
  split
  · exact Nat.succ_pos _
  · next h => exact Nat.div_pos (Nat.le_of_dvd hsize (Nat.dvd_of_mod_eq_zero (not_not.1 h))) (by decide)

/-- An allocation is one of `vmm_alloc`, and counts what it gets unless that is at `NULL`. -/
theorem procAllocWithinProcess_eq (hregion : (σ.process p).region = some r) (hsize : 0 < size) :
    σ.procAllocWithinProcess (some p) size =
      (Flopperating.vmmAlloc r (procPages size) (pageUser ||| pageRw) σ.vmm).map fun o =>
        if o.1 = 0 then (0, { σ with vmm := o.2 })
        else (o.1, { σ with vmm := o.2 }.setProcess p { σ.process p with
          memUsage := u32 ((σ.process p).memUsage + u32 (procPages size * pageSize)) }) := by
  rw [procAllocWithinProcess, if_neg hsize.ne', hregion, vmmAlloc]
  cases Flopperating.vmmAlloc r (procPages size) (pageUser ||| pageRw) σ.vmm with
  | none => rfl
  | some o =>
    by_cases hnull : o.1 = 0
    · simp [hnull]
    · simp [hnull]

/-- A region that `vmm_region_create` has made does not allocate at `NULL`. -/
theorem vmmAlloc_ne_null {σ τ : Vmm} {n flags : ℕ} (hbase : (σ.region r).baseVa ≠ 0)
    (h : Flopperating.vmmAlloc r n flags σ = some (va, τ)) : va ≠ 0 := by
  have hbump : vmmBump r σ ≠ 0 := by
    unfold vmmBump
    split
    · assumption
    · exact hbase
  rw [Flopperating.vmmAlloc] at h
  split at h
  · obtain ⟨rfl, -⟩ := Prod.mk.inj (Option.some.inj h)
    decide
  · obtain ⟨⟨e, τ₁⟩, -, h⟩ := Option.bind_eq_some_iff.1 h
    cases e with
    | noPage i =>
      obtain ⟨⟨status, τ₂⟩, -, h⟩ := Option.bind_eq_some_iff.1 h
      obtain ⟨rfl, -⟩ := Prod.mk.inj (Option.some.inj h)
      decide
    | done =>
      obtain ⟨rfl, -⟩ := Prod.mk.inj (Option.some.inj h)
      exact hbump
    | noTable =>
      obtain ⟨rfl, -⟩ := Prod.mk.inj (Option.some.inj h)
      exact hbump

/-- **Every call ends like one that succeeds**: what `vmm_alloc` returns is not `NULL`, whether
memory has run out or not, and is counted. -/
theorem procAllocWithinProcess_spec (hregion : (σ.process p).region = some r)
    (hbase : (σ.vmm.region r).baseVa ≠ 0) (hsize : 0 < size) :
    σ.procAllocWithinProcess (some p) size = some (va, σ') ↔ va ≠ 0 ∧
      ∃ τ, Flopperating.vmmAlloc r (procPages size) (pageUser ||| pageRw) σ.vmm = some (va, τ) ∧
        σ' = { σ with vmm := τ }.setProcess p { σ.process p with
          memUsage := u32 ((σ.process p).memUsage + u32 (procPages size * pageSize)) } := by
  rw [procAllocWithinProcess_eq hregion hsize, Option.map_eq_some_iff]
  constructor
  · rintro ⟨⟨a, τ⟩, halloc, hva⟩
    have hne := vmmAlloc_ne_null hbase halloc
    rw [if_neg hne] at hva
    obtain ⟨rfl, rfl⟩ := Prod.mk.inj hva
    exact ⟨hne, τ, halloc, rfl⟩
  · rintro ⟨hne, τ, halloc, rfl⟩
    exact ⟨(va, τ), halloc, if_neg hne⟩

/-- With enough free pages the process gets new ones, and they are counted. -/
theorem procAllocWithinProcess_granted (hregion : (σ.process p).region = some r) (h : Spaces σ.vmm dirs)
    (hd : dirs (σ.vmm.region r).pgDir) (hl : Loaded σ.vmm r) (hbase : (σ.vmm.region r).baseVa ≠ 0)
    (hsize : 0 < size) (hle : vmmBump r σ.vmm + procPages size * pageSize ≤ recursiveAddr)
    (henough : ¬ RunsOut r size σ) :
    ∃ σ₁, σ.procAllocWithinProcess (some p) size = some (vmmBump r σ.vmm, σ₁) ∧
      Granted p r size (vmmBump r σ.vmm) σ σ₁ := by
  have hpages : procPages size ≠ 0 := (procPages_pos hsize).ne'
  have htarget : (AllocCall.alloc (procPages size) (pageUser ||| pageRw)).target r σ.vmm =
      some (some (vmmBump r σ.vmm)) := congrArg some (if_neg hpages)
  have hready : (AllocCall.alloc (procPages size) (pageUser ||| pageRw)).Ready r σ.vmm := by
    change pageUser ||| pageRw < pageSize
    decide
  obtain ⟨-, hout⟩ := AllocCall.outcomes h hd hl hready hle htarget
  obtain ⟨τ, hrun, hhanded⟩ := hout.enough ⟨Nat.le_of_not_lt henough, by simp [AllocCall.descriptor]⟩
  have halloc : Flopperating.vmmAlloc r (procPages size) (pageUser ||| pageRw) σ.vmm =
      some (vmmBump r σ.vmm, τ) := hrun
  have hsmall : procPages size * pageSize < 2 ^ 32 :=
    ((Nat.le_add_left _ _).trans hle).trans_lt (by decide)
  refine ⟨_, (procAllocWithinProcess_spec hregion hbase hsize).2
    ⟨vmmAlloc_ne_null hbase halloc, τ, halloc, rfl⟩, hhanded, ?_⟩
  rw [process_setProcess, u32_of_lt hsmall]

/-- Giving back is one call of `vmm_unmap`. -/
theorem procFreeWithinProcess_unmaps (hregion : (σ.process p).region = some r) (hva : va ≠ 0)
    (hsize : 0 < size) (h : σ.procFreeWithinProcess (some p) va size = some σ') :
    ∃ status, Flopperating.vmmUnmap r va σ.vmm = some (status, σ'.vmm) := by
  rw [procFreeWithinProcess, if_neg (not_or.2 ⟨hva, hsize.ne'⟩), hregion, vmmUnmap] at h
  obtain ⟨o, hunmap, h⟩ := Option.bind_eq_some_iff.1 h
  obtain ⟨⟨status, τ⟩, hvmm, rfl⟩ := Option.map_eq_some_iff.1 hunmap
  obtain rfl := Option.some.inj h
  exact ⟨status, hvmm⟩

/-- **No page is given back** to the physical allocator. -/
theorem procFreeWithinProcess_freePages (hregion : (σ.process p).region = some r) (hva : va ≠ 0)
    (hsize : 0 < size) (h : σ.procFreeWithinProcess (some p) va size = some σ') :
    σ'.vmm.freePages = σ.vmm.freePages := by
  obtain ⟨status, hunmap⟩ := procFreeWithinProcess_unmaps hregion hva hsize h
  exact vmmUnmap_freePages hunmap

/-- The pages behind the first one stay mapped. -/
theorem procFreeWithinProcess_rest (hregion : (σ.process p).region = some r) (hdirs : Directories σ.vmm dirs)
    (hd : dirs (σ.vmm.region r).pgDir) (hl : Loaded σ.vmm r) (hva : va ≠ 0) (hsize : 0 < size)
    (hi : 0 < i) (hle : va + i * pageSize < recursiveAddr)
    (h : σ.procFreeWithinProcess (some p) va size = some σ') :
    vmmIsMapped r (va + i * pageSize) σ'.vmm = vmmIsMapped r (va + i * pageSize) σ.vmm := by
  obtain ⟨status, hunmap⟩ := procFreeWithinProcess_unmaps hregion hva hsize h
  rcases vmmUnmap_loaded hdirs hd hl ((Nat.le_add_right _ _).trans_lt hle) with ⟨-, hrun⟩ | ⟨-, τ, hrun, hw⟩
  · obtain ⟨-, heq⟩ := Prod.mk.inj (Option.some.inj (hunmap.symm.trans hrun))
    rw [heq]
  · obtain ⟨-, rfl⟩ := Prod.mk.inj (Option.some.inj (hunmap.symm.trans hrun))
    have hlt : va + i * pageSize < 2 ^ 32 := hle.trans (by decide)
    have hpage : ¬ ((σ.vmm.region r).pgDir = (σ.vmm.region r).pgDir ∧
        (va + i * pageSize) / pageSize = va / pageSize) := by
      rw [page_div]
      omega
    rw [vmmIsMapped, vmmIsMapped, vmmTableWord_loaded (hl.of_same hw.same) hlt, vmmTableWord_loaded hl hlt,
      hw.same.region, hw.word _ _ hd (page_lt_windowPage hle), if_neg hpage]

end Code

/-! ### The claim fails everywhere -/

/-- **No process gets and gives back its memory as it should**, at whatever size and in whatever
state: what it is given is not given back, and that memory has run out is not told. -/
theorem not_memoryAccounted {σ : Kernel} {p r size : ℕ} (hregion : (σ.process p).region = some r)
    (hbase : (σ.vmm.region r).baseVa = userSpaceStart) (hsize : 0 < size) : ¬ MemoryAccounted p r size σ := by
  rintro ⟨va, σ₁, halloc, hserved, -⟩
  obtain ⟨hva, τ, -, rfl⟩ :=
    (procAllocWithinProcess_spec hregion (by rw [hbase]; decide) hsize).1 halloc
  obtain ⟨⟨⟨frames, hlen, -, hfresh, hresolve⟩, -⟩, σ₂, hfree, htaken⟩ := hserved hva
  -- the page at the start of the range is mapped to a frame that was free and stays taken
  have hpos : 0 < frames.length := hlen ▸ procPages_pos hsize
  obtain ⟨hold, hnew⟩ := hfresh frames[0] (List.getElem_mem hpos)
  have hback := htaken.frames 0 (procPages_pos hsize) frames[0] hold
    (hresolve 0 frames[0] (List.getElem?_eq_getElem hpos))
  rw [procFreeWithinProcess_freePages (by rw [process_setProcess]; exact hregion) hva hsize hfree] at hback
  exact hnew hback

/-- A process with the number `1`, over region `1` with the free pages `free`. -/
def soleProcess (free : List ℕ) : Kernel :=
  { forkHost fun _ => true with
    vmm := loneRegion free
    process := fun _ => { newProcess 0 with region := some 1 } }

theorem not_memoryAccounted_sole : ¬ MemoryAccounted 1 1 (2 * pageSize) (soleProcess [0x2000, 0x3000, 0x4000]) :=
  not_memoryAccounted rfl rfl (by decide)

theorem procAllocWithinProcess_granted_sole : ∃ σ₁,
    (soleProcess [0x2000, 0x3000, 0x4000]).procAllocWithinProcess (some 1) (2 * pageSize) = some (userSpaceStart, σ₁) ∧
      Granted 1 1 (2 * pageSize) userSpaceStart (soleProcess [0x2000, 0x3000, 0x4000]) σ₁ := by
  obtain ⟨h, hd⟩ := spaces_loneRegion [0x2000, 0x3000, 0x4000] (by decide)
  have henough : ¬ RunsOut 1 (2 * pageSize) (soleProcess [0x2000, 0x3000, 0x4000]) := by
    unfold RunsOut
    decide +kernel
  exact procAllocWithinProcess_granted (σ := soleProcess [0x2000, 0x3000, 0x4000]) rfl h hd rfl (by decide) (by decide)
    (by decide +kernel) henough

/-- No page is free: the process gets `-1`, and a page is counted. -/
theorem memoryAccounted_fails : ¬ ∀ (σ : Kernel) (p r size : ℕ), (σ.process p).region = some r →
    Spaces σ.vmm (· = (σ.vmm.region r).pgDir) → Loaded σ.vmm r →
    (σ.vmm.region r).baseVa = userSpaceStart → 0 < size → MemoryAccounted p r size σ := by
  intro hall
  obtain ⟨h, hd⟩ := spaces_loneRegion [] (by decide)
  obtain ⟨va, σ₁, halloc, -, hout⟩ := hall (soleProcess []) 1 1 1 rfl (hd.symm ▸ h) rfl rfl (by decide)
  have hva : va = minusOne := by
    have hrun : ((soleProcess []).procAllocWithinProcess (some 1) 1).map Prod.fst = some minusOne := by
      decide +kernel
    rw [halloc] at hrun
    exact Option.some.inj hrun
  have hshort : RunsOut 1 1 (soleProcess []) := by
    unfold RunsOut
    decide +kernel
  have hnull := (hout hshort).1
  rw [hva] at hnull
  exact absurd hnull (by decide)

end Kernel

end Flopperating
