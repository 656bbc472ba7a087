/-
# A fork that fails

What `proc_fork_failed_child_data_structures` gives back is not what the fork has taken: the
counts that descriptors have raised stay, the node of the directory is freed although the parent
holds it, and `vmm_region_destroy` frees one page of all that `vmm_copy_pagemap` takes.  So a
fork that has copied the page map never fails without a trace; one that fails before does so
exactly when the copy has lost no page (`fork_failure`).
-/

import Flopperating.Task.ForkCounts
import Flopperating.Mem.VmmCopyFails

namespace Flopperating
namespace Kernel

variable {σ σ' σ₁ : Kernel} {child n parent s : ℕ} {r : ℤ} {dirs : ℕ → Prop} {l : List ℕ}

/-- What the parent can see is as before: its table, the heap with all nodes and their counts,
pipes, physical memory and every entry of its page tables. -/
structure NoEffect (parent : ℕ) (σ σ' : Kernel) : Prop where
  heap : σ'.vfs.heap = σ.vfs.heap
  process : ∀ p, σ.Live p → σ'.process p = σ.process p
  pipe : σ'.pipe = σ.pipe
  processCount : σ'.processCount = σ.processCount
  objects : σ'.vmm.objects = σ.vmm.objects
  pages : σ'.vmm.freePages.length = σ.vmm.freePages.length
  map : ∀ q, (σ.process parent).region = some q → ∀ p, p < pageEntries * pageEntries →
    σ'.vmm.word (σ'.vmm.region q).pgDir p = σ.vmm.word (σ.vmm.region q).pgDir p

/-- Copying the page map takes no page that is not given back. -/
def CopyIdle (region : Option ℕ) (σ : Vmm) : Prop :=
  region.elim (σ.freePages = []) fun q => (Origin.copy q).Idle σ

/-- There is no memory for the process or its list of threads, or none is lost in copying the
page map. -/
def ForkIdle (parent : ℕ) (σ : Kernel) : Prop := ¬ σ.GrantsProcess ∨ CopyIdle (σ.process parent).region σ.vmm

/-! ### Giving back -/

theorem vmmRegionDestroy_vmm (h : σ.vmmRegionDestroy (some s) = some σ') :
    Flopperating.vmmRegionDestroy s σ.vmm = some σ'.vmm := by
  obtain ⟨vmm, hdestroy, rfl⟩ := Option.map_eq_some_iff.1 h
  exact hdestroy

theorem vmm_vfsClose {node : Option ℕ} {e : ℤ} (h : σ.vfsClose node = some (e, σ')) : σ'.vmm = σ.vmm := by
  rcases node with - | n
  · obtain ⟨-, rfl⟩ := Prod.mk.inj (Option.some.inj h)
    rfl
  · obtain ⟨o, -, he⟩ := Option.map_eq_some_iff.1 h
    obtain ⟨-, rfl⟩ := Prod.mk.inj he
    rfl

theorem vmm_kfree {ptr : Option ℕ} (h : σ.kfree ptr = some σ') : σ'.vmm = σ.vmm := by
  rcases ptr with - | i
  · obtain rfl := Option.some.inj h
    rfl
  · rw [kfree_some h]

/-- The region of a child is destroyed. -/
theorem procForkFailed_vmm (h : σ.procForkFailedChildDataStructures child = some σ')
    (hregion : (σ.process child).region = some s) : Flopperating.vmmRegionDestroy s σ.vmm = some σ'.vmm := by
  obtain ⟨σ₄, hrelease, hlast⟩ := Option.bind_eq_some_iff.1 h
  obtain ⟨⟨e, σ₁⟩, hclose, hrelease⟩ := Option.bind_eq_some_iff.1 hrelease
  obtain ⟨σ₂, hdestroy, hrelease⟩ := Option.bind_eq_some_iff.1 hrelease
  obtain ⟨σ₃, hname, hthreads⟩ := Option.bind_eq_some_iff.1 hrelease
  rw [process_vfsClose hclose, hregion] at hdestroy
  rw [vmm_kfree hlast, vmm_kfree hthreads, vmm_kfree hname, ← vmm_vfsClose hclose]
  exact vmmRegionDestroy_vmm hdestroy

/-- A process without a directory, a region and a name has its list of threads to give back. -/
theorem procRelease_bare (hcwd : (σ.process child).cwd = none) (hregion : (σ.process child).region = none)
    (hname : (σ.process child).name = none) : σ.procRelease child = σ.kfree (σ.process child).threads := by
  unfold procRelease
  rw [hcwd]
  show (σ.vmmRegionDestroy (σ.process child).region).bind _ = _
  rw [hregion]
  show (σ.kfree (σ.process child).name).bind _ = _
  rw [hname]
  rfl

/-- The process and its list of threads are given back. -/
theorem heap_released (hb : σ.Bounded) :
    Function.update (Function.update σ.allocated.vfs.heap (σ.vfs.fresh + 1) none) σ.vfs.fresh none = σ.vfs.heap := by
  funext m
  rcases eq_or_ne m σ.vfs.fresh with rfl | hne
  · rw [Function.update_self, hb _ le_rfl]
  · rw [Function.update_of_ne hne]
    rcases eq_or_ne m (σ.vfs.fresh + 1) with rfl | hne'
    · rw [Function.update_self, hb _ (Nat.le_succ _)]
    · rw [Function.update_of_ne hne']
      exact (heap_granted (σ := σ.granted) hne').trans (heap_granted hne)

/-- A child that has got nothing but its list of threads leaves nothing behind. -/
theorem procForkFailed_allocated {vmm : Vmm} (hb : σ.Bounded)
    (h : { σ.allocated with vmm := vmm }.procForkFailedChildDataStructures σ.vfs.fresh = some σ') :
    σ' = { σ.allocated with
      vfs := { σ.allocated.vfs with heap := σ.vfs.heap }
      vmm := vmm } := by
  have hchild : { σ.allocated with vmm := vmm }.process σ.vfs.fresh = newProcess (σ.vfs.fresh + 1) :=
    process_allocated
  obtain ⟨σ₄, hrelease, hlast⟩ := Option.bind_eq_some_iff.1 h
  have hthreads : { σ.allocated with vmm := vmm }.kfree (some (σ.vfs.fresh + 1)) = some σ₄ := by
    rwa [procRelease_bare (by rw [hchild]; rfl) (by rw [hchild]; rfl) (by rw [hchild]; rfl), hchild] at hrelease
  obtain rfl := kfree_some hthreads
  rw [kfree_some hlast]
  exact congrArg (fun heap => { σ.allocated with vfs := { σ.allocated.vfs with heap := heap }, vmm := vmm })
    (heap_released hb)

/-! ### The ends -/

/-- Without a region the copy is never begun. -/
theorem vmmCopyPagemap_null {vmm : Vmm} (hfree : FreeOk σ.vmm.freePages)
    (h : σ.vmmCopyPagemap none = some (none, { σ with vmm := vmm })) :
    (σ.vmm.freePages = [] ∧ vmm = σ.vmm) ∨
      (σ.vmm.freePages ≠ [] ∧ vmm.freePages.length ≠ σ.vmm.freePages.length) := by
  unfold vmmCopyPagemap vmmNewCopiedPgdir Vmm.allocPage at h
  rcases hpages : σ.vmm.freePages with - | ⟨d, free⟩
  · rw [hpages] at h
    exact .inl ⟨rfl, (congrArg Kernel.vmm (Prod.mk.inj (Option.some.inj h)).2).symm⟩
  · have hd : d ≠ 0 := (hfree.2 d (by rw [hpages]; exact List.mem_cons_self)).1.ne'
    rw [hpages] at h
    simp only [hd, if_false, Vmm.kmalloc, Vmm.zeroPage] at h
    refine .inr ⟨List.cons_ne_nil _ _, ?_⟩
    rcases hobj : σ.vmm.objects with - | ⟨o, objects⟩
    · rw [hobj] at h
      have hvmm := congrArg Kernel.vmm (Prod.mk.inj (Option.some.inj h)).2
      rw [← show _ = vmm from hvmm, List.length_cons]
      exact Nat.ne_of_lt (Nat.lt_succ_self _)
    · rw [hobj] at h
      exact absurd h (by simp)

/-- **The page map has not been copied.** -/
theorem noEffect_noMap {vmm : Vmm} (hb : σ.Bounded) (hrun : Running σ.vmm dirs l)
    (hready : ∀ q, (σ.process parent).region = some q → (Origin.copy q).Ready σ.vmm dirs) (hgrant : σ.GrantsProcess)
    (hcopy : σ.vmmCopyPagemap (σ.process parent).region = some (none, { σ with vmm := vmm })) :
    NoEffect parent σ { σ.allocated with
      vfs := { σ.allocated.vfs with heap := σ.vfs.heap }
      vmm := vmm } ↔ ForkIdle parent σ := by
  have hvmm : (vmm.freePages.length = σ.vmm.freePages.length ↔ CopyIdle (σ.process parent).region σ.vmm) ∧
      (CopyIdle (σ.process parent).region σ.vmm → vmm.objects = σ.vmm.objects ∧
        ∀ q, (σ.process parent).region = some q → ∀ p, p < pageEntries * pageEntries →
          vmm.word (vmm.region q).pgDir p = σ.vmm.word (σ.vmm.region q).pgDir p) := by
    rcases hregion : (σ.process parent).region with - | q
    · rw [hregion] at hcopy
      rcases vmmCopyPagemap_null hrun.spaces.freeOk hcopy with ⟨hnil, rfl⟩ | ⟨hne, hlen⟩
      · exact ⟨iff_of_true rfl hnil, fun _ => ⟨rfl, fun _ _ _ _ => rfl⟩⟩
      · exact ⟨iff_of_false hlen hne, fun hnil => absurd hnil hne⟩
    · rw [hregion] at hcopy
      obtain ⟨⟨o, vmm'⟩, hcopied, he⟩ := Option.map_eq_some_iff.1 hcopy
      obtain ⟨rfl, he⟩ := Prod.mk.inj he
      obtain rfl : vmm' = vmm := congrArg Kernel.vmm he
      have hready := hready q hregion
      cases vmmCopyPagemap_born hrun hready hcopied with
      | gone _ _ hiff =>
        refine ⟨hiff, fun hidle => ?_⟩
        obtain ⟨hobj, hpgDir, hmem⟩ := vmmCopyPagemap_failed hrun hready hcopied hidle
        refine ⟨hobj, fun q' hq' p hp => ?_⟩
        obtain rfl := Option.some.inj hq'
        rw [hpgDir]
        exact hrun.spaces.word_eq hready.1 hmem hp
  constructor
  · intro h
    exact .inr (hvmm.1.1 h.pages)
  · intro hidle
    have hidle := hidle.resolve_left (not_not_intro hgrant)
    constructor
    case heap => rfl
    case process =>
      intro p hp
      exact process_allocated_of_ne (Nat.ne_of_lt (hb.lt_fresh hp))
    case pipe => rfl
    case processCount => rfl
    case objects => exact (hvmm.2 hidle).1
    case pages => exact hvmm.1.2 hidle
    case map => exact (hvmm.2 hidle).2

/-- **The page map has been copied.** -/
theorem not_noEffect_mapped {q : ℕ} {vmm : Vmm} (hrun : Running σ.vmm dirs l)
    (hready : ∀ q, (σ.process parent).region = some q → (Origin.copy q).Ready σ.vmm dirs) (hgrant : σ.GrantsProcess)
    (hregion : (σ.process parent).region = some q) (hcopy : Flopperating.vmmCopyPagemap q σ.vmm = some (some s, vmm))
    (hvmm : σ₁.vmm = vmm) (hchild : (σ₁.process child).region = some s)
    (hfailed : σ₁.procForkFailedChildDataStructures child = some σ') :
    NoEffect parent σ σ' ↔ ForkIdle parent σ := by
  have hdestroy := procForkFailed_vmm hfailed hchild
  rw [hvmm] at hdestroy
  obtain ⟨hlost, hnot⟩ := vmmCopyPagemap_destroyed hrun (hready q hregion) hcopy hdestroy
  refine iff_of_false (fun h => hlost h.pages) (not_or.2 ⟨not_not_intro hgrant, ?_⟩)
  unfold CopyIdle
  rw [hregion]
  exact hnot

theorem ForkEnd.noEffect_iff (h : ForkEnd parent σ r σ') (hr : r < 0) (hb : σ.Bounded) (hrun : Running σ.vmm dirs l)
    (hready : ∀ q, (σ.process parent).region = some q → (Origin.copy q).Ready σ.vmm dirs) :
    NoEffect parent σ σ' ↔ ForkIdle parent σ := by
  cases h with
  | noProcess k hgrant =>
    exact iff_of_true ⟨rfl, fun _ _ => rfl, rfl, rfl, rfl, rfl, fun _ _ _ _ => rfl⟩ (.inl hgrant)
  | noMap vmm _ hgrant hcopy hfailed =>
    rw [procForkFailed_allocated hb hfailed]
    exact noEffect_noMap hb hrun hready hgrant hcopy
  | noCwd q s vmm _ hgrant hregion hcopy hcwd hfailed =>
    refine not_noEffect_mapped hrun hready hgrant hregion hcopy rfl ?_ hfailed
    rw [process_mapped]
  | noName q s c vmm _ hgrant hregion hcopy hcwd hname hfailed =>
    refine not_noEffect_mapped hrun hready hgrant hregion hcopy rfl ?_ hfailed
    exact congrArg Process.region process_copied
  | forked _ _ hforked => exact absurd hr (by omega)

/-- **A fork that fails** has had no effect exactly when there was no memory for the process and
its list of threads, or the page map was not copied and no page was lost in trying. -/
theorem fork_failure (hb : σ.Bounded) (hrun : Running σ.vmm dirs l)
    (hready : ∀ q, (σ.process parent).region = some q → (Origin.copy q).Ready σ.vmm dirs)
    (h : σ.procFork parent = some (-1, σ')) : NoEffect parent σ σ' ↔ ForkIdle parent σ :=
  (procFork_ends hb h).noEffect_iff (by decide) hb hrun hready

/-! ### A process without a directory -/

theorem kfree_live (h : σ.Live n) : σ.kfree (some n) =
    some { σ with vfs := { σ.vfs with heap := Function.update σ.vfs.heap n none } } := by
  have hlive : (σ.vfs.heap n).isSome = true := h
  unfold kfree Vfs.kfree
  dsimp only
  rw [if_pos hlive]
  rfl

/-- A process without a directory and a name has its region and its threads to give back. -/
theorem procRelease_region {t : ℕ} {vmm : Vmm} (hcwd : (σ.process child).cwd = none)
    (hregion : (σ.process child).region = some s) (hname : (σ.process child).name = none)
    (hthreads : (σ.process child).threads = some t) (hdestroy : Flopperating.vmmRegionDestroy s σ.vmm = some vmm) :
    σ.procRelease child = { σ with vmm := vmm }.kfree (some t) := by
  have hregions : σ.vmmRegionDestroy (some s) = some { σ with vmm := vmm } :=
    congrArg (Option.map fun vmm => ({ σ with vmm := vmm } : Kernel)) hdestroy
  unfold procRelease
  rw [hcwd]
  show (σ.vmmRegionDestroy (σ.process child).region).bind _ = _
  rw [hregion, hregions]
  show ({ σ with vmm := vmm }.kfree (σ.process child).name).bind _ = _
  rw [hname]
  show { σ with vmm := vmm }.kfree (σ.process child).threads = _
  rw [hthreads]

/-- A fork without a directory fails, whatever there is memory for. -/
theorem procFork_noCwd {q : ℕ} {vmm vmm' : Vmm} (hb : σ.Bounded) (hlive : σ.Live parent) (hgrant : σ.GrantsProcess)
    (hregion : (σ.process parent).region = some q) (hcopy : Flopperating.vmmCopyPagemap q σ.vmm = some (some s, vmm))
    (hcwd : (σ.process parent).cwd = none) (hdestroy : Flopperating.vmmRegionDestroy s vmm = some vmm') :
    ∃ σ', σ.procFork parent = some (-1, σ') := by
  have hne : parent ≠ σ.vfs.fresh := Nat.ne_of_lt (hb.lt_fresh hlive)
  have hmap := procCopyChildPagemap_some hne hregion hcopy
  have hchild : (σ.mapped parent s vmm).process σ.vfs.fresh = _ := process_mapped
  have hrelease : (σ.mapped parent s vmm).procRelease σ.vfs.fresh = _ :=
    procRelease_region (by rw [hchild]; rfl) (by rw [hchild]) (by rw [hchild]; rfl) (by rw [hchild]; rfl) hdestroy
  have hthreads : { σ.mapped parent s vmm with vmm := vmm' }.Live (σ.vfs.fresh + 1) := by
    have hheap : σ.granted.granted.vfs.heap (σ.vfs.fresh + 1) = some .text := live_granted
    exact congrArg Option.isSome hheap
  rw [kfree_live hthreads] at hrelease
  obtain ⟨σ', hσ'⟩ : ∃ σ', (σ.mapped parent s vmm).procForkFailedChildDataStructures σ.vfs.fresh = some σ' := by
    unfold procForkFailedChildDataStructures
    rw [hrelease, Option.bind_some]
    refine ⟨_, kfree_live ?_⟩
    have hheap : σ.granted.granted.vfs.heap σ.vfs.fresh = some .text :=
      (heap_granted (show σ.vfs.fresh ≠ σ.vfs.fresh + 1 by omega)).trans live_granted
    have hother : Function.update σ.granted.granted.vfs.heap (σ.vfs.fresh + 1) none σ.vfs.fresh = some .text :=
      (Function.update_of_ne (by omega) ..).trans hheap
    exact congrArg Option.isSome hother
  have hassign : procCwdAssign σ.vfs.fresh none (σ.mapped parent s vmm) = some (-1, σ.mapped parent s vmm) := rfl
  refine ⟨σ', ?_⟩
  unfold procFork
  rw [if_pos hlive, procAlloc_granted hgrant]
  simp only [Option.bind_eq_bind, Option.bind_some, hmap, process_mapped_of_ne hne, hcwd, hassign, hσ', lt_irrefl,
    if_false]
  rfl

/-- The first process, which has no directory. -/
def orphanHost : Kernel :=
  { forkHost fun _ => true with process := fun _ => { newProcess 3 with region := some 1 } }

theorem procFork_orphanHost : ∃ σ', orphanHost.procFork 0 = some (-1, σ') := by
  have hready : (Origin.copy 1).Ready copiedHost (· = 0x1000) :=
    ⟨running_copiedHost.current, by rw [copiedHost_objects]; decide⟩
  obtain ⟨s, vmm, hcopy⟩ := (vmmCopyPagemap_returns running_copiedHost.spaces running_copiedHost.current
    running_copiedHost.current hready.2).2 copiedHost_fits
  cases vmmCopyPagemap_born running_copiedHost hready hcopy with
  | born _ _ _ _ _ _ _ hlisted =>
    obtain ⟨vmm', hdestroy⟩ := vmmRegionDestroy_returns hlisted s
    exact procFork_noCwd (bounded_forkHost fun _ => true) rfl ⟨rfl, rfl⟩ rfl hcopy rfl hdestroy

theorem ready_orphanHost : ∀ q, (orphanHost.process 0).region = some q → (Origin.copy q).Ready orphanHost.vmm (· = 0x1000) := by
  intro q hq
  obtain rfl := Option.some.inj hq
  exact ⟨running_copiedHost.current, by rw [show orphanHost.vmm.objects = [2] from copiedHost_objects]; decide⟩

theorem fork_failure_orphanHost : ∃ σ', orphanHost.procFork 0 = some (-1, σ') ∧
    (NoEffect 0 orphanHost σ' ↔ ForkIdle 0 orphanHost) := by
  obtain ⟨σ', hfork⟩ := procFork_orphanHost
  exact ⟨σ', hfork, fork_failure (bounded_forkHost fun _ => true) running_copiedHost ready_orphanHost hfork⟩

/-- The first process cannot fork, and each time it tries pages are lost. -/
theorem not_fork_failure : ¬ ∀ (σ σ' : Kernel) (parent : ℕ) (dirs : ℕ → Prop) (l : List ℕ), σ.Bounded →
    Running σ.vmm dirs l →
    (∀ q, (σ.process parent).region = some q → (Origin.copy q).Ready σ.vmm dirs) →
    σ.procFork parent = some (-1, σ') → NoEffect parent σ σ' := by
  intro hall
  obtain ⟨σ', hfork⟩ := procFork_orphanHost
  have hb : orphanHost.Bounded := bounded_forkHost fun _ => true
  have hrun : Running orphanHost.vmm (· = 0x1000) [1] := running_copiedHost
  have hno := hall orphanHost σ' 0 _ [1] hb hrun ready_orphanHost hfork
  have hfree : copiedHost.freePages.length = 4 :=
    congrArg List.length (List.cons.inj created_copiedHost.free).2.symm
  have hidle := ((procFork_ends hb hfork).noEffect_iff (by decide) hb hrun ready_orphanHost).1 hno
  rcases hidle with hgrant | hnil | ⟨-, hone | ⟨htwo, -⟩⟩
  · exact hgrant ⟨rfl, rfl⟩
  · have hnil : copiedHost.freePages = [] := hnil
    rw [hnil] at hfree
    exact absurd hfree (by decide)
  · exact absurd (hfree.symm.trans hone) (by decide)
  · exact absurd (hfree.symm.trans htwo) (by decide)

end Kernel

end Flopperating
