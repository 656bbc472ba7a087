/-
# A descriptor from `sys_open` to `sys_close`

With a descriptor that `sys_open` has given, `sys_read`, `sys_write`, `sys_seek`, `sys_fstat` and
`sys_ftruncate` of `src/sys/syscall.c` are to act on its node, and `sys_close` is to leave the
kernel as it was before.

Each of them takes some numbers for something else.  Descriptor `0` is an argument that is
missing, for all but `sys_write`, where descriptor `1` is the console, and so are the offset, the
whence and the length `0` (`reads_iff`, `writes_iff`, `not_seeks`, `stats_iff`, `not_truncates`).
And `sys_close` passes `&proc->fds[fd]` to `kfree`, which no `kmalloc` has returned: there is no
descriptor that it closes as it should (`openCloses_iff`).
-/

import Flopperating.Sys.DispatchSpec
import Flopperating.Sys.FdTable
import Flopperating.Sys.FileRuns

namespace Flopperating
namespace Kernel

open TracedM

/-- The descriptors of a process, as the handlers find them. -/
def fdTable (process : ℕ) (σ : Kernel) : TracedMemory ℤ VfsFileDescriptor :=
  ⟨fun fd => (σ.process process).fds fd.toNat, []⟩

/-- With such arguments the call does what `act` does, whatever that is, and leaves the table. -/
def ActsAs (table : TracedMemory ℤ VfsFileDescriptor) (asked : SyscallArgs → Prop)
    (call : (ρ : Type) → Rest ρ → SyscallArgs → FdM ρ ℤ)
    (act : (ρ : Type) → Rest ρ → SyscallArgs → ρ → ℤ × ρ) : Prop :=
  ∀ (ρ : Type) (ops : Rest ρ) (args : SyscallArgs) (s : ρ), asked args → ∃ touched,
    call ρ ops args (table, s) = ((act ρ ops args s).1, ⟨table.value, touched⟩, (act ρ ops args s).2)

/-- `sys_read` into a buffer reads from the node. -/
def Reads (table : TracedMemory ℤ VfsFileDescriptor) (fd n : ℕ) : Prop :=
  ActsAs table (fun args => args.a1 = fd ∧ args.a2 ≠ 0 ∧ args.a3 ≠ 0 ∧ args.a4 = 0 ∧ args.a5 = 0)
    (fun _ => Rest.sysRead) fun _ ops args => ops.vfsRead (some n) args.a2 args.a3

/-- `sys_write` from a buffer writes to the node. -/
def Writes (table : TracedMemory ℤ VfsFileDescriptor) (fd n : ℕ) : Prop :=
  ActsAs table (fun args => args.a1 = fd ∧ args.a2 ≠ 0 ∧ args.a3 ≠ 0 ∧ args.a4 = 0 ∧ args.a5 = 0)
    (fun _ => Rest.sysWrite) fun _ ops args => ops.vfsWrite (some n) args.a2 args.a3

/-- `sys_seek` seeks in the node, to any offset. -/
def Seeks (table : TracedMemory ℤ VfsFileDescriptor) (fd n : ℕ) : Prop :=
  ActsAs table (fun args => args.a1 = fd ∧ args.a4 = 0 ∧ args.a5 = 0)
    (fun _ => Rest.sysSeek) fun _ ops args => ops.vfsSeek n args.a2 (args.a3 % 256)

/-- `sys_fstat` looks up the node. -/
def Stats (table : TracedMemory ℤ VfsFileDescriptor) (fd n : ℕ) : Prop :=
  ActsAs table (fun args => args.a1 = fd ∧ args.a2 ≠ 0 ∧ args.a3 = 0 ∧ args.a4 = 0 ∧ args.a5 = 0)
    (fun _ => Rest.sysFstat) fun _ ops args => ops.vfsFstat n args.a2

/-- `sys_ftruncate` cuts the node, to any length. -/
def Truncates (table : TracedMemory ℤ VfsFileDescriptor) (fd n : ℕ) : Prop :=
  ActsAs table (fun args => args.a1 = fd ∧ args.a3 = 0 ∧ args.a4 = 0 ∧ args.a5 = 0)
    (fun _ => Rest.sysFtruncate) fun _ ops args => ops.vfsFtruncate n args.a2

/-- The calls act on the node of the descriptor. -/
structure Usable (table : TracedMemory ℤ VfsFileDescriptor) (fd n : ℕ) : Prop where
  reads : Reads table fd n
  writes : Writes table fd n
  seeks : Seeks table fd n
  stats : Stats table fd n
  truncates : Truncates table fd n

/-- After the descriptor, with node `n`, was opened in `σ` and closed in `σ₁`, the node is gone
and the slot is free, and everything else is as it was. -/
structure PutBack (process fd n : ℕ) (σ σ₁ σ₂ : Kernel) : Prop where
  released : ¬ σ₂.Live n
  slot : ((σ₂.process process).fds fd).node = none
  others : ∀ p k, ¬ (p = process ∧ k = fd) → (σ₂.process p).fds k = (σ₁.process p).fds k
  objects : ∀ i, σ.Live i → σ₂.vfs.heap i = σ.vfs.heap i

/-- And nothing but objects was passed to `kfree`. -/
structure ClosedAgain (process fd n : ℕ) (σ σ₁ σ₂ : Kernel) : Prop
    extends PutBack process fd n σ σ₁ σ₂ where
  frees : σ₂.strayFrees = σ₁.strayFrees

/-- What `sys_open` opens can be used, and closed again. -/
def OpenCloses (process : ℕ) (args : SyscallArgs) (σ : Kernel) : Prop :=
  ∀ fd σ₁, σ.sysOpen process args = some (fd, σ₁) → 0 ≤ fd →
    ∃ n, ((σ₁.process process).fds fd.toNat).node = some n ∧ Usable (σ₁.fdTable process) fd.toNat n ∧
      ∃ σ₂, σ₁.sysClose process (closeArgs fd.toNat) = some (0, σ₂) ∧
        ClosedAgain process fd.toNat n σ σ₁ σ₂

/-- `sys_open` takes the arguments, a descriptor is free, and `vfs_open` gives a node. -/
def Opens (process : ℕ) (args : SyscallArgs) (σ : Kernel) : Prop :=
  ¬ (args.a1 = 0 ∨ args.a2 = 0) ∧ ¬ (args.a3 ≠ 0 ∨ args.a4 ≠ 0 ∨ args.a5 ≠ 0) ∧
    freeFds (σ.process process) ≠ [] ∧
    ∃ n vfs, σ.vfs.vfsOpen (σ.text args.a1) args.a2 = some (some n, vfs)

variable {σ σ₁ σ₂ : Kernel} {process fd n : ℕ} {args : SyscallArgs}
  {table : TracedMemory ℤ VfsFileDescriptor}

/-! ### The calls on a descriptor -/

section Calls

variable (hfd : fd < maxProcFds) (hnode : (table.value fd).node = some n)

include hfd in
theorem withDesc_eq {ρ : Type} (act : VfsFileDescriptor → FdM ρ ℤ) (s : ρ) (h : args.a1 = fd) :
    withDesc (toInt args.a1) act (table, s) = act (table.value fd) ((table.load (fd : ℤ)).2, s) := by
  rw [withDesc, h, toInt_of_lt (hfd.trans (by decide)), if_neg (by omega)]
  rfl

include hfd hnode in
theorem withNode_eq {ρ : Type} (act : ℕ → FdM ρ ℤ) (s : ρ) (h : args.a1 = fd) :
    withNode (toInt args.a1) act (table, s) = act n ((table.load (fd : ℤ)).2, s) := by
  rw [withNode, withDesc_eq hfd _ _ h, hnode]

include hfd hnode in
/-- `sys_read` takes descriptor `0` for a missing argument. -/
theorem reads_iff : Reads table fd n ↔ fd ≠ 0 := by
  constructor
  · rintro h rfl
    obtain ⟨touched, hcall⟩ := h Unit { nullRest with vfsRead := fun _ _ _ s => (0, s) }
      ⟨0, 1, 1, 0, 0, by decide⟩ () ⟨rfl, by decide, by decide, rfl, rfl⟩
    have hstatus : (-1 : ℤ) = 0 := congrArg Prod.fst hcall
    exact absurd hstatus (by decide)
  · rintro h0 ρ ops args s ⟨ha1, ha2, ha3, ha4, ha5⟩
    refine ⟨(fd : ℤ) :: table.touched, ?_⟩
    dsimp only [Rest.sysRead]
    rw [if_neg (by omega), if_neg (by omega), withDesc_eq hfd _ _ ha1, hnode]
    rfl

include hfd hnode in
/-- `sys_write` takes descriptor `1` for the console. -/
theorem writes_iff : Writes table fd n ↔ fd ≠ 1 := by
  constructor
  · rintro h rfl
    obtain ⟨touched, hcall⟩ := h Unit { nullRest with vfsWrite := fun _ _ _ s => (1, s) }
      ⟨1, 1, 1, 0, 0, by decide⟩ () ⟨rfl, by decide, by decide, rfl, rfl⟩
    have hstatus : (0 : ℤ) = 1 := congrArg Prod.fst hcall
    exact absurd hstatus (by decide)
  · rintro h1 ρ ops args s ⟨ha1, ha2, -⟩
    have hint : toInt args.a1 = fd := by rw [ha1, toInt_of_lt (hfd.trans (by decide))]
    refine ⟨(fd : ℤ) :: table.touched, ?_⟩
    dsimp only [Rest.sysWrite]
    rw [hint, if_neg (by omega), if_neg ha2, if_neg (by omega)]
    change (if (table.value fd).node = none then (pure (-1) : FdM ρ ℤ)
      else lift (ops.vfsWrite (table.value fd).node args.a2 args.a3)) ((table.load (fd : ℤ)).2, s) = _
    rw [hnode, if_neg (by simp)]
    rfl

/-- `sys_seek` takes the offset `0` for a missing argument. -/
theorem not_seeks (hfd : fd < maxProcFds) : ¬ Seeks table fd n := fun h => by
  obtain ⟨touched, hcall⟩ := h Unit { nullRest with vfsSeek := fun _ _ _ s => (0, s) }
    ⟨fd, 0, 0, 0, 0, hfd.trans (by decide), by decide⟩ () ⟨rfl, rfl, rfl⟩
  dsimp only [Rest.sysSeek] at hcall
  rw [if_pos (.inr (.inl rfl))] at hcall
  have hstatus : (-1 : ℤ) = 0 := congrArg Prod.fst hcall
  exact absurd hstatus (by decide)

include hfd hnode in
/-- `sys_fstat` takes descriptor `0` for a missing argument. -/
theorem stats_iff : Stats table fd n ↔ fd ≠ 0 := by
  constructor
  · rintro h rfl
    obtain ⟨touched, hcall⟩ := h Unit { nullRest with vfsFstat := fun _ _ s => (0, s) }
      ⟨0, 1, 0, 0, 0, by decide⟩ () ⟨rfl, by decide, rfl, rfl, rfl⟩
    have hstatus : (-1 : ℤ) = 0 := congrArg Prod.fst hcall
    exact absurd hstatus (by decide)
  · rintro h0 ρ ops args s ⟨ha1, ha2, ha3, ha4, ha5⟩
    refine ⟨(fd : ℤ) :: table.touched, ?_⟩
    dsimp only [Rest.sysFstat]
    rw [if_neg (by omega), if_neg (by omega), withNode_eq hfd hnode _ _ ha1]
    rfl

/-- `sys_ftruncate` takes the length `0` for a missing argument. -/
theorem not_truncates (hfd : fd < maxProcFds) : ¬ Truncates table fd n := fun h => by
  obtain ⟨touched, hcall⟩ := h Unit { nullRest with vfsFtruncate := fun _ _ s => (0, s) }
    ⟨fd, 0, 0, 0, 0, hfd.trans (by decide), by decide⟩ () ⟨rfl, rfl, rfl, rfl⟩
  dsimp only [Rest.sysFtruncate] at hcall
  rw [if_pos (.inr rfl)] at hcall
  have hstatus : (-1 : ℤ) = 0 := congrArg Prod.fst hcall
  exact absurd hstatus (by decide)

include hfd hnode in
/-- **What the calls do with the node of a descriptor.**  For all arguments that they are to take, `sys_read` and
`sys_fstat` act on it unless the descriptor is `0`, and `sys_write` unless it is `1`; `sys_seek` and `sys_ftruncate`
do not. -/
theorem descriptor_calls : (Reads table fd n ↔ fd ≠ 0) ∧ (Stats table fd n ↔ fd ≠ 0) ∧ (Writes table fd n ↔ fd ≠ 1) ∧
    ¬ Seeks table fd n ∧ ¬ Truncates table fd n :=
  ⟨reads_iff hfd hnode, stats_iff hfd hnode, writes_iff hfd hnode, not_seeks hfd, not_truncates hfd⟩

end Calls

/-- A table in which every descriptor has the node `7`. -/
def sameNode : TracedMemory ℤ VfsFileDescriptor := ⟨fun _ => ⟨some 7, none, 1⟩, []⟩

theorem descriptor_calls_sameNode : (Reads sameNode 2 7 ∧ Stats sameNode 2 7 ∧ Writes sameNode 2 7) ∧
    ¬ Seeks sameNode 2 7 ∧ ¬ Truncates sameNode 2 7 := by
  obtain ⟨hreads, hstats, hwrites, hrest⟩ := descriptor_calls (show 2 < maxProcFds by decide)
    (show (sameNode.value 2).node = some 7 from rfl)
  exact ⟨⟨hreads.2 (by decide), hstats.2 (by decide), hwrites.2 (by decide)⟩, hrest⟩

/-! ### Opening and closing -/

theorem sysOpen_eq (hargs : ¬ (args.a1 = 0 ∨ args.a2 = 0))
    (hrest : ¬ (args.a3 ≠ 0 ∨ args.a4 ≠ 0 ∨ args.a5 ≠ 0)) {l : List ℕ}
    (hfree : freeFds (σ.process process) = fd :: l) {vfs : Vfs}
    (hopen : σ.vfs.vfsOpen (σ.text args.a1) args.a2 = some (some n, vfs)) :
    σ.sysOpen process args = some ((fd : ℤ), { σ with vfs := vfs }.setFd process fd
      { (σ.process process).fds fd with node := some n }) := by
  rw [sysOpen, if_neg hargs, if_neg hrest, hfree, List.head?_cons]
  dsimp only
  rw [hopen]
  rfl

/-- A descriptor is given exactly when there is a node for it. -/
theorem opens_iff : Opens process args σ ↔ ∃ fd σ₁, σ.sysOpen process args = some (fd, σ₁) ∧ 0 ≤ fd := by
  constructor
  · rintro ⟨hargs, hrest, hfree, n, vfs, hopen⟩
    obtain ⟨fd, l, hfree⟩ := List.exists_cons_of_ne_nil hfree
    exact ⟨fd, _, sysOpen_eq hargs hrest hfree hopen, Int.natCast_nonneg fd⟩
  · rintro ⟨fd, σ₁, hrun, hfd⟩
    have hfailed : ∀ {σ' : Kernel}, some ((-1 : ℤ), σ') ≠ some (fd, σ₁) := fun he => by
      rw [← (Prod.mk.inj (Option.some.inj he)).1] at hfd
      exact absurd hfd (by decide)
    unfold sysOpen at hrun
    split at hrun
    · exact absurd hrun hfailed
    · next hargs =>
      split at hrun
      · exact absurd hrun hfailed
      · next hrest =>
        split at hrun
        · exact absurd hrun hfailed
        · next k hk =>
          refine ⟨hargs, hrest, fun hnil => absurd hk (by simp [hnil]), ?_⟩
          obtain ⟨⟨file, vfs⟩, hopen, hrun⟩ := Option.bind_eq_some_iff.1 hrun
          cases file with
          | none => exact absurd hrun hfailed
          | some n => exact ⟨n, vfs, hopen⟩

/-- **`sys_close` frees what is no object**, whenever it returns `0`. -/
theorem strayFrees_sysClose (h : σ₁.sysClose process args = some (0, σ₂)) :
    σ₂.strayFrees = (process, args.a1) :: σ₁.strayFrees := by
  by_cases hargs : Accepted args
  · rw [sysClose_eq hargs] at h
    obtain ⟨⟨e, σ'⟩, hclose, he⟩ := Option.map_eq_some_iff.1 h
    obtain ⟨-, rfl⟩ := Prod.mk.inj he
    refine congrArg ((process, args.a1) :: ·) ?_
    rcases hnode : ((σ₁.process process).fds args.a1).node with - | n
    · rw [hnode] at hclose
      obtain ⟨-, rfl⟩ := Prod.mk.inj (Option.some.inj hclose)
      rfl
    · rw [hnode] at hclose
      obtain ⟨o, -, ho⟩ := Option.map_eq_some_iff.1 hclose
      obtain ⟨-, rfl⟩ := Prod.mk.inj ho
      rfl
  · rw [sysClose_refused hargs] at h
    exact absurd (Prod.mk.inj (Option.some.inj h)).1 (by decide)

/-- `sys_open`, where it gives a descriptor. -/
theorem sysOpen_some (h : σ.sysOpen process args = some ((fd : ℤ), σ₁)) :
    fd ∈ freeFds (σ.process process) ∧ ∃ n vfs,
      σ.vfs.vfsOpen (σ.text args.a1) args.a2 = some (some n, vfs) ∧
        σ₁ = { σ with vfs := vfs }.setFd process fd { (σ.process process).fds fd with node := some n } := by
  obtain ⟨hargs, hrest, hfree, n, vfs, hopen⟩ := opens_iff.2 ⟨_, σ₁, h, Int.natCast_nonneg fd⟩
  obtain ⟨k, l, hfree⟩ := List.exists_cons_of_ne_nil hfree
  obtain ⟨hk, rfl⟩ := Prod.mk.inj (Option.some.inj ((sysOpen_eq hargs hrest hfree hopen).symm.trans h))
  obtain rfl := Int.ofNat.inj hk
  exact ⟨hfree ▸ List.mem_cons_self, n, vfs, hopen, rfl⟩

/-- `vfs_close` undoes `vfs_open`: the node goes, and so does its reference. -/
theorem vfsClose_opened {σ σ₁ : Vfs} {opens ms : List ℕ} {name : CString} {mode : ℕ}
    (h : σ.Inv opens ms) (hopen : σ.vfsOpen name mode = some (some n, σ₁)) :
    ∃ σ₂, σ₁.vfsClose n = some (0, σ₂) ∧ σ₂.heap n = none ∧
      ∀ i, (σ.heap i).isSome = true → σ₂.heap i = σ.heap i := by
  rcases Vfs.vfsOpen_cases h name mode with
    ⟨-, σ', hrun, -⟩ | ⟨i, mp, -, -, hmp, ⟨σ', hrun, -⟩ | ⟨σ', hrun, hs⟩⟩
  · exact absurd (hrun.symm.trans hopen) (by simp)
  · exact absurd (hrun.symm.trans hopen) (by simp)
  · obtain ⟨hn, rfl⟩ := Prod.mk.inj (Option.some.inj (hrun.symm.trans hopen))
    obtain rfl := Option.some.inj hn
    obtain ⟨σ₂, hclose, hheap⟩ := h.close_opened hmp hs
    refine ⟨σ₂, hclose, by rw [hheap, Function.update_self], fun j hj => ?_⟩
    obtain ⟨o, ho⟩ := Option.isSome_iff_exists.1 hj
    have hold := h.lt_fresh ho
    rw [hheap, Function.update_of_ne (by omega), Function.update_of_ne hold.ne]

/-- **`sys_close` undoes `sys_open`**, but for descriptor `0` and for what it passes to `kfree`. -/
theorem sysClose_opened {opens ms : List ℕ} (h : σ.vfs.Inv opens ms) (hfd : fd ≠ 0)
    (hopen : σ.sysOpen process args = some ((fd : ℤ), σ₁)) : ∃ n σ₂,
      ((σ₁.process process).fds fd).node = some n ∧
      σ₁.sysClose process (closeArgs fd) = some (0, σ₂) ∧ PutBack process fd n σ σ₁ σ₂ := by
  obtain ⟨hmem, n, vfs, hvfs, rfl⟩ := sysOpen_some hopen
  obtain ⟨hlt, -⟩ := mem_freeFds_iff.1 hmem
  have hword : (closeArgs fd).a1 = fd := u32_of_lt (hlt.trans (by decide))
  have hargs : Accepted (closeArgs fd) := accepted_closeArgs.2 (by
    rw [u32_of_lt (hlt.trans (by decide))]
    exact ⟨Nat.pos_of_ne_zero hfd, hlt⟩)
  obtain ⟨vfs', hclose, hgone, hheap⟩ := vfsClose_opened h hvfs
  obtain ⟨σ₁, hσ₁⟩ : ∃ σ₁, σ₁ = { σ with vfs := vfs }.setFd process fd
      { (σ.process process).fds fd with node := some n } := ⟨_, rfl⟩
  rw [← hσ₁]
  have hvfs₁ : σ₁.vfs = vfs := by rw [hσ₁]; rfl
  have hnode : ((σ₁.process process).fds fd).node = some n := by
    rw [hσ₁, setFd, process_setProcess]
    simp only [Function.update_self]
  refine ⟨n, { σ₁ with vfs := vfs' }.closedFd process fd, hnode, ?_, ?_, closedFd_node, fun p k hne => ?_,
    fun i hi => hheap i hi⟩
  · rw [sysClose_eq hargs, hword, hnode, vfsClose, hvfs₁, hclose]
    rfl
  · change ¬ (vfs'.heap n).isSome = true
    rw [hgone]
    simp
  · by_cases hp : p = process
    · subst hp
      exact closedFd_fds fun hk => hne ⟨rfl, hk⟩
    · exact congrArg (fun q : Process => q.fds k) (process_setProcess_of_ne hp _)

theorem sysClose_opened_fileHost : ∃ σ σ₁ n σ₂, ((σ₁.process 3).fds 1).node = some n ∧
    σ₁.sysClose 3 (closeArgs 1) = some (0, σ₂) ∧ PutBack 3 1 n σ σ₁ σ₂ := by
  have hruns : ((fileHost.sysOpen 3 openArgs).bind fun s => (s.2.sysOpen 3 openArgs).map Prod.fst) = some 1 := rfl
  obtain ⟨⟨fd, σ⟩, hfirst, hmap⟩ := Option.bind_eq_some_iff.1 hruns
  obtain ⟨⟨fd', σ₁⟩, hsecond, rfl⟩ := Option.map_eq_some_iff.1 hmap
  have hstep : FileStep (fileHost, [3]) (.sysOpen 3 openArgs) (σ, [3]) := by
    refine ⟨List.mem_cons_self, ?_⟩
    rw [FileCall.run, hfirst]
    rfl
  have hlast : LastHolder (fileHost, [3]) (.sysOpen 3 openArgs) := lastHolder_of_none (fun n hn => nomatch hn) (by simp)
  obtain ⟨opens, ms, hinv⟩ := (reach_holding ((Transition.Reach.init alone_fileHost).step _ ⟨hlast, hstep⟩)).sound
  obtain ⟨n, σ₂, hout⟩ := sysClose_opened hinv Nat.one_ne_zero hsecond
  exact ⟨σ, σ₁, n, σ₂, hout⟩

/-- **No descriptor can be used and closed again**: the law holds exactly where `sys_open`
gives none. -/
theorem openCloses_iff : OpenCloses process args σ ↔ ¬ Opens process args σ := by
  constructor
  · intro h hopens
    obtain ⟨fd, σ₁, hrun, hfd⟩ := opens_iff.1 hopens
    obtain ⟨n, -, -, σ₂, hclose, hclosed⟩ := h fd σ₁ hrun hfd
    have hfrees := hclosed.frees
    rw [strayFrees_sysClose hclose] at hfrees
    exact List.cons_ne_self _ _ hfrees
  · intro hno fd σ₁ hrun hfd
    exact absurd (opens_iff.2 ⟨fd, σ₁, hrun, hfd⟩) hno

/-- The first file of a process has descriptor `0`, which `sys_close` turns down. -/
theorem not_openCloses : ¬ ∀ (process : ℕ) (args : SyscallArgs) (σ : Kernel), OpenCloses process args σ := by
  intro hall
  have hrun : (fileHost.sysOpen 3 openArgs).map Prod.fst = some 0 := rfl
  obtain ⟨⟨fd, σ₁⟩, hrun, hfd⟩ := Option.map_eq_some_iff.1 hrun
  obtain rfl : fd = 0 := hfd
  obtain ⟨n, -, -, σ₂, hclose, -⟩ := hall 3 openArgs fileHost 0 σ₁ hrun le_rfl
  have hargs : ¬ Accepted (closeArgs 0) := fun h => absurd h.1.1 (by decide)
  rw [Int.toNat_zero, sysClose_refused hargs] at hclose
  exact absurd (Prod.mk.inj (Option.some.inj hclose)).1 (by decide)

end Kernel

end Flopperating
