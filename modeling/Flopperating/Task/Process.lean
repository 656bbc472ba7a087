/-
# Processes

`proc_fork`, `proc_clean` and what they call of `src/task/process.c`, over the virtual file
system and virtual memory.

| source | here |
| --- | --- |
| a `process_t`, a list of threads, a name, a pipe | an object `text` of `Vfs.heap` |
| what such an object holds | `process`, `pipe` and `text`, at its number |
| the pipe at the start of a `struct vfs_node` | `pipe`, at the number of the node |
| `proc_info_local->next_pid`, `process_count` | `nextPid`, `processCount` |
| `kfree` of a pointer into a `process_t` | an entry of `strayFrees` |

A function returns `none` when it follows `NULL` or a pointer to an object that is not there,
or frees one twice.  What `kfree` does with a pointer that is not to an object is not part of
the state.  The locks are left out, and so are the fields of `process_t` that these functions
do not use.
-/

import Flopperating.Fs.Vfs
import Flopperating.Task.Pipe
import Flopperating.Sys.Memory

namespace Flopperating

/-- `process_state_t`. -/
inductive ProcessState
  | running
  | runnable
  | sleeping
  | stopped
  | embryo
  | zombie
  | terminated

/-- `struct vfs_file_descriptor`. -/
structure VfsFileDescriptor where
  node : Option ℕ
  pipe : Option ℕ
  refcount : ℕ

/-- `process_t`. -/
structure Process where
  threads : Option ℕ
  region : Option ℕ
  memUsage : ℕ
  cwd : Option ℕ
  fds : ℕ → VfsFileDescriptor
  parent : Option ℕ
  children : Option ℕ
  siblings : Option ℕ
  pid : ℤ
  sid : ℤ
  pgid : ℤ
  rgid : ℤ
  gid : ℤ
  ruid : ℤ
  uid : ℤ
  state : ProcessState
  name : Option ℕ
  sigHandlers : ℕ → Option ℕ
  sigMask : ℕ
  sigPending : ℕ

structure Kernel where
  vfs : Vfs
  vmm : Vmm
  process : ℕ → Process
  pipe : ℕ → Pipe
  text : ℕ → CString
  nextPid : ℕ
  processCount : ℕ
  strayFrees : List (ℕ × ℕ)

namespace Kernel

/-! ### Objects -/

/-- `kmalloc` of an object that is not a mountpoint or a node. -/
def kmalloc (σ : Kernel) : Option ℕ × Kernel := ((σ.vfs.kmalloc .text).1, { σ with vfs := (σ.vfs.kmalloc .text).2 })

/-- `if (ptr) kfree(ptr)`. -/
def kfree (ptr : Option ℕ) (σ : Kernel) : Option Kernel :=
  match ptr with
  | none => some σ
  | some i => (σ.vfs.kfree i).map fun vfs => { σ with vfs := vfs }

/-- The object is there. -/
def Live (σ : Kernel) (i : ℕ) : Prop := (σ.vfs.heap i).isSome

instance (σ : Kernel) (i : ℕ) : Decidable (σ.Live i) := inferInstanceAs (Decidable (_ = true))

def setProcess (i : ℕ) (p : Process) (σ : Kernel) : Kernel :=
  { σ with process := Function.update σ.process i p }

/-- `process->fds[fd] = desc`. -/
def setFd (i fd : ℕ) (desc : VfsFileDescriptor) (σ : Kernel) : Kernel :=
  σ.setProcess i { σ.process i with fds := Function.update (σ.process i).fds fd desc }

/-- `refcount_inc_not_zero(&node->refcount)`. -/
def nodeInc (n : ℕ) (σ : Kernel) : Option Kernel :=
  (σ.vfs.node? n).map fun nd =>
    { σ with vfs := σ.vfs.setNode n { nd with refcount := (refcountIncNotZero nd.refcount).2 } }

/-- `vfs_close`; it does nothing for `NULL`, for which some callers test before. -/
def vfsClose (node : Option ℕ) (σ : Kernel) : Option (ℤ × Kernel) :=
  match node with
  | none => some (-1, σ)
  | some n => (σ.vfs.vfsClose n).map fun o => (o.1, { σ with vfs := o.2 })

/-- `vmm_region_destroy`. -/
def vmmRegionDestroy (region : Option ℕ) (σ : Kernel) : Option Kernel :=
  match region with
  | none => some σ
  | some r => (Flopperating.vmmRegionDestroy r σ.vmm).map fun vmm => { σ with vmm := vmm }

/-- `vmm_copy_pagemap`, which follows a region only when it has a page and a descriptor. -/
def vmmCopyPagemap (src : Option ℕ) (σ : Kernel) : Option (Option ℕ × Kernel) :=
  match src with
  | some r => (Flopperating.vmmCopyPagemap r σ.vmm).map fun o => (o.1, { σ with vmm := o.2 })
  | none =>
    let (newDir, vmm) := vmmNewCopiedPgdir σ.vmm
    if newDir = 0 then some (none, { σ with vmm := vmm })
    else
      match vmm.kmalloc with
      | (none, vmm) => some (none, { σ with vmm := vmm })
      | (some _, _) => none

/-! ### A new process -/

/-- A `process_t` after `proc_alloc`. -/
def newProcess (threads : ℕ) : Process where
  threads := some threads
  region := none
  memUsage := 0
  cwd := none
  fds _ := ⟨none, none, 0⟩
  parent := none
  children := none
  siblings := none
  pid := -1
  sid := -1
  pgid := -1
  rgid := 0
  gid := 0
  ruid := 0
  uid := 0
  state := .running
  name := none
  sigHandlers _ := none
  sigMask := 0
  sigPending := 0

/-- `proc_alloc`. -/
def procAlloc (σ : Kernel) : Option (Option ℕ × Kernel) :=
  match σ.kmalloc with
  | (none, σ) => some (none, σ)
  | (some process, σ) =>
    match σ.kmalloc with
    | (none, σ) => (σ.kfree (some process)).map fun σ => (none, σ)
    | (some threads, σ) => some (some process, σ.setProcess process (newProcess threads))

/-- `proc_copy_child_pagemap`. -/
def procCopyChildPagemap (parent child : ℕ) (σ : Kernel) : Option (ℤ × Kernel) :=
  (σ.vmmCopyPagemap (σ.process parent).region).map fun o =>
    match o with
    | (none, σ) => (-1, σ.setProcess child { σ.process child with region := none })
    | (some r, σ) => (0, σ.setProcess child { σ.process child with
        region := some r, memUsage := (σ.process parent).memUsage })

/-- `proc_cwd_assign`. -/
def procCwdAssign (process : ℕ) (cwd : Option ℕ) (σ : Kernel) : Option (ℤ × Kernel) :=
  match cwd with
  | none => some (-1, σ)
  | some n => do
    let (_, σ) ← σ.vfsClose (σ.process process).cwd
    let σ ← (σ.setProcess process { σ.process process with cwd := some n }).nodeInc n
    return (0, σ)

/-! ### Descriptors -/

/-- `VFS_MODE_R`, `VFS_MODE_W` and `VFS_MODE_RW`. -/
abbrev vfsModeR : ℕ := 1
abbrev vfsModeW : ℕ := 2
abbrev vfsModeRw : ℕ := 3

/-- The offset of `data` in a `pipe_t`. -/
abbrev pipeDataOffset : ℕ := 22

/-- `node->pipe.data == &node->pipe`; the pipe is at the start of the node. -/
def nodeIsPipe (node : ℕ) : Bool := u32 (node + pipeDataOffset) = node

/-- `pipe_dup_read` and `pipe_dup_write` of the pipe at an address. -/
def pipeDup (dup : Pipe → Bool × Pipe) (p : ℕ) (σ : Kernel) : Bool × Kernel :=
  ((dup (σ.pipe p)).1, { σ with pipe := Function.update σ.pipe p (dup (σ.pipe p)).2 })

/-- What `proc_copy_fds` does with a node that it takes for a pipe. -/
def procCopyPipe (node : ℕ) (σ : Kernel) : Option (Bool × Kernel) :=
  (σ.vfs.node? node).map fun nd =>
    let (dupped, σ) :=
      if nd.vfsMode &&& vfsModeR ≠ 0 ∨ nd.vfsMode &&& vfsModeRw ≠ 0 then σ.pipeDup pipeDupRead node else (true, σ)
    if dupped then
      if nd.vfsMode &&& vfsModeW ≠ 0 ∨ nd.vfsMode &&& vfsModeRw ≠ 0 then σ.pipeDup pipeDupWrite node else (true, σ)
    else (false, σ)

/-- The loop of `proc_copy_fds` from descriptor `i` on, for `n` descriptors. -/
def procCopyFdsFrom (dest src : ℕ) : ℕ → ℕ → Kernel → Option (ℤ × Kernel)
  | 0, _, σ => some (0, σ)
  | n + 1, i, σ =>
    let desc := (σ.process src).fds i
    let σ := σ.setFd dest i desc
    match desc.node with
    | none => procCopyFdsFrom dest src n (i + 1) σ
    | some node =>
      if nodeIsPipe node then do
        let (dupped, σ) ← σ.procCopyPipe node
        if dupped then procCopyFdsFrom dest src n (i + 1) σ else return (-1, σ)
      else do
        let σ ← σ.nodeInc node
        procCopyFdsFrom dest src n (i + 1) σ

/-- `proc_copy_fds`. -/
def procCopyFds (dest src : ℕ) (σ : Kernel) : Option (ℤ × Kernel) := procCopyFdsFrom dest src maxProcFds 0 σ

/-! ### Fork -/

/-- `proc_copy_signal_state`. -/
def procCopySignalState (parent child : ℕ) (σ : Kernel) : Kernel :=
  σ.setProcess child { σ.process child with
    sigMask := (σ.process parent).sigMask
    sigPending := 0
    sigHandlers := (σ.process parent).sigHandlers }

/-- `proc_assign_child_ids`. -/
def procAssignChildIds (parent child : ℕ) (σ : Kernel) : ℤ × Kernel :=
  let σ : Kernel := { σ with nextPid := σ.nextPid + 1, processCount := σ.processCount + 1 }.setProcess child
    { σ.process child with
      pid := σ.nextPid
      sid := (σ.process parent).sid
      pgid := (σ.process parent).pgid
      rgid := (σ.process parent).rgid
      gid := (σ.process parent).gid
      ruid := (σ.process parent).ruid
      uid := (σ.process parent).uid
      siblings := (σ.process parent).children }
  (0, σ.setProcess parent { σ.process parent with children := some child })

/-- What `proc_fork_failed_child_data_structures` and `proc_clean` have in common: what the
process refers to is given back, and the descriptors are not. -/
def procRelease (process : ℕ) (σ : Kernel) : Option Kernel := do
  let (_, σ) ← σ.vfsClose (σ.process process).cwd
  let σ ← σ.vmmRegionDestroy (σ.process process).region
  let σ ← σ.kfree (σ.process process).name
  σ.kfree (σ.process process).threads

/-- `proc_fork_failed_child_data_structures`. -/
def procForkFailedChildDataStructures (child : ℕ) (σ : Kernel) : Option Kernel :=
  (σ.procRelease child).bind (·.kfree (some child))

/-- `proc_clean`. -/
def procClean (process : ℕ) (σ : Kernel) : Option Kernel :=
  (σ.procRelease process).map fun σ => σ.setProcess process { σ.process process with
    cwd := none, region := none, name := none, threads := none }

/-- `"__embryo_process"`. -/
def embryoProcess : CString := .ofBytes [95, 95, 101, 109, 98, 114, 121, 111, 95, 112, 114, 111, 99, 101, 115, 115]

/-- The part of `proc_fork` that copies the name. -/
def procCopyName (parent child : ℕ) (σ : Kernel) : ℤ × Kernel :=
  let childName := (σ.process parent).name.elim embryoProcess σ.text
  match σ.kmalloc with
  | (none, σ) => (-1, σ)
  | (some name, σ) => (0, { σ with text := Function.update σ.text name childName }.setProcess child
      { σ.process child with name := some name })

/-- `proc_fork`: the tables of processes are there, and so has to be the parent. -/
def procFork (parent : ℕ) (σ : Kernel) : Option (ℤ × Kernel) :=
  if σ.Live parent then do
    match ← σ.procAlloc with
    | (none, σ) => return (-1, σ)
    | (some child, σ) =>
      let (status, σ) ← σ.procCopyChildPagemap parent child
      if status < 0 then return (-1, ← σ.procForkFailedChildDataStructures child)
      let (status, σ) ← σ.procCwdAssign child (σ.process parent).cwd
      if status < 0 then return (-1, ← σ.procForkFailedChildDataStructures child)
      let (status, σ) ← σ.procCopyFds child parent
      if status < 0 then return (-1, ← σ.procForkFailedChildDataStructures child)
      let (status, σ) := σ.procCopyName parent child
      if status < 0 then return (-1, ← σ.procForkFailedChildDataStructures child)
      let (status, σ) := σ.procAssignChildIds parent child
      if status < 0 then return (-1, ← σ.procForkFailedChildDataStructures child)
      let σ := σ.setProcess child { σ.process child with parent := some parent, state := .runnable }
      let σ := σ.procCopySignalState parent child
      return ((σ.process child).pid, σ)
  else none

end Kernel

end Flopperating
