/-
# The table of system calls, and the table of descriptors

`c_syscall_routine` and the handlers of `src/sys/syscall.c` that use `proc->fds`, with a trace of
the entries that they access.

| source | here |
| --- | --- |
| `proc->fds`, and the memory on either side of it | a `TracedMemory` with an entry for each `int` |
| the functions that the handlers call, and the rest of the kernel | `Rest` and a type `σ` |
| a word of `syscall_dispatch_table`, `NULL` or a handler | an entry of `sysInitTbl` |

The handlers that do not use descriptors are `other`.  `proc_fork`, which copies the descriptors
from the first to the last, is in `Task/Process.lean`.
-/

import Flopperating.Data.TracedMemory
import Flopperating.Task.Process

namespace Flopperating

open TracedM

/-- The handlers of system calls. -/
inductive SysHandler
  | sysRead | sysWrite | sysFork | sysOpen | sysClose | sysMmap | sysSeek | sysStat | sysFstat
  | sysUnlink | sysMkdir | sysRmdir | sysTruncate | sysFtruncate | sysRename | sysGetpid | sysChdir
  | sysDup | sysPipe | sysClone | sysIoctl | sysPrint | sysReboot | sysMunmap | sysCreat
  | sysSchedYield | sysKill | sysLink | sysGetuid | sysGetgid | sysGeteuid | sysGetsid | sysSetuid
  | sysSetgid | sysRegidt | sysGetPriorityMax | sysGetPriorityMin | sysFsmount | sysCopyFileRange
  | sysGetcwd | sysMprotect | sysMremap | sysGetdents | sysWaitpid
  deriving DecidableEq

/-- `SYSCALL_NUM`. -/
abbrev syscallNum : ℕ := 44

/-- `sys_init_tbl` of `syscall_init`. -/
def sysInitTbl : List (Option SysHandler) :=
  [some .sysRead, some .sysWrite, some .sysFork, some .sysOpen, some .sysClose, some .sysMmap,
    some .sysSeek, some .sysStat, some .sysFstat, some .sysUnlink, some .sysMkdir, some .sysRmdir,
    some .sysTruncate, some .sysFtruncate, some .sysRename, some .sysGetpid, some .sysChdir,
    some .sysDup, some .sysPipe, some .sysClone, some .sysIoctl, some .sysPrint, some .sysReboot,
    some .sysMunmap, some .sysCreat, some .sysSchedYield, some .sysKill, some .sysLink,
    some .sysGetuid, some .sysGetgid, some .sysGeteuid, some .sysGetsid, some .sysSetuid,
    some .sysSetgid, some .sysRegidt, some .sysGetPriorityMax, some .sysGetPriorityMin,
    some .sysFsmount, some .sysCopyFileRange, some .sysGetcwd, some .sysMprotect, some .sysMremap,
    some .sysGetdents, some .sysWaitpid, none]

/-- What the handlers call. -/
structure Rest (σ : Type) where
  vfsRead : Option ℕ → ℕ → ℕ → σ → ℤ × σ
  vfsWrite : Option ℕ → ℕ → ℕ → σ → ℤ × σ
  vfsSeek : ℕ → ℕ → ℕ → σ → ℤ × σ
  vfsFstat : ℕ → ℕ → σ → ℤ × σ
  vfsFtruncate : ℕ → ℕ → σ → ℤ × σ
  vfsGetdents : ℕ → ℕ → ℕ → σ → ℤ × σ
  vfsOpen : ℕ → ℕ → σ → Option ℕ × σ
  vfsClose : Option ℕ → σ → ℤ × σ
  /-- `desc->node->ops->ioctl`, or `-1` without one. -/
  ioctl : ℕ → ℤ → ℕ → σ → ℤ × σ
  echo : ℕ → σ → Unit × σ
  flopstrlen : ℕ → σ → ℕ × σ
  kmalloc : ℕ → σ → Option ℕ × σ
  /-- `kmalloc(sizeof(pipe_t))` and `pipe_init`. -/
  newPipe : σ → Option ℕ × σ
  kfree : ℕ → σ → Unit × σ
  /-- `kfree(&proc->fds[fd])`. -/
  kfreeDesc : ℤ → σ → Unit × σ
  /-- `pipefd[0] = read_fd; pipefd[1] = write_fd`. -/
  storePipefd : ℕ → ℤ → ℤ → σ → Unit × σ
  /-- `proc->region`. -/
  region : σ → Option ℕ × σ
  /-- `sys_mmap_internal_get_va` and `sys_mmap_internal_alloc`. -/
  mmapPages : ℕ → ℕ → ℕ → ℕ → Option ℕ → σ → ℤ × σ
  other : SysHandler → SyscallArgs → σ → ℤ × σ

/-- A part of a handler: with the descriptors, and the rest of the kernel. -/
abbrev FdM (σ : Type) := TracedM ℤ VfsFileDescriptor σ

variable {σ : Type}

/-! ### The handlers -/

/-- `if (fd < 0 || fd >= MAX_PROC_FDS) return -1;`, and then something with the descriptor. -/
def withDesc (fd : ℤ) (act : VfsFileDescriptor → FdM σ ℤ) : FdM σ ℤ :=
  if fd < 0 ∨ fd ≥ maxProcFds then return -1
  else do
    let desc ← load fd
    act desc

/-- The same, where `-1` is returned for a descriptor without a node. -/
def withNode (fd : ℤ) (act : ℕ → FdM σ ℤ) : FdM σ ℤ :=
  withDesc fd fun desc =>
    match desc.node with
    | none => return -1
    | some n => act n

/-- The first of `n` descriptors from `fd` on that has no node. -/
def findFree : ℕ → ℤ → FdM σ (Option ℤ)
  | 0, _ => return none
  | n + 1, fd => do
    let desc ← load fd
    if desc.node = none then return some fd else findFree n (fd + 1)

namespace Rest

/-- `sys_read`. -/
def sysRead (ops : Rest σ) (args : SyscallArgs) : FdM σ ℤ :=
  if args.a1 = 0 ∨ args.a2 = 0 ∨ args.a3 = 0 then return -1
  else if args.a4 ≠ 0 ∨ args.a5 ≠ 0 then return -1
  else withDesc (toInt args.a1) fun desc => lift (ops.vfsRead desc.node args.a2 args.a3)

/-- `sys_seek`. -/
def sysSeek (ops : Rest σ) (args : SyscallArgs) : FdM σ ℤ :=
  if args.a1 = 0 ∨ args.a2 = 0 ∨ args.a3 = 0 then return -1
  else if args.a4 ≠ 0 ∨ args.a5 ≠ 0 then return -1
  else withNode (toInt args.a1) fun n => lift (ops.vfsSeek n args.a2 (args.a3 % 256))

/-- `sys_write`, which goes on after it has logged wrong arguments. -/
def sysWrite (ops : Rest σ) (args : SyscallArgs) : FdM σ ℤ :=
  if toInt args.a1 < 0 ∨ toInt args.a1 ≥ maxProcFds then return -1
  else if args.a2 = 0 then return -1
  else if toInt args.a1 = 1 then do
    lift (ops.echo args.a2)
    return 0
  else do
    let desc ← load (toInt args.a1)
    if desc.node = none then return -1
    else lift (ops.vfsWrite desc.node args.a2 args.a3)

/-- `sys_print`. -/
def sysPrint (ops : Rest σ) (args : SyscallArgs) : FdM σ ℤ :=
  if args.a1 = 0 then return -1
  else if args.a2 ≠ 0 ∨ args.a3 ≠ 0 ∨ args.a4 ≠ 0 ∨ args.a5 ≠ 0 then return -1
  else do
    let len ← lift (ops.flopstrlen args.a1)
    if len = 0 then return 0
    else sysWrite ops ⟨1, args.a1, u32 len, 0, 0, by decide, args.word.1, u32_lt len, by decide⟩

/-- `sys_fstat`. -/
def sysFstat (ops : Rest σ) (args : SyscallArgs) : FdM σ ℤ :=
  if args.a1 = 0 ∨ args.a2 = 0 then return -1
  else if args.a3 ≠ 0 ∨ args.a4 ≠ 0 ∨ args.a5 ≠ 0 then return -1
  else withNode (toInt args.a1) fun n => lift (ops.vfsFstat n args.a2)

/-- `sys_ftruncate`. -/
def sysFtruncate (ops : Rest σ) (args : SyscallArgs) : FdM σ ℤ :=
  if args.a1 = 0 ∨ args.a2 = 0 then return -1
  else if args.a3 ≠ 0 ∨ args.a4 ≠ 0 ∨ args.a5 ≠ 0 then return -1
  else withNode (toInt args.a1) fun n => lift (ops.vfsFtruncate n args.a2)

/-- `sys_ioctl`. -/
def sysIoctl (ops : Rest σ) (args : SyscallArgs) : FdM σ ℤ :=
  if args.a1 = 0 ∨ args.a2 = 0 then return -1
  else if args.a4 ≠ 0 ∨ args.a5 ≠ 0 then return -1
  else withNode (toInt args.a1) fun n => lift (ops.ioctl n (toInt args.a2) args.a3)

/-- `sys_getdents`, which does not look whether there is such a descriptor. -/
def sysGetdents (ops : Rest σ) (args : SyscallArgs) : FdM σ ℤ :=
  if args.a1 = 0 ∨ args.a2 = 0 ∨ args.a3 = 0 then return -1
  else do
    let desc ← load (toInt args.a1)
    match desc.node with
    | none => return -1
    | some n => lift (ops.vfsGetdents n args.a2 args.a3)

/-- `sys_close`. -/
def sysClose (ops : Rest σ) (args : SyscallArgs) : FdM σ ℤ :=
  if args.a1 = 0 then return -1
  else if args.a2 ≠ 0 ∨ args.a3 ≠ 0 ∨ args.a4 ≠ 0 ∨ args.a5 ≠ 0 then return -1
  else withDesc (toInt args.a1) fun desc => do
    let _ ← lift (ops.vfsClose desc.node)
    lift (ops.kfreeDesc (toInt args.a1))
    modify (toInt args.a1) fun desc => { desc with node := none }
    return 0

/-- `sys_mmap`, with `sys_mmap_internal_find_and_seek`. -/
def sysMmap (ops : Rest σ) (args : SyscallArgs) : FdM σ ℤ :=
  if args.a1 = 0 ∨ args.a2 = 0 ∨ args.a3 = 0 ∨ args.a4 = 0 ∨ args.a5 = 0 then return -1
  else do
    match ← lift ops.region with
    | none => return -1
    | some region =>
      let pages := ops.mmapPages region args.a1 (alignUp args.a2 pageSize) args.a3
      if toInt args.a4 ≥ 0 then
        withNode (toInt args.a4) fun n => do
          let sought ← lift (ops.vfsSeek n args.a5 0)
          if sought < 0 then return -1 else lift (pages (some n))
      else lift (pages none)

/-- The loop of `sys_copy_file_range`, for at most so many rounds. -/
def copyRange (ops : Rest σ) (fdIn fdOut : ℤ) (buffer count chunk : ℕ) : ℕ → ℕ → FdM σ (Option ℤ)
  | 0, _ => return none
  | fuel + 1, total =>
    if total < count then do
      let toRead := min (count - total) chunk
      let src ← load fdIn
      let r ← lift (ops.vfsRead src.node buffer toRead)
      if r ≤ 0 then return some (toInt total)
      else do
        let dst ← load fdOut
        let w ← lift (ops.vfsWrite dst.node buffer r.toNat)
        if w ≤ 0 then return some (toInt total)
        else if r.toNat < toRead then return some (toInt (u32 (total + w.toNat)))
        else copyRange ops fdIn fdOut buffer count chunk fuel (u32 (total + w.toNat))
    else return some (toInt total)

/-- `sys_copy_file_range`. -/
def sysCopyFileRange (ops : Rest σ) (fuel : ℕ) (args : SyscallArgs) : FdM σ (Option ℤ) :=
  if args.a1 = 0 ∨ args.a2 = 0 then return some (-1)
  else if args.a4 ≠ 0 ∨ args.a5 ≠ 0 then return some (-1)
  else if toInt args.a1 < 0 ∨ toInt args.a1 ≥ maxProcFds ∨ toInt args.a2 < 0 ∨ toInt args.a2 ≥ maxProcFds then
    return some (-1)
  else do
    let src ← load (toInt args.a1)
    if src.node = none then return some (-1)
    else do
      let dst ← load (toInt args.a2)
      if dst.node = none then return some (-1)
      else do
        let chunk := min args.a3 256
        match ← lift (ops.kmalloc chunk) with
        | none => return some (-1)
        | some buffer =>
          let total ← copyRange ops (toInt args.a1) (toInt args.a2) buffer args.a3 chunk fuel 0
          lift (ops.kfree buffer)
          return total

/-- `sys_open`. -/
def sysOpen (ops : Rest σ) (args : SyscallArgs) : FdM σ ℤ :=
  if args.a1 = 0 ∨ args.a2 = 0 then return -1
  else if args.a3 ≠ 0 ∨ args.a4 ≠ 0 ∨ args.a5 ≠ 0 then return -1
  else do
    match ← findFree maxProcFds 0 with
    | none => return -1
    | some fd =>
      match ← lift (ops.vfsOpen args.a1 args.a2) with
      | none => return -1
      | some file =>
        modify fd fun desc => { desc with node := some file }
        return fd

/-- `sys_pipe`. -/
def sysPipe (ops : Rest σ) (args : SyscallArgs) : FdM σ ℤ :=
  if args.a1 = 0 then return -1
  else if args.a2 ≠ 0 ∨ args.a3 ≠ 0 ∨ args.a4 ≠ 0 ∨ args.a5 ≠ 0 then return -1
  else do
    match ← lift ops.newPipe with
    | none => return -1
    | some pipe =>
      match ← findFree maxProcFds 0 with
      | none => do
        lift (ops.kfree pipe)
        return -1
      | some readFd =>
        match ← findFree (maxProcFds - (readFd.toNat + 1)) (readFd + 1) with
        | none => do
          lift (ops.kfree pipe)
          return -1
        | some writeFd => do
          modify readFd fun desc => { desc with pipe := some pipe }
          modify writeFd fun desc => { desc with pipe := some pipe }
          lift (ops.storePipefd args.a1 readFd writeFd)
          return 0

/-! ### The dispatcher -/

/-- A handler; `none` when the loop of `sys_copy_file_range` is not through yet. -/
def call (ops : Rest σ) (fuel : ℕ) (args : SyscallArgs) : SysHandler → FdM σ (Option ℤ)
  | .sysRead => some <$> ops.sysRead args
  | .sysWrite => some <$> ops.sysWrite args
  | .sysOpen => some <$> ops.sysOpen args
  | .sysClose => some <$> ops.sysClose args
  | .sysMmap => some <$> ops.sysMmap args
  | .sysSeek => some <$> ops.sysSeek args
  | .sysFstat => some <$> ops.sysFstat args
  | .sysFtruncate => some <$> ops.sysFtruncate args
  | .sysPipe => some <$> ops.sysPipe args
  | .sysIoctl => some <$> ops.sysIoctl args
  | .sysPrint => some <$> ops.sysPrint args
  | .sysCopyFileRange => ops.sysCopyFileRange fuel args
  | .sysGetdents => some <$> ops.sysGetdents args
  | h => some <$> lift (ops.other h args)

/-- `c_syscall_routine`: the entries of the table that it reads, and what it does then; `none` when
what it has read is not a handler. -/
def cSyscallRoutine (ops : Rest σ) (fuel num : ℕ) (args : SyscallArgs) : List ℕ × Option (FdM σ (Option ℤ)) :=
  if num = syscallNum then ([], some (return some (-1)))
  else ([num], (sysInitTbl[num]?).join.map (ops.call fuel args))

end Rest

end Flopperating
