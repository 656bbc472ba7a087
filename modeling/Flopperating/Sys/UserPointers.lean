/-
# The system calls that go through an address of their caller

`sys_read`, `sys_write`, `sys_getdents`, `sys_pipe` and `sys_waitpid` of `src/sys/syscall.c`, with
`vfs_read`, `vfs_write` and `vfs_getdents`, the two file systems, `echo` and `proc_waitpid`.  What
they load and store through an address of the arguments is kept in a `UserMemory`.

| source | here |
| --- | --- |
| memory at the addresses of the caller | `mem` |
| what a file system has of a node | `file` |
| `fds[fd].node` for an `fd` outside of the table | `beyond` |
| whether `kmalloc` has memory for the pages of a file | argument `kmalloc` |

No function puts anything in `op_table.getdents`.  The pages of a file are not `NULL`, and a call
that follows a pointer that is not there, or looks for a `NUL` that is not there, stops.  In
`proc_waitpid` a step is one look, as in `Task/Registry.lean`.
-/

import Flopperating.Data.TracedMemory
import Flopperating.Fs.Tmpfs
import Flopperating.Sys.Files
import Flopperating.Task.Registry

namespace Flopperating

open ByteFile TracedMemory

/-- How a step of a call ends: with a value, with a yield before the next look, or not at all. -/
inductive Ending
  | returns (ret : ℤ)
  | yields
  | stops

abbrev UserMemory := TracedMemory ℕ UInt8

/-- What a file system has of a node. -/
inductive FsFile
  | tmpfs (t : TmpfsFile)
  | procfs (name : CString)

structure System where
  registry : Registry
  file : ℕ → FsFile
  exitStatus : ℕ → ℕ
  beyond : ℤ → Option ℕ
  mem : UserMemory

/-- The bytes from `addr` on. -/
def byteAt (addr i : ℕ) : ℕ := u32 (addr + i)

/-- `*(int*) addr = v`. -/
def storeInt (addr v : ℕ) (m : UserMemory) : UserMemory :=
  m.storeFrom (byteAt addr) 0 ((List.range 4).map fun k => UInt8.ofNat (v / 2 ^ (8 * k)))

/-! ### The file systems -/

/-- The copy loops of `tmpfs_op_read` and `tmpfs_op_write`, with `left` bytes to go; `move` is what
`flop_memcpy` does when neither pointer is `NULL`. -/
def tmpfsCopyFrom (move : ℕ → ℕ → ℕ → ℕ → TmpfsFile × UserMemory → TmpfsFile × UserMemory)
    (addr left : ℕ) (s : TmpfsFile × UserMemory) : Bool × TmpfsFile × UserMemory :=
  if left = 0 then (true, s)
  else
    match s.1.pages[u32 (s.1.offset / pageSize)]? with
    | none => (false, s)
    | some pa =>
      let chunk := tmpfsChunk s.1 left
      let (t, m) := if addr = 0 then s else move pa (s.1.offset % pageSize) chunk addr s
      tmpfsCopyFrom move (u32 (addr + chunk)) (left - chunk) ({ t with offset := u64 (t.offset + chunk) }, m)
termination_by left
decreasing_by
  have := tmpfsChunk_pos s.1 ‹_›
  omega

/-- `flop_memcpy(buffer + read_total, (uint8_t*) t->pages[p_idx] + p_off, chunk)`. -/
def copyToUser (pa pOff chunk addr : ℕ) (s : TmpfsFile × UserMemory) : TmpfsFile × UserMemory :=
  (s.1, s.2.storeFrom (byteAt addr) 0 (slice (s.1.mem pa) pOff chunk))

/-- `flop_memcpy((uint8_t*) t->pages[p_idx] + p_off, buffer + written, chunk)`. -/
def copyFromUser (pa pOff chunk addr : ℕ) (s : TmpfsFile × UserMemory) : TmpfsFile × UserMemory :=
  let (bytes, m) := s.2.loadFrom (byteAt addr) 0 chunk
  ({ s.1 with mem := Function.update s.1.mem pa (overwrite (s.1.mem pa) pOff bytes) }, m)

/-- `tmpfs_op_read`. -/
def tmpfsRead (buffer size : ℕ) (t : TmpfsFile) (m : UserMemory) : Ending × TmpfsFile × UserMemory :=
  if t.offset ≥ t.size then (.returns 0, t, m)
  else
    let size := if u64 (t.offset + size) > t.size then u32 (t.size - t.offset) else size
    let (copied, s) := tmpfsCopyFrom copyToUser buffer size (t, m)
    (if copied then .returns (toInt size) else .stops, s)

/-- `tmpfs_op_write`. -/
def tmpfsWrite (kmalloc : Bool) (buffer size : ℕ) (t : TmpfsFile) (m : UserMemory) :
    Ending × TmpfsFile × UserMemory :=
  let stop := u32 (t.offset + size)
  let needed := u32 (stop + pageSize - 1) / pageSize
  match tmpfsGrow kmalloc needed t with
  | .error _ => (.stops, t, m)
  | .ok t =>
    let (copied, t, m) := tmpfsCopyFrom copyFromUser buffer size (t, m)
    if copied then (.returns (toInt size), tmpfsSetSize t, m) else (.stops, t, m)

/-- `procfs_read`, with `flopstrcopy`. -/
def procfsRead (buf size : ℕ) (name : CString) (m : UserMemory) : Ending × UserMemory :=
  if buf = 0 ∨ size = 0 then (.returns 0, m)
  else
    let len := min (flopstrlen name) size
    (.returns (toInt len),
      m.storeFrom (byteAt buf) 0 ((name.take (u32 (len + 2 ^ 32 - 1))).map Subtype.val ++ [0]))

/-! ### The virtual file system -/

namespace System

def kernel (w : System) : Kernel := w.registry.kernel

def setKernel (κ : Kernel) (w : System) : System := { w with registry := { w.registry with kernel := κ } }

def setVfs (vfs : Vfs) (w : System) : System := w.setKernel { w.kernel with vfs := vfs }

def setFile (n : ℕ) (f : FsFile) (w : System) : System := { w with file := Function.update w.file n f }

/-- `vfs_read`. -/
def vfsRead (node : Option ℕ) (buffer size : ℕ) (w : System) : Ending × System :=
  match node with
  | none => (.returns (-1), w)
  | some n =>
    match w.kernel.vfs.node? n with
    | none => (.stops, w)
    | some nd =>
      if nd.vfsMode &&& 1 ≠ 1 then (.returns (-1), w)
      else if (w.kernel.vfs.mp? nd.mountpoint).isNone then (.stops, w)
      else
        match w.file n with
        | .tmpfs t =>
          let (ending, t, m) := tmpfsRead buffer size t w.mem
          (ending, { w.setFile n (.tmpfs t) with mem := m })
        | .procfs name =>
          let (ending, m) := procfsRead buffer size name w.mem
          (ending, { w with mem := m })

/-- `vfs_seek_if_append_after_write`. -/
def vfsSeekIfAppendAfterWrite (n : ℕ) (nd : VfsNode) (ret : ℤ) (w : System) : Ending × System :=
  if nd.vfsMode &&& 9 = 9 then
    match w.kernel.vfs.vfsSeek n with
    | none => (.stops, w)
    | some (_, vfs) =>
      match w.file n with
      | .tmpfs t => (.returns ret, (w.setVfs vfs).setFile n (.tmpfs (tmpfsOpSeek 0 2 t).2))
      | .procfs _ => (.returns ret, w.setVfs vfs)
  else (.returns ret, w)

/-- The operation that `vfs_internal_write` calls. -/
def opWrite (kmalloc : Bool) (n buffer size : ℕ) (w : System) : Ending × System :=
  match w.file n with
  | .tmpfs t =>
    let (ending, t, m) := tmpfsWrite kmalloc buffer size t w.mem
    (ending, { w.setFile n (.tmpfs t) with mem := m })
  | .procfs _ => (.returns (-1), w)

/-- `vfs_internal_write`. -/
def vfsInternalWrite (kmalloc : Bool) (n buffer size : ℕ) (nd : VfsNode) (w : System) : Ending × System :=
  match w.kernel.vfs.mpInc nd.mountpoint with
  | none => (.stops, w)
  | some vfs =>
    let (ending, w) := (w.setVfs vfs).opWrite kmalloc n buffer size
    match ending with
    | .returns ret =>
      match w.kernel.vfs.mpPut nd.mountpoint with
      | none => (.stops, w)
      | some vfs => (.returns ret, w.setVfs vfs)
    | ending => (ending, w)

/-- `vfs_write`. -/
def vfsWrite (kmalloc : Bool) (node : Option ℕ) (buffer size : ℕ) (w : System) : Ending × System :=
  match node with
  | none => (.returns (-1), w)
  | some n =>
    match w.kernel.vfs.node? n with
    | none => (.stops, w)
    | some nd =>
      if nd.vfsMode &&& 2 ≠ 2 then (.returns (-1), w)
      else
        let (ending, w) := w.vfsInternalWrite kmalloc n buffer size nd
        match ending with
        | .returns ret => if ret = -1 then (.returns (-1), w) else w.vfsSeekIfAppendAfterWrite n nd ret
        | ending => (ending, w)

/-- `vfs_getdents`. -/
def vfsGetdents (node : Option ℕ) (w : System) : Ending × System :=
  match node with
  | none => (.returns (-1), w)
  | some n =>
    match (w.kernel.vfs.node? n).bind fun nd => w.kernel.vfs.mp? nd.mountpoint with
    | none => (.stops, w)
    | some _ => (.returns (-1), w)

/-- What `echo` loads of its string: `flopvsnprintf` looks for the end of the string, and then copies
what there is room for after the ten bytes that select the colour. -/
def echo (str : ℕ) (w : System) : Ending × System :=
  match w.mem.loadUntil (· = 0) (byteAt str) 0 (2 ^ 32) with
  | (none, m) => (.stops, { w with mem := m })
  | (some len, m) => (.returns 0, { w with mem := (m.loadFrom (byteAt str) 0 (min len (8191 - 10))).2 })

/-! ### The calls, by the process `me` -/

def desc (me fd : ℕ) (w : System) : VfsFileDescriptor := (w.kernel.process me).fds fd

/-- `sys_read`. -/
def sysRead (me : ℕ) (args : SyscallArgs) (w : System) : Ending × System :=
  if args.a1 = 0 ∨ args.a2 = 0 ∨ args.a3 = 0 then (.returns (-1), w)
  else if args.a4 ≠ 0 ∨ args.a5 ≠ 0 then (.returns (-1), w)
  else if toInt args.a1 < 0 ∨ toInt args.a1 ≥ maxProcFds then (.returns (-1), w)
  else w.vfsRead (w.desc me args.a1).node args.a2 args.a3

/-- `sys_write`, which does not return for the arguments that it logs. -/
def sysWrite (kmalloc : Bool) (me : ℕ) (args : SyscallArgs) (w : System) : Ending × System :=
  if toInt args.a1 < 0 ∨ toInt args.a1 ≥ maxProcFds then (.returns (-1), w)
  else if args.a2 = 0 then (.returns (-1), w)
  else if args.a1 = 1 then w.echo args.a2
  else w.vfsWrite kmalloc (w.desc me args.a1).node args.a2 args.a3

/-- `sys_getdents`. -/
def sysGetdents (me : ℕ) (args : SyscallArgs) (w : System) : Ending × System :=
  if args.a1 = 0 ∨ args.a2 = 0 ∨ args.a3 = 0 then (.returns (-1), w)
  else if toInt args.a1 < 0 ∨ toInt args.a1 ≥ maxProcFds then w.vfsGetdents (w.beyond (toInt args.a1))
  else w.vfsGetdents (w.desc me args.a1).node

/-- `sys_pipe`, with what it stores at `pipefd`. -/
def sysPipe (me : ℕ) (args : SyscallArgs) (w : System) : Ending × System :=
  match w.kernel.sysPipe me args with
  | none => (.stops, w)
  | some (none, κ) => (.returns (-1), w.setKernel κ)
  | some (some (readFd, writeFd), κ) => (.returns 0,
      { w.setKernel κ with mem := storeInt (args.a1 + 4) writeFd (storeInt args.a1 readFd w.mem) })

/-- The child that a look of `proc_waitpid` finds dead. -/
def zombie (fuel me : ℕ) (pid : ℤ) (w : System) : Option ℕ :=
  (Registry.findZombie w.kernel.process pid fuel (w.kernel.process me).children false).bind Prod.snd

/-- One look of `proc_waitpid`, with what it stores at `status`. -/
def procWaitpid (fuel me : ℕ) (args : SyscallArgs) (w : System) : Ending × System :=
  let w := match w.zombie fuel me (toInt args.a1) with
    | none => w
    | some target =>
      if args.a2 = 0 then w else { w with mem := storeInt args.a2 (w.exitStatus target) w.mem }
  match w.registry.procWaitpid fuel (some me) (toInt args.a1) (args.a3 &&& 1 ≠ 0) with
  | none => (.stops, w)
  | some (none, registry) => (.yields, { w with registry := registry })
  | some (some ret, registry) => (.returns ret, { w with registry := registry })

/-- `vmm_is_user_mapped`, of a region that may be `NULL`. -/
def isUserMapped (region : Option ℕ) (va : ℕ) (w : System) : Option Bool :=
  match region with
  | none => some false
  | some r => vmmIsUserMapped r va w.kernel.vmm

/-- `sys_waitpid`, up to the first yield. -/
def sysWaitpid (fuel me : ℕ) (args : SyscallArgs) (w : System) : Ending × System :=
  if args.a2 = 0 then w.procWaitpid fuel me args
  else
    match w.isUserMapped w.kernel.vmm.currentRegion args.a2 with
    | none => (.stops, w)
    | some false => (.returns (-1), w)
    | some true => w.procWaitpid fuel me args

end System

end Flopperating
