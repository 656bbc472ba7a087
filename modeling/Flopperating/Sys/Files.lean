/-
# The system calls on descriptors

`sys_open`, `sys_close`, `sys_pipe` and `sys_chdir` of `src/sys/syscall.c`, by a process that
is there.  A path is the `text` at its address.

`sys_close` passes a pointer into the `process_t` to `kfree`; which one is kept in
`strayFrees`.
-/

import Flopperating.Task.Process

namespace Flopperating
namespace Kernel

/-- The descriptors without a node, from the first on. -/
def freeFds (p : Process) : List ℕ := (List.range maxProcFds).filter fun fd => (p.fds fd).node = none

/-- `sys_open`. -/
def sysOpen (process : ℕ) (args : SyscallArgs) (σ : Kernel) : Option (ℤ × Kernel) :=
  if args.a1 = 0 ∨ args.a2 = 0 then some (-1, σ)
  else if args.a3 ≠ 0 ∨ args.a4 ≠ 0 ∨ args.a5 ≠ 0 then some (-1, σ)
  else
    match (freeFds (σ.process process)).head? with
    | none => some (-1, σ)
    | some fd => do
      let (file, vfs) ← σ.vfs.vfsOpen (σ.text args.a1) args.a2
      let σ := { σ with vfs := vfs }
      match file with
      | none => return (-1, σ)
      | some n => return (fd, σ.setFd process fd { (σ.process process).fds fd with node := some n })

/-- `sys_close`. -/
def sysClose (process : ℕ) (args : SyscallArgs) (σ : Kernel) : Option (ℤ × Kernel) :=
  if args.a1 = 0 then some (-1, σ)
  else if args.a2 ≠ 0 ∨ args.a3 ≠ 0 ∨ args.a4 ≠ 0 ∨ args.a5 ≠ 0 then some (-1, σ)
  else
    let fd := toInt args.a1
    if fd < 0 ∨ fd ≥ maxProcFds then some (-1, σ)
    else do
      let desc := (σ.process process).fds fd.toNat
      let (_, σ) ← σ.vfsClose desc.node
      let σ := { σ with strayFrees := (process, fd.toNat) :: σ.strayFrees }
      return (0, σ.setFd process fd.toNat { desc with node := none })

/-- `sys_pipe`: what is stored at `pipefd` when it returns `0`. -/
def sysPipe (process : ℕ) (args : SyscallArgs) (σ : Kernel) : Option (Option (ℕ × ℕ) × Kernel) :=
  if args.a1 = 0 then some (none, σ)
  else if args.a2 ≠ 0 ∨ args.a3 ≠ 0 ∨ args.a4 ≠ 0 ∨ args.a5 ≠ 0 then some (none, σ)
  else
    match σ.kmalloc with
    | (none, σ) => some (none, σ)
    | (some pipe, σ) =>
      let σ := { σ with pipe := Function.update σ.pipe pipe (pipeInit (σ.pipe pipe).data) }
      match freeFds (σ.process process) with
      | readFd :: writeFd :: _ =>
        let σ := σ.setFd process readFd { (σ.process process).fds readFd with pipe := some pipe }
        let σ := σ.setFd process writeFd { (σ.process process).fds writeFd with pipe := some pipe }
        some (some (readFd, writeFd), σ)
      | _ => (σ.kfree (some pipe)).map fun σ => (none, σ)

/-- `sys_chdir`. -/
def sysChdir (process : ℕ) (args : SyscallArgs) (σ : Kernel) : Option (ℤ × Kernel) :=
  if args.a1 = 0 then some (-1, σ)
  else if args.a2 ≠ 0 ∨ args.a3 ≠ 0 ∨ args.a4 ≠ 0 ∨ args.a5 ≠ 0 then some (-1, σ)
  else do
    let (directory, vfs) ← σ.vfs.vfsOpen (σ.text args.a1) 0
    let σ := { σ with vfs := vfs }
    match directory with
    | none => return (-1, σ)
    | some n =>
      let (_, σ) ← σ.vfsClose (σ.process process).cwd
      return (0, σ.setProcess process { σ.process process with cwd := some n })

end Kernel

end Flopperating
