/-
# The registry of processes

The rest of `src/task/process.c` that says which processes there are: `proc_tbl->processes`,
`process_count`, and the lists of children, all of them linked by `siblings`.

`proc_waitpid` looks for a child, and where there is none yet calls `sched_yield` and looks again:
here a call is one such look.  What it stores at `status` is left out, and so are the threads of a
process, which are in `Task/Sched.lean` and `Task/ThreadCalls.lean`, and the file that
`proc_create_init_process` adds to `procfs`.  The name of the initial process is a static array;
that it is passed to `kfree` is counted, and has no other effect here.
-/

import Flopperating.Task.Process
import Flopperating.Task.Sched

namespace Flopperating

structure Registry where
  kernel : Kernel
  /-- `proc_tbl->processes`. -/
  processes : Option ℕ
  initProcess : Option ℕ
  /-- `init_process_name_static`. -/
  initName : ℕ
  staticFrees : ℕ

namespace Registry

def setProcess (i : ℕ) (p : Process) (σ : Registry) : Registry := { σ with kernel := σ.kernel.setProcess i p }

/-- `process->siblings`. -/
def siblings (σ : Registry) (i : ℕ) : Option ℕ := (σ.kernel.process i).siblings

/-! ### Looking for a process -/

/-- The loop of `proc_get_process_by_pid` and `proc_dup`. -/
def findPid (process : ℕ → Process) (pid : ℤ) : ℕ → Option ℕ → Option (Option ℕ)
  | _, none => some none
  | 0, some _ => none
  | n + 1, some p =>
    if (process p).pid = pid then some (some p) else findPid process pid n (process p).siblings

/-- `proc_get_process_by_pid`. -/
def procGetProcessByPid (fuel : ℕ) (pid : ℤ) (σ : Registry) : Option (Option ℕ) :=
  findPid σ.kernel.process pid fuel σ.processes

/-- The loop of `proc_waitpid`: whether a child fits, and the first of these that is a zombie. -/
def findZombie (process : ℕ → Process) (pid : ℤ) : ℕ → Option ℕ → Bool → Option (Bool × Option ℕ)
  | _, none, found => some (found, none)
  | 0, some _, _ => none
  | n + 1, some c, found =>
    if pid = -1 ∨ (process c).pid = pid then
      match (process c).state with
      | .zombie => some (true, some c)
      | _ => findZombie process pid n (process c).siblings true
    else findZombie process pid n (process c).siblings found

/-! ### Taking a process out of a list -/

/-- `proc_family_remove_child`. -/
def procFamilyRemoveChild (fuel parent child : ℕ) (σ : Registry) : Option Registry :=
  (ThreadList.search σ.siblings child fuel none (σ.kernel.process parent).children).map fun found =>
    match found with
    | none => σ
    | some prev =>
      let after := σ.siblings child
      let σ := match prev with
        | some prev => σ.setProcess prev { σ.kernel.process prev with siblings := after }
        | none => σ.setProcess parent { σ.kernel.process parent with children := after }
      σ.setProcess child { σ.kernel.process child with parent := none, siblings := none }

/-- `proc_remove_process_from_table`. -/
def procRemoveProcessFromTable (fuel process : ℕ) (σ : Registry) : Option (ℤ × Registry) :=
  if σ.processes = none then some (-1, σ)
  else (ThreadList.search σ.siblings process fuel none σ.processes).map fun found =>
    match found with
    | none => (-1, σ)
    | some (some prev) =>
      (0, σ.setProcess prev { σ.kernel.process prev with siblings := σ.siblings process })
    | some none => (0, { σ with processes := σ.siblings process })

/-! ### The end of a process -/

/-- The static name is passed to `kfree`. -/
def freeStaticName (process : ℕ) (σ : Registry) : Registry :=
  if (σ.kernel.process process).name = some σ.initName then
    { σ.setProcess process { σ.kernel.process process with name := none } with
      staticFrees := σ.staticFrees + 1 }
  else σ

/-- `proc_clean`. -/
def procClean (process : ℕ) (σ : Registry) : Option Registry :=
  ((σ.freeStaticName process).kernel.procClean process).map fun kernel =>
    { σ.freeStaticName process with kernel := kernel }

/-- `proc_terminate_process`. -/
def procTerminateProcess (fuel : ℕ) (process : Option ℕ) (σ : Registry) : Option (ℤ × Registry) :=
  match process with
  | none => some (-1, σ)
  | some p => do
    let σ ← σ.procClean p
    let (_, σ) ← σ.procRemoveProcessFromTable fuel p
    let σ := { σ with kernel := { σ.kernel with processCount := σ.kernel.processCount - 1 } }
    let kernel ← σ.kernel.kfree (some p)
    return (0, { σ with kernel := kernel })

/-- One look of `proc_waitpid`; the result is `none` where it yields and looks again. -/
def procWaitpid (fuel : ℕ) (current : Option ℕ) (pid : ℤ) (nohang : Bool) (σ : Registry) :
    Option (Option ℤ × Registry) :=
  match current with
  | none => some (some (-1), σ)
  | some me => do
    match ← findZombie σ.kernel.process pid fuel (σ.kernel.process me).children false with
    | (_, some target) =>
      let τ ← σ.procFamilyRemoveChild fuel me target
      return (some (σ.kernel.process target).pid, ← τ.procClean target)
    | (found, none) =>
      if found then return (if nohang then some 0 else none, σ) else return (some (-1), σ)

/-! ### A new process -/

/-- The first part of `proc_create_init_process`, up to the region. -/
def procInitProcessBegin (σ : Registry) : Option (Option ℕ × Registry) := do
  match ← σ.kernel.procAlloc with
  | (none, kernel) => return (none, { σ with kernel := kernel, initProcess := none })
  | (some p, kernel) =>
    let σ : Registry := { σ with kernel := kernel, initProcess := some p }.setProcess p
      { kernel.process p with
        state := .embryo, sigPending := 0, sigMask := 0, sigHandlers := fun _ => none
        pid := 0, sid := 0, pgid := 0, rgid := 0, gid := 0, ruid := 0, uid := 0, name := some σ.initName }
    match ← vmmRegionCreate 4 (pageUser ||| pageRw) true σ.kernel.vmm with
    | ((none, _), vmm) =>
      let σ := { σ with kernel := { σ.kernel with vmm := vmm } }.freeStaticName p
      let kernel ← σ.kernel.procForkFailedChildDataStructures p
      return (none, { σ with kernel := kernel })
    | ((some r, _), vmm) =>
      let σ : Registry := { σ with kernel := { σ.kernel with vmm := vmm } }
      return (some p, σ.setProcess p { σ.kernel.process p with region := some r, memUsage := 4 * pageSize })

/-- `proc_init_process_family_create`. -/
def procInitProcessFamilyCreate (process : ℕ) (σ : Registry) : Registry :=
  { σ with kernel := { σ.kernel with
      nextPid := σ.kernel.nextPid + 1, processCount := σ.kernel.processCount + 1 } }.setProcess process
    { σ.kernel.process process with
      parent := none, children := none, siblings := none, pid := σ.kernel.nextPid, cwd := none }

/-- `proc_create_init_process`; `thread` says whether its thread could be made. -/
def procCreateInitProcess (thread : Bool) (σ : Registry) : Option (ℤ × Registry) := do
  match ← σ.procInitProcessBegin with
  | (none, σ) => return (-1, σ)
  | (some p, σ) =>
    let σ := σ.procInitProcessFamilyCreate p
    if thread then return (0, σ.setProcess p { σ.kernel.process p with state := .running })
    else
      let σ := σ.freeStaticName p
      let kernel ← σ.kernel.procForkFailedChildDataStructures p
      return (-1, { σ with kernel := kernel })

/-- `proc_fork`. -/
def procFork (parent : Option ℕ) (σ : Registry) : Option (ℤ × Registry) :=
  match parent with
  | none => some (-1, σ)
  | some p => (σ.kernel.procFork p).map fun o => (o.1, { σ with kernel := o.2 })

/-- `proc_dup`. -/
def procDup (fuel : ℕ) (pid : ℤ) (σ : Registry) : Option (ℤ × Registry) := do
  match ← findPid σ.kernel.process pid fuel σ.processes with
  | none => return (-1, σ)
  | some parent =>
    let (child, σ) ← σ.procFork (some parent)
    return (if child < 0 then -1 else child, σ)

end Registry

end Flopperating
