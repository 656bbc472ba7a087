/-
# The scheduler

`src/task/sched.c`, and the functions of `src/task/process.c` that put threads in lists and take
them out.

| source | here |
| --- | --- |
| a `thread_t*` | a number |
| `thread->next`, one field for all lists | `Sched.next` |
| the other fields that are used | `Sched.thread` |
| `sched.ready_queue` and the like, `process->threads` | `Sched.list` of a `ListName` |
| `load_pd(dir)` | `Vmm.currentPgDir` |
| a write through `NULL`, a loop that never ends | `none` |

The loops take the number of rounds they may go as an argument: where a loop ends, it does with
any large enough number, and with the same result.  The locks and the log are left out; the
context of a thread, its stack and its name are not used by these functions.
-/

import Flopperating.Data.LinkedList
import Flopperating.Mem.Vmm

namespace Flopperating

open LinkedList

/-- `sched_class_t`, best first. -/
inductive SchedClass
  | realtime
  | normal
  | idle
  deriving DecidableEq

/-- The number of a class. -/
def SchedClass.rank : SchedClass → ℕ
  | .realtime => 0
  | .normal => 1
  | .idle => 2

/-- `thread_state_t`. -/
inductive ThreadState
  | ready
  | running
  | sleeping
  | exited
  | dead
  | suspended
  | blocked
  deriving DecidableEq

/-- `thread_t`, but for `next`. -/
structure Thread where
  user : Bool
  cls : SchedClass
  base : ℕ
  effective : ℕ
  threadState : ThreadState
  process : Option ℕ
  timeSinceLastRun : ℕ
  timeSlice : ℕ
  wakeTime : ℕ

/-- `thread_list_t`. -/
structure ThreadList where
  head : Option ℕ
  tail : Option ℕ
  count : ℕ
  deriving DecidableEq

abbrev starvationThreshold : ℕ := 1000
abbrev boostAmount : ℕ := 5
abbrev maxPriority : ℕ := 255
abbrev timesliceRealtime : ℕ := 100
abbrev timesliceNormal : ℕ := 20
abbrev timesliceIdle : ℕ := 1

/-! ### Lists of threads -/

namespace ThreadList

/-- A list and the links of all threads. -/
abbrev Linked := ThreadList × (ℕ → Option ℕ)

/-- `thread` goes to the end of the list. -/
def append (thread : ℕ) (s : Linked) : Option Linked :=
  let next := Function.update s.2 thread none
  match s.1.head with
  | none => some (⟨some thread, some thread, u32 (s.1.count + 1)⟩, next)
  | some _ => s.1.tail.map fun tail =>
      ({ s.1 with tail := some thread, count := u32 (s.1.count + 1) },
        Function.update next tail (some thread))

/-- `thread`, which comes after `prev`, goes out of the list. -/
def unlink (thread : ℕ) (prev : Option ℕ) (s : Linked) : Linked :=
  let (head, next) := match prev with
    | some prev => (s.1.head, Function.update s.2 prev (s.2 thread))
    | none => (s.2 thread, s.2)
  (⟨head, if s.1.tail = some thread then prev else s.1.tail, s.1.count - 1⟩,
    Function.update next thread none)

/-- The loop of `sched_remove`. -/
def search (next : ℕ → Option ℕ) (target : ℕ) :
    ℕ → (prev curr : Option ℕ) → Option (Option (Option ℕ))
  | _, _, none => some none
  | 0, _, some _ => none
  | n + 1, prev, some curr =>
    if curr = target then some (some prev) else search next target n (some curr) (next curr)

end ThreadList

open ThreadList

/-- `sched_enqueue`. -/
def schedEnqueue (thread : ℕ) (s : Linked) : Option Linked := append thread s

/-- `sched_thread_list_add`. -/
def schedThreadListAdd (thread : ℕ) (s : Linked) : Option Linked := append thread s

/-- `sched_dequeue`. -/
def schedDequeue (s : Linked) : Option ℕ × Linked :=
  match s.1.head with
  | none => (none, s)
  | some thread =>
    (some thread, ⟨s.2 thread, if s.2 thread = none then none else s.1.tail,
      u32 (s.1.count + (2 ^ 32 - 1))⟩, Function.update s.2 thread none)

/-- `sched_remove`; its `count--` is not guarded. -/
def schedRemove (fuel target : ℕ) (s : Linked) : Option Linked :=
  (search s.2 target fuel none s.1.head).map fun found =>
    match found with
    | none => s
    | some prev =>
      let (list, next) := unlink target prev s
      ({ list with count := u32 (s.1.count + (2 ^ 32 - 1)) }, next)

/-- `sched_unlink_thread`. -/
def schedUnlinkThread (thread : ℕ) (prev : Option ℕ) (s : Linked) : Linked := unlink thread prev s

/-- `sched_remove_from_sleep_queue`. -/
def schedRemoveFromSleepQueue (thread : ℕ) (prev : Option ℕ) (s : Linked) : Linked :=
  unlink thread prev s

/-! ### The state -/

inductive ListName
  | kernelThreads
  | userThreads
  | readyQueue
  | sleepQueue
  /-- `process->threads`. -/
  | threads (process : ℕ)
  deriving DecidableEq

structure Sched where
  next : ℕ → Option ℕ
  thread : ℕ → Thread
  list : ListName → ThreadList
  idleThread : ℕ
  currentThread : Option ℕ
  currentProcess : Option ℕ
  ticks : ℕ
  /-- `process->region`. -/
  region : ℕ → Option ℕ
  /-- What `kernel_region->pg_dir` is in `sched.c`, which declares `kernel_region` as a pointer. -/
  kernelDir : ℕ
  vmm : Vmm

namespace Sched

/-- Run an operation on one list. -/
def onList (name : ListName) (op : Linked → Linked) (σ : Sched) : Sched :=
  { σ with
    next := (op (σ.list name, σ.next)).2
    list := Function.update σ.list name (op (σ.list name, σ.next)).1 }

/-- Run an operation on one list that may fail. -/
def onList? (name : ListName) (op : Linked → Option Linked) (σ : Sched) : Option Sched :=
  (op (σ.list name, σ.next)).map fun s =>
    { σ with next := s.2, list := Function.update σ.list name s.1 }

def setThread (t : ℕ) (v : Thread) (σ : Sched) : Sched :=
  { σ with thread := Function.update σ.thread t v }

/-! ### Choosing a thread -/

/-- A round of the first loop of `sched_boost_starved_threads`. -/
def waitRound (s : ℕ × (ℕ → Thread)) (t : ℕ) : ℕ × (ℕ → Thread) :=
  let th := { s.2 t with timeSinceLastRun := u32 ((s.2 t).timeSinceLastRun + 1) }
  (if th.cls = .normal ∧ s.1 < th.timeSinceLastRun then th.timeSinceLastRun else s.1,
    Function.update s.2 t th)

/-- `thread` after a boost, where the longest wait is `maxWait`. -/
def boosted (maxWait : ℕ) (th : Thread) : Thread :=
  let boost := u32 (th.timeSinceLastRun * boostAmount) / maxWait
  let boost := if boost = 0 then 1 else boost
  if maxPriority ≤ u32 (th.effective + boost) then { th with effective := maxPriority }
  else { th with effective := u32 (th.effective + boost) }

/-- A round of the second loop. -/
def boostRound (maxWait : ℕ) (thread : ℕ → Thread) (t : ℕ) : ℕ → Thread :=
  if (thread t).cls = .normal ∧ starvationThreshold < (thread t).timeSinceLastRun then
    Function.update thread t (boosted maxWait (thread t))
  else thread

/-- `sched_boost_starved_threads`. -/
def schedBoostStarvedThreads (fuel : ℕ) (name : ListName) (σ : Sched) : Option Sched :=
  (walk σ.next fuel (σ.list name).head).map fun l =>
    let (maxWait, thread) := l.foldl waitRound (0, σ.thread)
    { σ with thread :=
        if starvationThreshold < maxWait then l.foldl (boostRound maxWait) thread else thread }

/-- What `sched_find_best_thread_iterate` has found. -/
structure Best where
  best : Option ℕ
  prevBest : Option ℕ
  prev : Option ℕ

/-- `iter` is better than the best thread up to now. -/
def Better (thread : ℕ → Thread) (iter : ℕ) : Option ℕ → Prop
  | none => True
  | some best => (thread iter).cls.rank < (thread best).cls.rank ∨
      (thread iter).cls.rank = (thread best).cls.rank ∧
        (thread best).effective < (thread iter).effective

instance (thread : ℕ → Thread) (iter : ℕ) : ∀ best, Decidable (Better thread iter best)
  | none => isTrue trivial
  | some _ => inferInstanceAs (Decidable (_ ∨ _))

/-- A round of `sched_find_best_thread_iterate`. -/
def findRound (thread : ℕ → Thread) (s : Best) (iter : ℕ) : Best :=
  if Better thread iter s.best then ⟨some iter, s.prev, some iter⟩
  else { s with prev := some iter }

/-- `sched_find_best_thread_iterate`. -/
def schedFindBestThreadIterate (fuel : ℕ) (name : ListName) (σ : Sched) : Option Best :=
  (walk σ.next fuel (σ.list name).head).map fun l =>
    l.foldl (findRound σ.thread) ⟨none, none, none⟩

/-- `sched_assign_time_slice`. -/
def schedAssignTimeSlice (t : ℕ) (σ : Sched) : Sched :=
  σ.setThread t { σ.thread t with timeSlice :=
    match (σ.thread t).cls with
    | .realtime => timesliceRealtime
    | .idle => timesliceIdle
    | .normal => if (σ.thread t).base ≠ 0 then (σ.thread t).base else timesliceNormal }

/-- `sched_select_by_time_slice`. -/
def schedSelectByTimeSlice (fuel : ℕ) (name : ListName) (σ : Sched) : Option (Option ℕ × Sched) :=
  (σ.schedFindBestThreadIterate fuel name).map fun found =>
    match found.best with
    | none => (none, σ)
    | some best =>
      (some best, (σ.onList name (schedUnlinkThread best found.prevBest)).schedAssignTimeSlice best)

/-- `sched_select_next`. -/
def schedSelectNext (fuel : ℕ) (σ : Sched) : Option (Option ℕ × Sched) :=
  (σ.schedBoostStarvedThreads fuel .readyQueue).bind (schedSelectByTimeSlice fuel .readyQueue)

/-- `sched_select_idle_if_needed`. -/
def schedSelectIdleIfNeeded (candidate : Option ℕ) (σ : Sched) : ℕ × Sched :=
  match candidate with
  | some t => (t, σ)
  | none => (σ.idleThread,
      σ.setThread σ.idleThread { σ.thread σ.idleThread with timeSlice := timesliceIdle })

/-- `sched_should_skip`. -/
def SchedShouldSkip (t : ℕ) (σ : Sched) : Prop := σ.currentThread = some t

instance (t : ℕ) (σ : Sched) : Decidable (σ.SchedShouldSkip t) := inferInstanceAs (Decidable (_ = _))

/-- `sched_prepare_thread`. -/
def schedPrepareThread (t : ℕ) (σ : Sched) : Sched :=
  σ.setThread t { σ.thread t with timeSinceLastRun := 0 }

/-- `load_pd`. -/
def loadPd (dir : ℕ) (σ : Sched) : Sched := { σ with vmm := { σ.vmm with currentPgDir := dir } }

/-- `sched_determine_and_switch`. -/
def schedDetermineAndSwitch (t : ℕ) (σ : Sched) : Option Sched :=
  let σ := { σ with currentThread := some t, currentProcess := (σ.thread t).process }
  match (σ.thread t).process with
  | some p => (σ.region p).map fun r => σ.loadPd (σ.vmm.region r).pgDir
  | none => some (σ.loadPd σ.kernelDir)

/-- `sched_schedule`, after `sched_select_next`. -/
def schedScheduleOn (candidate : Option ℕ) (σ : Sched) : Option Sched :=
  let (t, σ) := σ.schedSelectIdleIfNeeded candidate
  if σ.SchedShouldSkip t then some σ else (σ.schedPrepareThread t).schedDetermineAndSwitch t

/-- `sched_schedule`. -/
def schedSchedule (fuel : ℕ) (σ : Sched) : Option Sched :=
  (σ.schedSelectNext fuel).bind fun o => o.2.schedScheduleOn o.1

/-! ### Yielding, blocking and sleeping -/

/-- `sched_yield`, up to `sched_schedule`. -/
def schedYieldEnqueue (σ : Sched) : Option Sched :=
  match σ.currentThread with
  | some t => if t ≠ σ.idleThread then σ.onList? .readyQueue (schedEnqueue t) else some σ
  | none => some σ

/-- `sched_yield`. -/
def schedYield (fuel : ℕ) (σ : Sched) : Option Sched :=
  if σ.currentThread = none then some σ else σ.schedYieldEnqueue.bind (schedSchedule fuel)

/-- `sched_thread_exit`. -/
def schedThreadExit (fuel : ℕ) (σ : Sched) : Option Sched := σ.schedYield fuel

/-- `sched_block`, up to `sched_schedule`. -/
def schedBlockState (σ : Sched) : Sched :=
  match σ.currentThread with
  | some t => σ.setThread t { σ.thread t with threadState := .blocked }
  | none => σ

/-- `sched_block`. -/
def schedBlock (fuel : ℕ) (σ : Sched) : Option Sched :=
  if σ.currentThread = none then some σ else σ.schedBlockState.schedSchedule fuel

/-- `sched_unblock`. -/
def schedUnblock (t : ℕ) (σ : Sched) : Option Sched :=
  (σ.setThread t { σ.thread t with threadState := .ready }).onList? .readyQueue (schedEnqueue t)

/-- `sched_thread_sleep`, up to `sched_yield`. -/
def schedSleepEnqueue (ms : ℕ) (σ : Sched) : Option Sched :=
  match σ.currentThread with
  | some t => (σ.setThread t { σ.thread t with
      wakeTime := u64 (σ.ticks + ms), threadState := .sleeping }).onList? .sleepQueue (schedEnqueue t)
  | none => some σ

/-- `sched_thread_sleep`. -/
def schedThreadSleep (fuel ms : ℕ) (σ : Sched) : Option Sched :=
  if σ.currentThread = none ∨ ms = 0 then some σ
  else (σ.schedSleepEnqueue ms).bind (schedYield fuel)

/-- `sched_thread_should_wake`. -/
def SchedThreadShouldWake (t : ℕ) (σ : Sched) : Prop := (σ.thread t).wakeTime ≤ σ.ticks

instance (t : ℕ) (σ : Sched) : Decidable (σ.SchedThreadShouldWake t) :=
  inferInstanceAs (Decidable (_ ≤ _))

/-- `sched_wake_thread`. -/
def schedWakeThread (t : ℕ) (σ : Sched) : Option Sched := σ.schedUnblock t

/-- `sched_process_sleep_thread`, with the new `prev`. -/
def schedProcessSleepThread (t : ℕ) (prev : Option ℕ) (σ : Sched) : Option (Option ℕ × Sched) :=
  if σ.SchedThreadShouldWake t then
    ((σ.onList .sleepQueue (schedRemoveFromSleepQueue t prev)).schedWakeThread t).map fun σ => (prev, σ)
  else some (some t, σ)

/-- `prev ? prev->next : sched.sleep_queue.head`. -/
def tickNext (prev : Option ℕ) (σ : Sched) : Option ℕ :=
  match prev with
  | some prev => σ.next prev
  | none => (σ.list .sleepQueue).head

/-- The loop of `sched_tick`. -/
def schedTickLoop : ℕ → (prev curr : Option ℕ) → Sched → Option Sched
  | _, _, none, σ => some σ
  | 0, _, some _, _ => none
  | n + 1, prev, some t, σ => (σ.schedProcessSleepThread t prev).bind fun o =>
      schedTickLoop n o.1 (o.2.tickNext o.1) o.2

/-- `sched_tick`. -/
def schedTick (fuel : ℕ) (σ : Sched) : Option Sched :=
  let σ := { σ with ticks := u64 (σ.ticks + 1) }
  schedTickLoop fuel none (σ.list .sleepQueue).head σ

/-! ### Threads that come and go -/

/-- The thread that `sched_internal_init_thread` makes. -/
def schedInternalInitThread (priority : ℕ) (process : Option ℕ) : Thread :=
  ⟨process.isSome, .normal, priority, priority, .ready, process, 0, u32 (priority * 2), 0⟩

/-- `sched_create_user_thread`; `thread` is `none` where the thread or its stack could not be
allocated. -/
def schedCreateUserThread (process priority : ℕ) (thread : Option ℕ) (σ : Sched) :
    Option (Option ℕ × Sched) :=
  match thread with
  | none => some (none, σ)
  | some t => ((σ.setThread t (schedInternalInitThread priority (some process))).onList?
      (.threads process) (schedThreadListAdd t)).bind fun σ =>
        (σ.onList? .userThreads (schedThreadListAdd t)).map fun σ => (some t, σ)

/-- `proc_init_process_create_thread`. -/
def procInitProcessCreateThread (process priority : ℕ) (thread : Option ℕ) (σ : Sched) :
    Option (Option ℕ × Sched) :=
  (σ.schedCreateUserThread process priority thread).bind fun o =>
    match o.1 with
    | none => some o
    | some t => (o.2.onList? (.threads process) (schedThreadListAdd t)).map fun σ => (some t, σ)

/-- `sched_create_kernel_thread`, which writes to the thread before anything else. -/
def schedCreateKernelThread (priority : ℕ) (thread : Option ℕ) (σ : Sched) : Option Sched :=
  match thread with
  | none => none
  | some t => (σ.setThread t { schedInternalInitThread priority none with cls := .realtime }).onList?
      .kernelThreads (schedThreadListAdd t)

/-- The loop of `proc_terminate_all_threads`. -/
def terminateLoop (fuel : ℕ) : ℕ → Option ℕ → Sched → Option Sched
  | _, none, σ => some σ
  | 0, some _, _ => none
  | n + 1, some t, σ => (σ.onList? .readyQueue (schedRemove fuel t)).bind fun τ =>
      (τ.onList? .sleepQueue (schedRemove fuel t)).bind (terminateLoop fuel n (σ.next t))

/-- `proc_terminate_all_threads`. -/
def procTerminateAllThreads (fuel process : ℕ) (σ : Sched) : Option Sched :=
  (terminateLoop fuel fuel (σ.list (.threads process)).head σ).map fun σ =>
    { σ with
      list := Function.update σ.list (.threads process)
        { σ.list (.threads process) with head := none, tail := none } }

/-! ### Calls -/

/-- What the running thread calls, and the timer. -/
inductive SchedCall
  | schedule
  | yield
  | block
  | unblock (t : ℕ)
  | sleep (ms : ℕ)
  | exit
  | tick
  | vmmSwitch (region : Option ℕ)
  deriving DecidableEq

/-- The region that `vmm_switch` is called with, unless it is `NULL`. -/
def switchesTo : SchedCall → Option ℕ
  | .vmmSwitch region => region
  | _ => none

/-- One call. -/
def call (fuel : ℕ) (e : SchedCall) (σ : Sched) : Option Sched :=
  match e with
  | .schedule => σ.schedSchedule fuel
  | .yield => σ.schedYield fuel
  | .block => σ.schedBlock fuel
  | .unblock t => σ.schedUnblock t
  | .sleep ms => σ.schedThreadSleep fuel ms
  | .exit => σ.schedThreadExit fuel
  | .tick => σ.schedTick fuel
  | .vmmSwitch none => some σ
  | .vmmSwitch (some r) => some { σ with vmm := Flopperating.vmmSwitch r σ.vmm }

/-- The state in which a call comes to `sched_schedule`, if it does. -/
def scheduling (e : SchedCall) (σ : Sched) : Option Sched :=
  match e with
  | .schedule => some σ
  | .yield | .exit => if σ.currentThread = none then none else σ.schedYieldEnqueue
  | .block => if σ.currentThread = none then none else some σ.schedBlockState
  | .sleep ms =>
    if σ.currentThread = none ∨ ms = 0 then none else (σ.schedSleepEnqueue ms).bind schedYieldEnqueue
  | .unblock _ | .tick | .vmmSwitch _ => none

/-- The thread that `sched_select_next` returns in a call. -/
def selected (fuel : ℕ) (e : SchedCall) (σ : Sched) : Option ℕ :=
  ((σ.scheduling e).bind (schedSelectNext fuel)).bind Prod.fst

/-- The thread that `sched_schedule` goes on with in a call: that one, or the idle thread. -/
def chosen (fuel : ℕ) (e : SchedCall) (σ : Sched) : Option ℕ :=
  ((σ.scheduling e).bind (schedSelectNext fuel)).map fun o => (o.2.schedSelectIdleIfNeeded o.1).1

/-- Empty lists; the idle thread is `0`, and `1` runs. -/
def hostSched : Sched where
  next _ := none
  thread _ := ⟨false, .normal, 0, 0, .ready, none, 0, 0, 0⟩
  list _ := ⟨none, none, 0⟩
  idleThread := 0
  currentThread := some 1
  currentProcess := none
  ticks := 0
  region _ := none
  kernelDir := 0x1000
  vmm := ⟨fun _ _ => 0, 0x1000, none, [], [], fun _ => ⟨0x1000, none, 0, 0, none⟩, none,
    fun _ => ⟨⟨.kernel, 0, 0, 0, 1, none⟩, none, 0, none⟩, fun _ => ⟨0, 0, none, none⟩⟩

end Sched

end Flopperating
