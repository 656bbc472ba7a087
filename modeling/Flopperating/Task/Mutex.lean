/-
# Mutual exclusion

`mutex_lock` and `mutex_unlock` of `src/task/sync/mutex.h`, each an instruction at a time, on any
number of threads: the compare-and-exchange, the stores to `owner` and `state`, and what is done
with `wait_queue` under `wait_lock` are steps of their own, and others may come between any two.

The threads in the wait queue are linked by the field that links the scheduler's queues.  So
`MutexEvent.other` lets the rest of the kernel do anything to its threads at any time, and a
thread that blocks may go on at any time: a hand-over may go to a thread that is not waiting, and
the wait queue may lose threads.  Mutual exclusion does not rest on it.  What it rests on is who
may change `owner` and `state`: only the thread that `owner` names, or, while it names nobody and
the mutex is locked, the one thread that has just taken it or is about to give it up
(`MutexToken`).
-/

import Flopperating.Data.Transition
import Flopperating.Task.Sched

namespace Flopperating

open Transition

/-- `mutex_t`. -/
structure Mutex where
  /-- `state`. -/
  locked : Bool
  owner : Option ℕ
  waitQueue : ThreadList
  /-- The thread that has `wait_lock`. -/
  waitLock : Option ℕ

/-- `mutex_init`. -/
def mutexInit : Mutex := ⟨false, none, ⟨none, none, 0⟩, none⟩

/-- What a thread does next. -/
inductive MutexPc
  /-- In neither function. -/
  | outside
  /-- `mutex_lock`: `atomic_compare_exchange_strong_explicit`. -/
  | compareExchange
  /-- `mutex->owner = owner`, and return. -/
  | storeOwner
  /-- `spinlock(&mutex->wait_lock)`. -/
  | lockWait
  /-- `atomic_load_explicit`, with `wait_lock`. -/
  | loadState
  /-- `sched_thread_list_add`, with `wait_lock`. -/
  | enqueue
  /-- `spinlock_unlock(&mutex->wait_lock)`, and block unless the state was `MUTEX_UNLOCKED`. -/
  | lockLeave (blocks : Bool)
  /-- `sched_block`. -/
  | block
  /-- `mutex_unlock`: the test of `mutex->owner`. -/
  | checkOwner
  /-- `spinlock(&mutex->wait_lock)`. -/
  | unlockWait
  /-- `sched_dequeue`, with `wait_lock`. -/
  | dequeue
  /-- `mutex->owner = next`. -/
  | handOver (next : ℕ)
  /-- `sched_unblock(next)`. -/
  | unblock (next : ℕ)
  /-- `mutex->owner = NULL`. -/
  | clearOwner
  /-- `atomic_store_explicit(&mutex->state, 0)`. -/
  | clearState
  /-- `spinlock_unlock(&mutex->wait_lock)`. -/
  | unlockLeave

structure MutexRun where
  mutex : Mutex
  sched : Sched
  pc : ℕ → MutexPc
  /-- The thread has returned from `mutex_lock` and not released the mutex since. -/
  holds : ℕ → Bool

inductive MutexEvent
  /-- `mutex_lock(mutex, t)` is called by `t`. -/
  | lock (t : ℕ)
  /-- `mutex_unlock(mutex)` is called by `t`. -/
  | unlock (t : ℕ)
  /-- The next instruction of `t`. -/
  | step (t : ℕ)
  /-- The rest of the kernel. -/
  | other (sched : Sched)

namespace MutexRun

def goto (t : ℕ) (pc : MutexPc) (σ : MutexRun) : MutexRun :=
  { σ with pc := Function.update σ.pc t pc }

def setMutex (m : Mutex) (σ : MutexRun) : MutexRun := { σ with mutex := m }

def setHolds (t : ℕ) (holds : Bool) (σ : MutexRun) : MutexRun :=
  { σ with holds := Function.update σ.holds t holds }

def setSched (sched : Sched) (σ : MutexRun) : MutexRun := { σ with sched := sched }

/-- `wait_queue` and the links, after an operation. -/
def setQueue (s : ThreadList.Linked) (σ : MutexRun) : MutexRun :=
  { σ with mutex := { σ.mutex with waitQueue := s.1 }, sched := { σ.sched with next := s.2 } }

/-- An instruction; `none` when it has to wait for `wait_lock`, or writes through `NULL`. -/
def instruction (t : ℕ) (σ : MutexRun) : Option MutexRun :=
  match σ.pc t with
  | .outside => none
  | .compareExchange =>
    if σ.mutex.locked then some (σ.goto t .lockWait)
    else some ((σ.setMutex { σ.mutex with locked := true }).goto t .storeOwner)
  | .storeOwner =>
    some (((σ.setMutex { σ.mutex with owner := some t }).setHolds t true).goto t .outside)
  | .lockWait =>
    if σ.mutex.waitLock ≠ none then none
    else some ((σ.setMutex { σ.mutex with waitLock := some t }).goto t .loadState)
  | .loadState => some (σ.goto t (if σ.mutex.locked then .enqueue else .lockLeave false))
  | .enqueue => (schedThreadListAdd t (σ.mutex.waitQueue, σ.sched.next)).map fun s =>
      (σ.setQueue s).goto t (.lockLeave true)
  | .lockLeave blocks => some ((σ.setMutex { σ.mutex with waitLock := none }).goto t
      (if blocks then .block else .compareExchange))
  | .block => some ((σ.setSched (σ.sched.setThread t
      { σ.sched.thread t with threadState := .blocked })).goto t .compareExchange)
  | .checkOwner => some (σ.goto t (if σ.mutex.owner = some t then .unlockWait else .outside))
  | .unlockWait =>
    if σ.mutex.waitLock ≠ none then none
    else some ((σ.setMutex { σ.mutex with waitLock := some t }).goto t .dequeue)
  | .dequeue =>
    let (next, s) := schedDequeue (σ.mutex.waitQueue, σ.sched.next)
    some ((σ.setQueue s).goto t (match next with
      | some next => .handOver next
      | none => .clearOwner))
  | .handOver next =>
    some (((σ.setMutex { σ.mutex with owner := some next }).setHolds t false).goto t (.unblock next))
  | .unblock next => (σ.sched.schedUnblock next).map fun sched =>
      (σ.setSched sched).goto t .unlockLeave
  | .clearOwner => some ((σ.setMutex { σ.mutex with owner := none }).goto t .clearState)
  | .clearState =>
    some (((σ.setMutex { σ.mutex with locked := false }).setHolds t false).goto t .unlockLeave)
  | .unlockLeave => some ((σ.setMutex { σ.mutex with waitLock := none }).goto t .outside)

/-- One step. -/
def step (e : MutexEvent) (σ : MutexRun) : Option MutexRun :=
  match e with
  | .lock t =>
    match σ.pc t with
    | .outside => some (σ.goto t .compareExchange)
    | _ => none
  | .unlock t =>
    match σ.pc t with
    | .outside => some (σ.goto t .checkOwner)
    | _ => none
  | .step t => σ.instruction t
  | .other sched => some (σ.setSched sched)

/-- After `mutex_init`. -/
def Init (σ : MutexRun) : Prop :=
  σ.mutex = mutexInit ∧ (∀ t, σ.pc t = .outside) ∧ ∀ t, σ.holds t = false

end MutexRun

/-! ### The token -/

/-- Who may change `owner` and `state`. -/
inductive MutexToken
  | free
  /-- The mutex was unlocked, and this thread is about to store itself as its owner. -/
  | taking (t : ℕ)
  | owned (t : ℕ)
  /-- This thread has cleared `owner` and is about to unlock the mutex. -/
  | freeing (t : ℕ)

namespace MutexToken

/-- `owner`, as the token has it. -/
def owner : MutexToken → Option ℕ
  | owned t => some t
  | free | taking _ | freeing _ => none

/-- `state`, as the token has it. -/
def locked : MutexToken → Bool
  | free => false
  | taking _ | owned _ | freeing _ => true

/-- The thread that has the token. -/
def holder : MutexToken → Option ℕ
  | free => none
  | taking t | owned t | freeing t => some t

end MutexToken

/-- The token that a thread has at some places. -/
def MutexPc.token (t : ℕ) : MutexPc → Option MutexToken
  | .storeOwner => some (.taking t)
  | .unlockWait | .dequeue | .handOver _ | .clearOwner => some (.owned t)
  | .clearState => some (.freeing t)
  | _ => none

theorem MutexPc.token_holder {t : ℕ} {pc : MutexPc} {k : MutexToken} (h : pc.token t = some k) :
    k.holder = some t := by
  cases pc <;> simp only [MutexPc.token, Option.some.injEq, reduceCtorEq] at h <;> exact h ▸ rfl

namespace MutexRun

variable {σ σ' : MutexRun} {k k' : MutexToken} {t u v : ℕ} {pc : MutexPc}

theorem setHolds_self {holds : Bool} : (σ.setHolds t holds).holds t = holds :=
  Function.update_self ..

/-- The token is `k`. -/
structure Inv (k : MutexToken) (σ : MutexRun) : Prop where
  owner : σ.mutex.owner = k.owner
  locked : σ.mutex.locked = k.locked
  /-- A thread at one of the token's places has it. -/
  place : ∀ u, ∀ k' ∈ (σ.pc u).token u, k = k'
  /-- So has a thread that holds the mutex, and it is not about to take it. -/
  holds : ∀ u, σ.holds u = true → k = .owned u ∨ k = .freeing u

theorem Inv.unique (h : σ.Inv k) (hu : σ.holds u = true) (hv : σ.holds v = true) : u = v := by
  rcases h.holds u hu with rfl | rfl
  · rcases h.holds v hv with heq | heq
    · exact MutexToken.owned.inj heq
    · exact absurd heq (by simp)
  · rcases h.holds v hv with heq | heq
    · exact absurd heq (by simp)
    · exact MutexToken.freeing.inj heq

/-- A thread that does not have the token is at none of its places. -/
theorem Inv.others (h : σ.Inv k) (hne : k.holder ≠ some u) : (σ.pc u).token u = none := by
  by_contra hsome
  obtain ⟨k', hk'⟩ := Option.ne_none_iff_exists'.1 hsome
  obtain rfl := h.place u k' hk'
  exact hne (MutexPc.token_holder hk')

/-- A step that neither moves the token nor gives up the mutex. -/
theorem Inv.goto (h : σ.Inv k) (hpc : ∀ k' ∈ pc.token t, k = k')
    (howner : σ'.mutex.owner = σ.mutex.owner) (hlocked : σ'.mutex.locked = σ.mutex.locked)
    (hpcs : σ'.pc = σ.pc) (hholds : σ'.holds = σ.holds) : (σ'.goto t pc).Inv k where
  owner := howner.trans h.owner
  locked := hlocked.trans h.locked
  place u k' hk' := by
    change k' ∈ MutexPc.token u (Function.update σ'.pc t pc u) at hk'
    by_cases hu : u = t
    · subst hu
      rw [Function.update_self] at hk'
      exact hpc k' hk'
    · rw [Function.update_of_ne hu, hpcs] at hk'
      exact h.place u k' hk'
  holds u hu := h.holds u (hholds ▸ hu)

/-- A step of the thread that has the token, or of one that finds it free, and moves it. -/
theorem Inv.pass (h : σ.Inv k) (hk : k = .free ∨ k.holder = some t) (howner : σ'.mutex.owner = k'.owner)
    (hlocked : σ'.mutex.locked = k'.locked) (hpcs : σ'.pc = σ.pc)
    (hpc : ∀ l ∈ pc.token t, k' = l) (hholds : ∀ u, u ≠ t → σ'.holds u = σ.holds u)
    (hself : σ'.holds t = true → k' = .owned t ∨ k' = .freeing t) : (σ'.goto t pc).Inv k' where
  owner := howner
  locked := hlocked
  place u l hl := by
    change l ∈ MutexPc.token u (Function.update σ'.pc t pc u) at hl
    by_cases hu : u = t
    · subst hu
      rw [Function.update_self] at hl
      exact hpc l hl
    · have hother : k.holder ≠ some u := by
        rcases hk with rfl | hk
        · exact nofun
        · rw [hk]
          exact fun heq => hu (Option.some.inj heq).symm
      rw [Function.update_of_ne hu, hpcs, h.others hother] at hl
      exact absurd hl (by simp)
  holds u hu := by
    change σ'.holds u = true at hu
    by_cases hut : u = t
    · subst hut
      exact hself hu
    · rw [hholds u hut] at hu
      rcases hk with rfl | hk
      · rcases h.holds u hu with heq | heq <;> exact absurd heq (by simp)
      · rcases h.holds u hu with rfl | rfl
        · exact absurd (Option.some.inj hk) hut
        · exact absurd (Option.some.inj hk) hut

theorem Inv.eq_free (h : σ.Inv k) (hlocked : σ.mutex.locked = false) : k = .free := by
  have := h.locked.symm.trans hlocked
  cases k with
  | free => rfl
  | taking t => exact absurd this (by simp [MutexToken.locked])
  | owned t => exact absurd this (by simp [MutexToken.locked])
  | freeing t => exact absurd this (by simp [MutexToken.locked])

/-- **One instruction** leaves the token with one thread, or free. -/
theorem Inv.instruction (h : σ.Inv k) (hstep : σ.instruction t = some σ') : ∃ k', σ'.Inv k' := by
  have hplace := h.place t
  unfold MutexRun.instruction at hstep
  cases hpc : σ.pc t with
  | outside => simp [hpc] at hstep
  | compareExchange =>
    simp only [hpc] at hstep
    split at hstep
    · obtain rfl := Option.some.inj hstep
      exact ⟨k, h.goto nofun rfl rfl rfl rfl⟩
    · next hlocked =>
      obtain rfl := Option.some.inj hstep
      obtain rfl := h.eq_free (Bool.eq_false_iff.2 hlocked)
      refine ⟨.taking t, h.pass (.inl rfl) h.owner rfl rfl (fun l hl => Option.some.inj hl)
        (fun _ _ => rfl) fun hself => ?_⟩
      rcases h.holds t hself with heq | heq <;> exact absurd heq (by simp)
  | storeOwner =>
    simp only [hpc, Option.some.injEq] at hstep
    obtain rfl := hstep
    obtain rfl := hplace (.taking t) (by rw [hpc]; rfl)
    exact ⟨.owned t, h.pass (.inr rfl) rfl h.locked rfl nofun
      (fun u hu => Function.update_of_ne hu _ _) fun _ => .inl rfl⟩
  | lockWait =>
    simp only [hpc] at hstep
    split at hstep
    · exact absurd hstep (by simp)
    · obtain rfl := Option.some.inj hstep
      exact ⟨k, h.goto nofun rfl rfl rfl rfl⟩
  | loadState =>
    simp only [hpc, Option.some.injEq] at hstep
    obtain rfl := hstep
    refine ⟨k, h.goto (fun l hl => ?_) rfl rfl rfl rfl⟩
    split at hl <;> exact absurd hl (by simp [MutexPc.token])
  | enqueue =>
    simp only [hpc] at hstep
    obtain ⟨s, -, rfl⟩ := Option.map_eq_some_iff.1 hstep
    exact ⟨k, h.goto nofun rfl rfl rfl rfl⟩
  | lockLeave blocks =>
    simp only [hpc, Option.some.injEq] at hstep
    obtain rfl := hstep
    refine ⟨k, h.goto (fun l hl => ?_) rfl rfl rfl rfl⟩
    split at hl <;> exact absurd hl (by simp [MutexPc.token])
  | block =>
    simp only [hpc, Option.some.injEq] at hstep
    obtain rfl := hstep
    exact ⟨k, h.goto nofun rfl rfl rfl rfl⟩
  | checkOwner =>
    simp only [hpc, Option.some.injEq] at hstep
    obtain rfl := hstep
    refine ⟨k, h.goto (fun l hl => ?_) rfl rfl rfl rfl⟩
    split at hl
    · next howner =>
      -- the thread that `owner` names is the one with the token
      obtain rfl : MutexToken.owned t = l := Option.some.inj hl
      rw [h.owner] at howner
      cases k <;> simp only [MutexToken.owner, reduceCtorEq, Option.some.injEq] at howner
      rw [howner]
    · exact absurd hl (by simp [MutexPc.token])
  | unlockWait =>
    simp only [hpc] at hstep
    split at hstep
    · exact absurd hstep (by simp)
    · obtain rfl := Option.some.inj hstep
      obtain rfl := hplace (.owned t) (by rw [hpc]; rfl)
      exact ⟨_, h.goto (fun l hl => Option.some.inj hl) rfl rfl rfl rfl⟩
  | dequeue =>
    simp only [hpc, Option.some.injEq] at hstep
    obtain rfl := hstep
    obtain rfl := hplace (.owned t) (by rw [hpc]; rfl)
    refine ⟨_, h.goto (fun l hl => ?_) rfl rfl rfl rfl⟩
    split at hl <;> exact Option.some.inj hl
  | handOver next =>
    simp only [hpc, Option.some.injEq] at hstep
    obtain rfl := hstep
    obtain rfl := hplace (.owned t) (by rw [hpc]; rfl)
    refine ⟨.owned next, h.pass (.inr rfl) rfl h.locked rfl nofun
      (fun u hu => Function.update_of_ne hu _ _) fun hself => ?_⟩
    exact absurd (setHolds_self.symm.trans hself) (by simp)
  | unblock next =>
    simp only [hpc] at hstep
    obtain ⟨sched, -, rfl⟩ := Option.map_eq_some_iff.1 hstep
    exact ⟨k, h.goto nofun rfl rfl rfl rfl⟩
  | clearOwner =>
    simp only [hpc, Option.some.injEq] at hstep
    obtain rfl := hstep
    obtain rfl := hplace (.owned t) (by rw [hpc]; rfl)
    exact ⟨.freeing t, h.pass (.inr rfl) rfl h.locked rfl (fun l hl => Option.some.inj hl)
      (fun _ _ => rfl) fun _ => .inr rfl⟩
  | clearState =>
    simp only [hpc, Option.some.injEq] at hstep
    obtain rfl := hstep
    obtain rfl := hplace (.freeing t) (by rw [hpc]; rfl)
    refine ⟨.free, h.pass (.inr rfl) h.owner rfl rfl nofun
      (fun u hu => Function.update_of_ne hu _ _) fun hself => ?_⟩
    exact absurd (setHolds_self.symm.trans hself) (by simp)
  | unlockLeave =>
    simp only [hpc, Option.some.injEq] at hstep
    obtain rfl := hstep
    exact ⟨k, h.goto nofun rfl rfl rfl rfl⟩

theorem Inv.step {e : MutexEvent} (h : σ.Inv k) (hstep : step e σ = some σ') : ∃ k', σ'.Inv k' := by
  cases e with
  | lock t =>
    rw [MutexRun.step] at hstep
    split at hstep
    · obtain rfl := Option.some.inj hstep
      exact ⟨k, h.goto nofun rfl rfl rfl rfl⟩
    · exact absurd hstep (by simp)
  | unlock t =>
    rw [MutexRun.step] at hstep
    split at hstep
    · obtain rfl := Option.some.inj hstep
      exact ⟨k, h.goto nofun rfl rfl rfl rfl⟩
    · exact absurd hstep (by simp)
  | step t => exact h.instruction hstep
  | other sched =>
    obtain rfl := Option.some.inj hstep
    exact ⟨k, h.owner, h.locked, h.place, h.holds⟩

theorem Init.inv (h : σ.Init) : σ.Inv .free where
  owner := by rw [h.1]; rfl
  locked := by rw [h.1]; rfl
  place u l hl := by
    rw [h.2.1 u] at hl
    exact absurd hl (by simp [MutexPc.token])
  holds u hu := absurd ((h.2.2 u).symm.trans hu) (by simp)

/-- **Mutual exclusion.**  Whatever threads call `mutex_lock` and `mutex_unlock`, in any order,
and whatever steps come between theirs, no two have returned from `mutex_lock` and not released
the mutex since. -/
theorem mutual_exclusion (h : Reach Init (fun s e s' => step e s = some s') σ)
    (hu : σ.holds u = true) (hv : σ.holds v = true) : u = v := by
  have hinv : ∃ k, Inv k σ :=
    h.invariant (P := fun s => ∃ k, Inv k s) (fun s hs => ⟨.free, hs.inv⟩)
      fun s e s' _ ⟨k, hk⟩ hstep => hk.step hstep
  obtain ⟨k, hk⟩ := hinv
  exact hk.unique hu hv

def unlockedHost : MutexRun := ⟨mutexInit, Sched.hostSched, fun _ => .outside, fun _ => false⟩

/-- Thread `1` takes the mutex, hands it to `2`, which waits for it, and tries to unlock it once
more. -/
def handOverRun : List MutexEvent :=
  [.lock 1, .step 1, .step 1, .lock 2, .step 2, .step 2, .step 2, .step 2, .step 2, .step 2,
    .unlock 1, .step 1, .step 1, .step 1, .step 1, .step 1, .step 1, .unlock 1, .step 1, .step 2]

-- after the hand-over `owner` names `2`, whose compare-and-exchange fails, and nobody holds it
example : (handOverRun.foldlM (fun s e => step e s) unlockedHost).map
    (fun σ => (σ.mutex.owner, σ.mutex.locked, σ.holds 1, σ.holds 2)) =
      some (some 2, true, false, false) := by decide

theorem mutual_exclusion_unlockedHost : ∃ σ, (handOverRun.take 9).foldlM (fun s e => step e s)
    unlockedHost = some σ ∧ σ.holds 1 = true ∧ ∀ u, σ.holds u = true → u = 1 := by
  obtain ⟨σ, hrun, hheld⟩ : ∃ σ, (handOverRun.take 9).foldlM (fun s e => step e s) unlockedHost =
      some σ ∧ σ.holds 1 = true :=
    Option.map_eq_some_iff.1 (show Option.map (fun σ : MutexRun => σ.holds 1) _ = some true by decide)
  have hstart : Reach Init (fun s e s' => step e s = some s') unlockedHost :=
    .init ⟨rfl, fun _ => rfl, fun _ => rfl⟩
  exact ⟨σ, hrun, hheld, fun u hu => mutual_exclusion (hstart.of_foldlM hrun) hu hheld⟩

end MutexRun

end Flopperating
