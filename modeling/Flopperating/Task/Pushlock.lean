/-
# Pushlocks

`pushlock_lock` and `pushlock_unlock` of `src/task/sync/pushlock.h`, an instruction at a time, on
any number of threads, as `Flopperating.Task.Mutex` has the mutex.  A thread passes its own process
as the owner, and a kernel thread has none.  What keeps two threads out is then not the owner, which
is a process: it is that a thread that does not hold the lock does not get past the test of
`pushlock_unlock` (`Rightful`), and the code has nothing that sees to it.
-/

import Flopperating.Data.Transition
import Flopperating.Task.Sched

namespace Flopperating

open Transition

/-- `pushlock_t`. -/
structure Pushlock where
  /-- `PUSHLOCK_LOCKED` in `state`. -/
  locked : Bool
  /-- `PUSHLOCK_WAITERS` in `state`. -/
  waiters : Bool
  owner : Option ℕ
  waitQueue : ThreadList
  /-- The thread that has `wait_lock`. -/
  waitLock : Option ℕ

/-- `pushlock_init`. -/
def pushlockInit : Pushlock := ⟨false, false, none, ⟨none, none, 0⟩, none⟩

/-- What a thread does next. -/
inductive PushlockPc
  /-- In neither function. -/
  | outside
  /-- `pushlock_fast_path`: `atomic_compare_exchange_strong_explicit`. -/
  | fastPath
  /-- `pl->owner = owner`, and return. -/
  | storeOwner
  /-- `spinlock(&pl->wait_lock)`. -/
  | lockWait
  /-- `atomic_load_explicit`, with `wait_lock`. -/
  | loadState
  /-- `atomic_fetch_or_explicit`, with `wait_lock`. -/
  | orWaiters
  /-- `sched_thread_list_add`, with `wait_lock`. -/
  | enqueue
  /-- `sched_block`, with `wait_lock`. -/
  | block
  /-- In `sched_block`, with `wait_lock`; `spinlock_unlock(&pl->wait_lock)` when it returns. -/
  | blocked
  /-- `spinlock_unlock(&pl->wait_lock)`, where the lock was not taken any more. -/
  | lockLeave
  /-- `pushlock_unlock`: the test of `pl->owner`. -/
  | checkOwner
  /-- `spinlock(&pl->wait_lock)`. -/
  | unlockWait
  /-- `sched_dequeue`, with `wait_lock`. -/
  | dequeue
  /-- `pl->owner = NULL`. -/
  | clearOwner (next : Option ℕ)
  /-- `atomic_store_explicit(&pl->state, ..)`. -/
  | storeState (next : Option ℕ)
  /-- `sched_unblock(next)`. -/
  | unblock (next : ℕ)
  /-- `spinlock_unlock(&pl->wait_lock)`. -/
  | unlockLeave
  deriving DecidableEq

/-- The thread has taken the lock and not stored the owner, or passed the test of `pushlock_unlock`
and not given the lock up. -/
def PushlockPc.Inside : PushlockPc → Prop
  | .storeOwner | .unlockWait | .dequeue | .clearOwner _ | .storeState _ => True
  | _ => False

structure PushlockRun where
  lock : Pushlock
  sched : Sched
  /-- `thread->process`, which nothing changes. -/
  process : ℕ → Option ℕ
  pc : ℕ → PushlockPc
  /-- The thread has returned from `pushlock_lock` and not unlocked since. -/
  holds : ℕ → Bool

inductive PushlockEvent
  /-- `pushlock_lock(pl, t->process)` is called by `t`. -/
  | lock (t : ℕ)
  /-- `pushlock_unlock(pl)` is called by `t`. -/
  | unlock (t : ℕ)
  /-- The next instruction of `t`. -/
  | step (t : ℕ)
  /-- The rest of the kernel. -/
  | other (sched : Sched)

namespace PushlockRun

def goto (t : ℕ) (pc : PushlockPc) (σ : PushlockRun) : PushlockRun :=
  { σ with pc := Function.update σ.pc t pc }

def setLock (l : Pushlock) (σ : PushlockRun) : PushlockRun := { σ with lock := l }

def setHolds (t : ℕ) (holds : Bool) (σ : PushlockRun) : PushlockRun :=
  { σ with holds := Function.update σ.holds t holds }

def setSched (sched : Sched) (σ : PushlockRun) : PushlockRun := { σ with sched := sched }

/-- `wait_queue` and the links, after an operation. -/
def setQueue (s : ThreadList.Linked) (σ : PushlockRun) : PushlockRun :=
  { σ with lock := { σ.lock with waitQueue := s.1 }, sched := { σ.sched with next := s.2 } }

/-- An instruction; `none` when it has to wait for `wait_lock`, or writes through `NULL`. -/
def instruction (t : ℕ) (σ : PushlockRun) : Option PushlockRun :=
  match σ.pc t with
  | .outside => none
  | .fastPath =>
    if σ.lock.locked ∨ σ.lock.waiters then some (σ.goto t .lockWait)
    else some ((σ.setLock { σ.lock with locked := true }).goto t .storeOwner)
  | .storeOwner =>
    some (((σ.setLock { σ.lock with owner := σ.process t }).setHolds t true).goto t .outside)
  | .lockWait =>
    if σ.lock.waitLock ≠ none then none
    else some ((σ.setLock { σ.lock with waitLock := some t }).goto t .loadState)
  | .loadState => some (σ.goto t (if σ.lock.locked then .orWaiters else .lockLeave))
  | .orWaiters => some ((σ.setLock { σ.lock with waiters := true }).goto t .enqueue)
  | .enqueue => (schedThreadListAdd t (σ.lock.waitQueue, σ.sched.next)).map fun s =>
      (σ.setQueue s).goto t .block
  | .block => some ((σ.setSched (σ.sched.setThread t
      { σ.sched.thread t with threadState := .blocked })).goto t .blocked)
  | .blocked | .lockLeave => some ((σ.setLock { σ.lock with waitLock := none }).goto t .fastPath)
  | .checkOwner =>
    if σ.lock.owner ≠ σ.process t then some ((σ.setHolds t false).goto t .outside)
    else some (σ.goto t .unlockWait)
  | .unlockWait =>
    if σ.lock.waitLock ≠ none then none
    else some ((σ.setLock { σ.lock with waitLock := some t }).goto t .dequeue)
  | .dequeue =>
    let (next, s) := schedDequeue (σ.lock.waitQueue, σ.sched.next)
    some ((σ.setQueue s).goto t (.clearOwner next))
  | .clearOwner next => some ((σ.setLock { σ.lock with owner := none }).goto t (.storeState next))
  | .storeState next =>
    some (((σ.setLock { σ.lock with locked := false, waiters := next.isSome }).setHolds t false).goto t
      (match next with
        | some next => .unblock next
        | none => .unlockLeave))
  | .unblock next => (σ.sched.schedUnblock next).map fun sched =>
      (σ.setSched sched).goto t .unlockLeave
  | .unlockLeave => some ((σ.setLock { σ.lock with waitLock := none }).goto t .outside)

/-- One step. -/
def step (e : PushlockEvent) (σ : PushlockRun) : Option PushlockRun :=
  match e with
  | .lock t =>
    match σ.pc t with
    | .outside => some (σ.goto t .fastPath)
    | _ => none
  | .unlock t =>
    match σ.pc t with
    | .outside => some (σ.goto t .checkOwner)
    | _ => none
  | .step t => σ.instruction t
  | .other sched => some (σ.setSched sched)

/-- After `pushlock_init`. -/
def Init (σ : PushlockRun) : Prop :=
  σ.lock = pushlockInit ∧ (∀ t, σ.pc t = .outside) ∧ ∀ t, σ.holds t = false

variable {σ σ' : PushlockRun} {k : Option ℕ} {t u : ℕ} {pc : PushlockPc} {e : PushlockEvent}

/-! ### Exclusion -/

/-- The lock is with thread `k`, or free. -/
structure Inv (k : Option ℕ) (σ : PushlockRun) : Prop where
  locked : σ.lock.locked = k.isSome
  place : ∀ u, (σ.pc u).Inside → k = some u
  holds : ∀ u, σ.holds u = true → k = some u

/-- A step of `t` that leaves the lock with whom it is. -/
theorem Inv.goto (h : σ.Inv k) (hlocked : σ'.lock.locked = σ.lock.locked) (hpcs : σ'.pc = σ.pc)
    (hpc : pc.Inside → k = some t) (hholds : ∀ u, σ'.holds u = true → k = some u) :
    (σ'.goto t pc).Inv k where
  locked := hlocked.trans h.locked
  place u hu := by
    change (Function.update σ'.pc t pc u).Inside at hu
    by_cases hut : u = t
    · subst hut
      rw [Function.update_self] at hu
      exact hpc hu
    · rw [Function.update_of_ne hut, hpcs] at hu
      exact h.place u hu
  holds := hholds

/-- A step of the thread with the lock, or of one that finds it free, that moves it. -/
theorem Inv.pass {k' : Option ℕ} (h : σ.Inv k) (hk : k = none ∨ k = some t)
    (hlocked : σ'.lock.locked = k'.isSome) (hpcs : σ'.pc = σ.pc) (hpc : pc.Inside → k' = some t)
    (hholds : ∀ u, u ≠ t → σ'.holds u = σ.holds u) (hself : σ'.holds t = true → k' = some t) :
    (σ'.goto t pc).Inv k' := by
  have hother : ∀ u, u ≠ t → k ≠ some u := by
    rintro u hu rfl
    rcases hk with hk | hk
    · exact absurd hk (by simp)
    · exact hu (Option.some.inj hk)
  refine ⟨hlocked, fun u hu => ?_, fun u hu => ?_⟩
  · change (Function.update σ'.pc t pc u).Inside at hu
    by_cases hut : u = t
    · subst hut
      rw [Function.update_self] at hu
      exact hpc hu
    · rw [Function.update_of_ne hut, hpcs] at hu
      exact absurd (h.place u hu) (hother u hut)
  · change σ'.holds u = true at hu
    by_cases hut : u = t
    · subst hut
      exact hself hu
    · rw [hholds u hut] at hu
      exact absurd (h.holds u hu) (hother u hut)

theorem holds_of_setHolds (h : (σ.setHolds t false).holds u = true) : σ.holds u = true := by
  by_cases hut : u = t
  · subst hut
    exact absurd ((Function.update_self ..).symm.trans h) (by simp)
  · exact (Function.update_of_ne hut _ _).symm.trans h

theorem Inv.instruction (h : σ.Inv k)
    (hright : σ.pc t = .checkOwner → σ.holds t = false → σ.lock.owner ≠ σ.process t)
    (hstep : σ.instruction t = some σ') : ∃ k', σ'.Inv k' := by
  have hplace := h.place t
  unfold PushlockRun.instruction at hstep
  cases hpc : σ.pc t with
  | outside => simp [hpc] at hstep
  | fastPath =>
    simp only [hpc] at hstep
    split at hstep
    · obtain rfl := Option.some.inj hstep
      exact ⟨k, h.goto rfl rfl (fun hin => hin.elim) h.holds⟩
    · next hfree =>
      obtain rfl := Option.some.inj hstep
      obtain ⟨hfree, -⟩ := not_or.1 hfree
      have hnone : k = none := by
        rw [Bool.not_eq_true, h.locked] at hfree
        exact Option.isNone_iff_eq_none.1 (Option.isSome_eq_false_iff.1 hfree)
      refine ⟨some t, h.pass (.inl hnone) rfl rfl (fun _ => rfl) (fun _ _ => rfl) fun hself => ?_⟩
      exact absurd (hnone.symm.trans (h.holds t hself)) (by simp)
  | storeOwner =>
    simp only [hpc, Option.some.injEq] at hstep
    obtain rfl := hstep
    have hk : k = some t := hplace (hpc ▸ trivial)
    refine ⟨some t, h.pass (.inr hk) (h.locked.trans (by rw [hk])) rfl (fun hin => hin.elim)
      (fun u hu => Function.update_of_ne hu _ _) fun _ => rfl⟩
  | lockWait =>
    simp only [hpc] at hstep
    split at hstep
    · exact absurd hstep (by simp)
    · obtain rfl := Option.some.inj hstep
      exact ⟨k, h.goto rfl rfl (fun hin => hin.elim) h.holds⟩
  | loadState =>
    simp only [hpc, Option.some.injEq] at hstep
    obtain rfl := hstep
    refine ⟨k, h.goto rfl rfl (fun hin => ?_) h.holds⟩
    split at hin <;> exact hin.elim
  | orWaiters =>
    simp only [hpc, Option.some.injEq] at hstep
    obtain rfl := hstep
    exact ⟨k, h.goto rfl rfl (fun hin => hin.elim) h.holds⟩
  | enqueue =>
    simp only [hpc] at hstep
    obtain ⟨s, -, rfl⟩ := Option.map_eq_some_iff.1 hstep
    exact ⟨k, h.goto rfl rfl (fun hin => hin.elim) h.holds⟩
  | block =>
    simp only [hpc, Option.some.injEq] at hstep
    obtain rfl := hstep
    exact ⟨k, h.goto rfl rfl (fun hin => hin.elim) h.holds⟩
  | blocked =>
    simp only [hpc, Option.some.injEq] at hstep
    obtain rfl := hstep
    exact ⟨k, h.goto rfl rfl (fun hin => hin.elim) h.holds⟩
  | lockLeave =>
    simp only [hpc, Option.some.injEq] at hstep
    obtain rfl := hstep
    exact ⟨k, h.goto rfl rfl (fun hin => hin.elim) h.holds⟩
  | checkOwner =>
    simp only [hpc] at hstep
    split at hstep
    · obtain rfl := Option.some.inj hstep
      exact ⟨k, h.goto rfl rfl (fun hin => hin.elim) fun u hu => h.holds u (holds_of_setHolds hu)⟩
    · next howner =>
      obtain rfl := Option.some.inj hstep
      -- who passes the test is who holds the lock
      have hheld : σ.holds t = true := by
        by_contra hnot
        exact howner (hright hpc (Bool.eq_false_iff.2 hnot))
      exact ⟨k, h.goto rfl rfl (fun _ => h.holds t hheld) h.holds⟩
  | unlockWait =>
    simp only [hpc] at hstep
    split at hstep
    · exact absurd hstep (by simp)
    · obtain rfl := Option.some.inj hstep
      exact ⟨k, h.goto rfl rfl (fun _ => hplace (hpc ▸ trivial)) h.holds⟩
  | dequeue =>
    simp only [hpc, Option.some.injEq] at hstep
    obtain rfl := hstep
    exact ⟨k, h.goto rfl rfl (fun _ => hplace (hpc ▸ trivial)) h.holds⟩
  | clearOwner next =>
    simp only [hpc, Option.some.injEq] at hstep
    obtain rfl := hstep
    exact ⟨k, h.goto rfl rfl (fun _ => hplace (hpc ▸ trivial)) h.holds⟩
  | storeState next =>
    simp only [hpc, Option.some.injEq] at hstep
    obtain rfl := hstep
    refine ⟨none, h.pass (.inr (hplace (hpc ▸ trivial))) rfl rfl (fun hin => ?_)
      (fun u hu => Function.update_of_ne hu _ _) fun hself => ?_⟩
    · split at hin <;> exact hin.elim
    · exact absurd ((Function.update_self ..).symm.trans hself) (by simp)
  | unblock next =>
    simp only [hpc] at hstep
    obtain ⟨sched, -, rfl⟩ := Option.map_eq_some_iff.1 hstep
    exact ⟨k, h.goto rfl rfl (fun hin => hin.elim) h.holds⟩
  | unlockLeave =>
    simp only [hpc, Option.some.injEq] at hstep
    obtain rfl := hstep
    exact ⟨k, h.goto rfl rfl (fun hin => hin.elim) h.holds⟩

/-- Where a thread that does not hold the lock comes to the test of `pushlock_unlock`, the owner is
not its process. -/
def Rightful (σ : PushlockRun) (e : PushlockEvent) : Prop :=
  ∀ t, e = .step t → σ.pc t = .checkOwner → σ.holds t = false → σ.lock.owner ≠ σ.process t

theorem Inv.step (h : σ.Inv k) (hright : σ.Rightful e) (hstep : step e σ = some σ') :
    ∃ k', σ'.Inv k' := by
  cases e with
  | lock t =>
    rw [PushlockRun.step] at hstep
    split at hstep
    · obtain rfl := Option.some.inj hstep
      exact ⟨k, h.goto rfl rfl (fun hin => hin.elim) h.holds⟩
    · exact absurd hstep (by simp)
  | unlock t =>
    rw [PushlockRun.step] at hstep
    split at hstep
    · obtain rfl := Option.some.inj hstep
      exact ⟨k, h.goto rfl rfl (fun hin => hin.elim) h.holds⟩
    · exact absurd hstep (by simp)
  | step t => exact h.instruction (hright t rfl) hstep
  | other sched =>
    obtain rfl := Option.some.inj hstep
    exact ⟨k, h.locked, h.place, h.holds⟩

theorem Init.inv (h : σ.Init) : σ.Inv none where
  locked := by rw [h.1]; rfl
  place u hu := by
    rw [h.2.1 u] at hu
    exact hu.elim
  holds u hu := absurd ((h.2.2 u).symm.trans hu) (by simp)

/-- At most one thread has returned from `pushlock_lock` and not unlocked since. -/
def Exclusive (σ : PushlockRun) : Prop :=
  ∀ u v, σ.holds u = true → σ.holds v = true → u = v

/-- What the step leads to is exclusive, and a `pushlock_unlock` of a thread that does not hold the
lock returns at its test, with nothing changed. -/
def Excludes (σ : PushlockRun) (e : PushlockEvent) : Prop :=
  ∀ σ', step e σ = some σ' → σ'.Exclusive ∧
    ∀ t, e = .step t → σ.pc t = .checkOwner → σ.holds t = false → σ' = σ.goto t .outside

theorem excludes_iff (h : σ.Inv k) (hstep : step e σ = some σ') :
    σ.Excludes e ↔ σ.Rightful e := by
  constructor
  · rintro hexcludes t rfl hpc hheld howner
    -- past the test the thread is not outside
    have hout := (hexcludes σ' hstep).2 t rfl hpc hheld
    have hin : instruction t σ = some σ' := hstep
    rw [instruction, hpc] at hin
    simp only [howner, ne_eq, not_true_eq_false, if_false, Option.some.injEq] at hin
    have := congrFun (congrArg PushlockRun.pc (hin.trans hout)) t
    simp [goto] at this
  · intro hright τ hτ
    obtain ⟨k', hk'⟩ := h.step hright hτ
    refine ⟨fun u v hu hv => Option.some.inj ((hk'.holds u hu).symm.trans (hk'.holds v hv)), ?_⟩
    rintro t rfl hpc hheld
    have hin : instruction t σ = some τ := hτ
    rw [instruction, hpc] at hin
    simp only [hright t rfl hpc hheld, ne_eq, not_false_eq_true, if_true, Option.some.injEq] at hin
    rw [← hin, setHolds, Function.update_eq_self_iff.2 hheld.symm]

/-- **Exclusion.**  Along a run there is at most one thread with the lock, and a `pushlock_unlock`
of a thread without it changes nothing, if and only if no such call finds its own process as the
owner. -/
theorem exclusion_iff {ops : List PushlockEvent} (hinit : σ.Init)
    (hrun : ops.foldlM (fun s e => step e s) σ = some σ') :
    EveryStep step Excludes σ ops ↔ EveryStep step Rightful σ ops :=
  everyStep_congr_of (P := fun s => ∃ k, Inv k s) hrun ⟨none, hinit.inv⟩
    fun _ _ _ ⟨_, hk⟩ hstep => ⟨excludes_iff hk hstep, fun hright => hk.step hright hstep⟩

instance : Decidable (σ.Rightful e) :=
  match e with
  | .step t => decidable_of_iff
      (σ.pc t = .checkOwner → σ.holds t = false → σ.lock.owner ≠ σ.process t)
      ⟨fun h u hu => by cases hu; exact h, fun h => h t rfl⟩
  | .lock _ | .unlock _ | .other _ => isTrue nofun

/-- A free lock; even threads are the kernel's, odd ones of process `7`. -/
def freeHost : PushlockRun :=
  ⟨pushlockInit, Sched.hostSched, fun t => if t % 2 = 0 then none else some 7, fun _ => .outside,
    fun _ => false⟩

theorem freeHost_init : freeHost.Init := ⟨rfl, fun _ => rfl, fun _ => rfl⟩

/-- Thread `1` takes the lock, thread `2` tries to unlock it, `1` unlocks it, and `2` takes it. -/
def honestRun : List PushlockEvent :=
  [.lock 1, .step 1, .step 1, .unlock 2, .step 2, .unlock 1] ++ List.replicate 6 (.step 1) ++
    [.lock 2, .step 2, .step 2]

theorem exclusion_honestRun : EveryStep step Excludes freeHost honestRun := by
  obtain ⟨σ, hrun, -⟩ : ∃ σ, honestRun.foldlM (fun s e => step e s) freeHost = some σ ∧
      σ.holds 2 = true :=
    Option.map_eq_some_iff.1 (show Option.map (fun σ : PushlockRun => σ.holds 2) _ = some true by decide)
  exact (exclusion_iff freeHost_init hrun).2 (by decide)

/-- Thread `3` unlocks what `1`, of the same process, has locked, and takes it. -/
def sharedRun : List PushlockEvent :=
  [.lock 1, .step 1, .step 1, .unlock 3] ++ List.replicate 6 (.step 3) ++ [.lock 3, .step 3, .step 3]

theorem two_holders : ∃ σ, sharedRun.foldlM (fun s e => step e s) freeHost = some σ ∧
    ¬ σ.Exclusive := by
  obtain ⟨σ, hrun, hheld⟩ : ∃ σ, sharedRun.foldlM (fun s e => step e s) freeHost = some σ ∧
      (σ.holds 1, σ.holds 3) = (true, true) :=
    Option.map_eq_some_iff.1 (show Option.map (fun σ : PushlockRun => (σ.holds 1, σ.holds 3)) _ =
      some (true, true) by decide)
  obtain ⟨h₁, h₃⟩ := Prod.mk.inj hheld
  exact ⟨σ, hrun, fun hone => absurd (hone 1 3 h₁ h₃) (by simp)⟩

end PushlockRun

end Flopperating
