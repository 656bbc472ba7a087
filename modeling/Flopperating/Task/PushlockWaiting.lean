/-
# Waiting for a pushlock

A thread that finds a pushlock taken calls `sched_block` before it gives `wait_lock` back.  While it
is blocked nobody else gets `wait_lock`, `pushlock_unlock` least of all.  And a lock that is
released with a waiter keeps `PUSHLOCK_WAITERS`, which the compare-and-exchange of
`pushlock_fast_path` does not expect: a thread that comes for it goes round and round
(`never_acquires`).

Where no thread finds the lock taken after it has got `wait_lock`, nobody waits, and the bit is never
set (`Quiet`).
-/

import Flopperating.Task.Pushlock

namespace Flopperating

open Transition

/-- The thread is on its way to wait, or about to wake one that waits. -/
def PushlockPc.Waits : PushlockPc → Prop
  | .orWaiters | .enqueue | .block | .blocked | .unblock _ => True
  | .clearOwner next | .storeState next => next ≠ none
  | _ => False

namespace PushlockRun

variable {σ σ' : PushlockRun} {t u n : ℕ} {pc : PushlockPc} {e : PushlockEvent}

/-- `n` instructions of `t`, and nobody else's. -/
def alone (n t : ℕ) (σ : PushlockRun) : Option PushlockRun :=
  (List.replicate n (PushlockEvent.step t)).foldlM (fun s e => step e s) σ

/-- Alone, `t` returns from `pushlock_lock` after at most `n` of its instructions. -/
def Acquires (n t : ℕ) (σ : PushlockRun) : Prop :=
  ∃ m ≤ n, ∃ τ, alone m t σ = some τ ∧ τ.holds t = true ∧ τ.pc t = .outside

/-- `t` is in `sched_block` and has `wait_lock`. -/
def BlockedHolding (t : ℕ) (σ : PushlockRun) : Prop :=
  σ.lock.waitLock = some t ∧ σ.pc t = .blocked ∧ (σ.sched.thread t).threadState = .blocked

/-- The state is read unlocked, where a thread reads it again with `wait_lock`. -/
def FreeAtRecheck (σ : PushlockRun) (e : PushlockEvent) : Prop :=
  ∀ t, e = .step t → σ.pc t = .loadState → σ.lock.locked = false

/-- A thread locks what it does not hold, and unlocks what it holds. -/
def InTurn (σ : PushlockRun) (e : PushlockEvent) : Prop :=
  ∀ t, (e = .lock t → σ.holds t = false) ∧ (e = .unlock t → σ.holds t = true)

/-- Nobody waits. -/
structure Quiet (σ : PushlockRun) : Prop where
  waiters : σ.lock.waiters = false
  queue : σ.lock.waitQueue.head = none
  place : ∀ t, ¬ (σ.pc t).Waits

theorem Quiet.goto (h : σ.Quiet) (hwaiters : σ'.lock.waiters = false)
    (hqueue : σ'.lock.waitQueue = σ.lock.waitQueue) (hpcs : σ'.pc = σ.pc) (hpc : ¬ pc.Waits) :
    (σ'.goto t pc).Quiet where
  waiters := hwaiters
  queue := (congrArg ThreadList.head hqueue).trans h.queue
  place u := by
    change ¬ (Function.update σ'.pc t pc u).Waits
    by_cases hut : u = t
    · subst hut
      rw [Function.update_self]
      exact hpc
    · rw [Function.update_of_ne hut, hpcs]
      exact h.place u

theorem Quiet.instruction (h : σ.Quiet) (hfree : σ.pc t = .loadState → σ.lock.locked = false)
    (hstep : σ.instruction t = some σ') : σ'.Quiet := by
  have hplace : ∀ pc, σ.pc t = pc → ¬ pc.Waits := fun _ hpc => hpc ▸ h.place t
  unfold PushlockRun.instruction at hstep
  cases hpc : σ.pc t with
  | outside => simp [hpc] at hstep
  | fastPath =>
    simp only [hpc] at hstep
    split at hstep
    · obtain rfl := Option.some.inj hstep
      exact h.goto h.waiters rfl rfl id
    · obtain rfl := Option.some.inj hstep
      exact h.goto h.waiters rfl rfl id
  | storeOwner =>
    simp only [hpc, Option.some.injEq] at hstep
    obtain rfl := hstep
    exact h.goto h.waiters rfl rfl id
  | lockWait =>
    simp only [hpc] at hstep
    split at hstep
    · exact absurd hstep (by simp)
    · obtain rfl := Option.some.inj hstep
      exact h.goto h.waiters rfl rfl id
  | loadState =>
    simp only [hpc, hfree hpc, Option.some.injEq] at hstep
    obtain rfl := hstep
    exact h.goto h.waiters rfl rfl id
  | orWaiters => exact (hplace _ hpc trivial).elim
  | enqueue => exact (hplace _ hpc trivial).elim
  | block => exact (hplace _ hpc trivial).elim
  | blocked => exact (hplace _ hpc trivial).elim
  | lockLeave =>
    simp only [hpc, Option.some.injEq] at hstep
    obtain rfl := hstep
    exact h.goto h.waiters rfl rfl id
  | checkOwner =>
    simp only [hpc] at hstep
    split at hstep
    · obtain rfl := Option.some.inj hstep
      exact h.goto h.waiters rfl rfl id
    · obtain rfl := Option.some.inj hstep
      exact h.goto h.waiters rfl rfl id
  | unlockWait =>
    simp only [hpc] at hstep
    split at hstep
    · exact absurd hstep (by simp)
    · obtain rfl := Option.some.inj hstep
      exact h.goto h.waiters rfl rfl id
  | dequeue =>
    have hempty : schedDequeue (σ.lock.waitQueue, σ.sched.next) =
        (none, (σ.lock.waitQueue, σ.sched.next)) := by
      rw [schedDequeue, h.queue]
    simp only [hpc, hempty, Option.some.injEq] at hstep
    obtain rfl := hstep
    exact h.goto h.waiters rfl rfl fun hnext => hnext rfl
  | clearOwner next =>
    simp only [hpc, Option.some.injEq] at hstep
    obtain rfl := hstep
    exact h.goto h.waiters rfl rfl fun hnext => hplace _ hpc hnext
  | storeState next =>
    simp only [hpc, Option.some.injEq] at hstep
    obtain rfl := hstep
    have hnone : next = none := not_not.1 (hplace _ hpc)
    subst hnone
    exact h.goto rfl rfl rfl id
  | unblock next => exact (hplace _ hpc trivial).elim
  | unlockLeave =>
    simp only [hpc, Option.some.injEq] at hstep
    obtain rfl := hstep
    exact h.goto h.waiters rfl rfl id

theorem Quiet.step (h : σ.Quiet) (hfree : σ.FreeAtRecheck e) (hstep : step e σ = some σ') :
    σ'.Quiet := by
  cases e with
  | lock t =>
    rw [PushlockRun.step] at hstep
    split at hstep
    · obtain rfl := Option.some.inj hstep
      exact h.goto h.waiters rfl rfl id
    · exact absurd hstep (by simp)
  | unlock t =>
    rw [PushlockRun.step] at hstep
    split at hstep
    · obtain rfl := Option.some.inj hstep
      exact h.goto h.waiters rfl rfl id
    · exact absurd hstep (by simp)
  | step t => exact h.instruction (hfree t rfl) hstep
  | other sched =>
    obtain rfl := Option.some.inj hstep
    exact ⟨h.waiters, h.queue, h.place⟩

theorem Init.quiet (h : σ.Init) : σ.Quiet where
  waiters := by rw [h.1]; rfl
  queue := by rw [h.1]; rfl
  place t := by
    rw [h.2.1 t]
    exact id

/-- A lock that nobody has and nobody waits for is got at the second instruction. -/
theorem acquires_of_quiet (h : σ.Quiet) (hlocked : σ.lock.locked = false) (hpc : σ.pc t = .fastPath) :
    σ.Acquires 2 t := by
  let τ := (σ.setLock { σ.lock with locked := true }).goto t .storeOwner
  let τ' := ((τ.setLock { τ.lock with owner := τ.process t }).setHolds t true).goto t .outside
  have hfirst : step (.step t) σ = some τ := by
    rw [PushlockRun.step, PushlockRun.instruction, hpc]
    simp [hlocked, h.waiters, τ]
  have hsecond : step (.step t) τ = some τ' := by
    have hpc : τ.pc t = .storeOwner := Function.update_self ..
    rw [PushlockRun.step, PushlockRun.instruction, hpc]
  have hrun : alone 2 t σ = some τ' :=
    foldlM_cons_eq_some.2 ⟨τ, hfirst, foldlM_cons_eq_some.2 ⟨τ', hsecond, rfl⟩⟩
  exact ⟨2, le_rfl, τ', hrun, Function.update_self .., Function.update_self ..⟩

/-- **Progress without waiters.**  In every run in which no thread finds the lock taken after it has
got `wait_lock`: a free lock is got at the second instruction of a thread that comes for it or
wakes up, and no thread blocks with `wait_lock`. -/
theorem progress (h : Reach Init (fun s e s' => FreeAtRecheck s e ∧ step e s = some s') σ) :
    (σ.lock.locked = false → σ.lock.waitLock = none → σ.pc t = .fastPath ∨ σ.pc t = .blocked →
      σ.Acquires 2 t) ∧ ¬ σ.BlockedHolding t := by
  have hquiet : σ.Quiet := h.invariant (P := Quiet) (fun s hs => hs.quiet)
    fun s e s' _ hs ⟨hfree, hstep⟩ => hs.step hfree hstep
  have hnot : σ.pc t ≠ .blocked := fun hpc => hquiet.place t (hpc ▸ trivial)
  constructor
  · intro hlocked _ hpc
    exact acquires_of_quiet hquiet hlocked (hpc.resolve_right hnot)
  · rintro ⟨-, hpc, -⟩
    exact hnot hpc

instance : Decidable (σ.FreeAtRecheck e) :=
  match e with
  | .step t => decidable_of_iff (σ.pc t = .loadState → σ.lock.locked = false)
      ⟨fun h u hu => by cases hu; exact h, fun h => h t rfl⟩
  | .lock _ | .unlock _ | .other _ => isTrue nofun

instance : Decidable (σ.InTurn e) :=
  match e with
  | .lock t => decidable_of_iff (σ.holds t = false)
      ⟨fun h u => ⟨fun hu => by cases hu; exact h, nofun⟩, fun h => (h t).1 rfl⟩
  | .unlock t => decidable_of_iff (σ.holds t = true)
      ⟨fun h u => ⟨nofun, fun hu => by cases hu; exact h⟩, fun h => (h t).2 rfl⟩
  | .step _ | .other _ => isTrue fun _ => ⟨nofun, nofun⟩

/-- Thread `1` has had the lock, and `2` comes for it. -/
def releasedRun : List PushlockEvent :=
  [.lock 1, .step 1, .step 1, .unlock 1] ++ List.replicate 6 (.step 1) ++ [.lock 2]

theorem progress_releasedRun : ∃ σ, (releasedRun.foldlM (fun s e =>
    if FreeAtRecheck s e then step e s else none) freeHost) = some σ ∧ σ.Acquires 2 2 := by
  obtain ⟨σ, hrun, hstate⟩ : ∃ σ, (releasedRun.foldlM (fun s e =>
      if FreeAtRecheck s e then step e s else none) freeHost) = some σ ∧
        (σ.lock.locked, σ.lock.waitLock, σ.pc 2) = (false, none, PushlockPc.fastPath) :=
    Option.map_eq_some_iff.1 (show Option.map (fun σ : PushlockRun =>
      (σ.lock.locked, σ.lock.waitLock, σ.pc 2)) _ = some (false, none, PushlockPc.fastPath) by decide)
  simp only [Prod.mk.injEq] at hstate
  obtain ⟨hlocked, hwait, hpc⟩ := hstate
  exact ⟨σ, hrun, (progress (Reach.of_guarded freeHost_init hrun)).1 hlocked hwait (.inl hpc)⟩

/-! ### With waiters -/

/-- Thread `2` comes for the lock while `1` has it. -/
def waitingRun : List PushlockEvent :=
  [.lock 1, .step 1, .step 1, .lock 2] ++ List.replicate 6 (.step 2)

/-- It blocks with `wait_lock`. -/
theorem blockedHolding_waitingRun : ∃ σ t, Reach Init (fun s e s' => InTurn s e ∧ step e s = some s') σ ∧
    σ.BlockedHolding t := by
  obtain ⟨σ, hrun, hstate⟩ : ∃ σ, (waitingRun.foldlM (fun s e =>
      if InTurn s e then step e s else none) freeHost) = some σ ∧
        (σ.lock.waitLock, σ.pc 2, (σ.sched.thread 2).threadState) =
          (some 2, PushlockPc.blocked, ThreadState.blocked) :=
    Option.map_eq_some_iff.1 (show Option.map (fun σ : PushlockRun =>
      (σ.lock.waitLock, σ.pc 2, (σ.sched.thread 2).threadState)) _ =
        some (some 2, PushlockPc.blocked, ThreadState.blocked) by decide)
  simp only [Prod.mk.injEq] at hstate
  obtain ⟨hwait, hpc, hblocked⟩ := hstate
  exact ⟨σ, 2, Reach.of_guarded freeHost_init hrun, hwait, hpc, hblocked⟩

/-- `t` is in the loop of `pushlock_lock`, and the lock is free but for `PUSHLOCK_WAITERS`. -/
def Spins (t : ℕ) (σ : PushlockRun) : Prop :=
  σ.lock.locked = false ∧ σ.lock.waiters = true ∧
    (σ.pc t = .fastPath ∨ σ.pc t = .lockWait ∨ σ.pc t = .loadState ∨ σ.pc t = .lockLeave)

theorem Spins.instruction (h : σ.Spins t) (hstep : σ.instruction t = some σ') : σ'.Spins t := by
  obtain ⟨hlocked, hwaiters, hpc⟩ := h
  unfold PushlockRun.instruction at hstep
  rcases hpc with hpc | hpc | hpc | hpc
  · simp only [hpc, hwaiters, or_true, if_true, Option.some.injEq] at hstep
    obtain rfl := hstep
    exact ⟨hlocked, hwaiters, .inr (.inl (Function.update_self ..))⟩
  · simp only [hpc] at hstep
    split at hstep
    · exact absurd hstep (by simp)
    · obtain rfl := Option.some.inj hstep
      exact ⟨hlocked, hwaiters, .inr (.inr (.inl (Function.update_self ..)))⟩
  · simp only [hpc, hlocked, Option.some.injEq] at hstep
    obtain rfl := hstep
    exact ⟨hlocked, hwaiters, .inr (.inr (.inr (Function.update_self ..)))⟩
  · simp only [hpc, Option.some.injEq] at hstep
    obtain rfl := hstep
    exact ⟨hlocked, hwaiters, .inl (Function.update_self ..)⟩

/-- **A lock released with a waiter is lost**: a thread that comes for it alone does not get it,
however long it runs. -/
theorem never_acquires (h : σ.Spins t) : ¬ σ.Acquires n t := by
  rintro ⟨m, -, τ, hrun, -, hpc⟩
  have hspins : τ.Spins t := by
    clear hpc
    induction m generalizing σ with
    | zero =>
      obtain rfl : σ = τ := Option.some.inj hrun
      exact h
    | succ m ih =>
      obtain ⟨ρ, hρ, hrun⟩ := foldlM_cons_eq_some.1 hrun
      exact ih (h.instruction hρ) hrun
  obtain ⟨-, -, hin⟩ := hspins
  simp [hpc] at hin

/-- Thread `2` waits while `1` has the lock, goes on, and `1` unlocks. -/
def lostRun : List PushlockEvent :=
  [.lock 1, .step 1, .step 1, .lock 2] ++ List.replicate 7 (.step 2) ++ [.unlock 1] ++
    List.replicate 7 (.step 1)

example : (lostRun.foldlM (fun s e => step e s) freeHost).map
    (fun σ => (σ.lock.locked, σ.lock.waiters, σ.lock.waitLock, σ.pc 2)) =
      some (false, true, none, .fastPath) := by decide

end PushlockRun

end Flopperating
