/-
# The hand-over of a mutex

When `mutex_unlock` finds a thread in the wait queue it makes it the owner, leaves the mutex
locked, and wakes it.  The woken thread goes back to the compare-and-exchange of `mutex_lock`,
which wants the mutex unlocked.  So it fails, and the thread waits for a mutex that names it as its
owner; since only the owner gives a mutex up, it waits for good, and so does everyone else
(`stuck_forever`).

Where no call of `mutex_unlock` finds a waiter, no thread owns the mutex before it has returned
from `mutex_lock` (`Settled`).
-/

import Flopperating.Task.Mutex

namespace Flopperating

open Transition LinkedList

deriving instance DecidableEq for MutexPc

/-- The thread is in `mutex_lock`. -/
def MutexPc.InLock : MutexPc → Prop
  | .compareExchange | .storeOwner | .lockWait | .loadState | .enqueue | .lockLeave _ | .block => True
  | _ => False

/-- What a thread at a place tells of whether it holds the mutex, where nothing is handed over. -/
def MutexPc.Fits (holds : Bool) : MutexPc → Prop
  | .handOver _ => False
  | pc => pc.InLock → holds = false

namespace MutexRun

variable {σ σ' : MutexRun} {k : MutexToken} {t : ℕ} {e : MutexEvent}

/-- `t` is linked into `wait_queue`. -/
def Queued (t : ℕ) (σ : MutexRun) : Prop :=
  ∃ fuel l, walk σ.sched.next fuel σ.mutex.waitQueue.head = some l ∧ t ∈ l

/-- The mutex is locked, and its owner is a thread that is still in `mutex_lock` and blocked, or
in the wait queue. -/
def Stranded (t : ℕ) (σ : MutexRun) : Prop :=
  σ.mutex.locked = true ∧ σ.mutex.owner = some t ∧ (σ.pc t).InLock ∧
    ((σ.sched.thread t).threadState = .blocked ∨ σ.Queued t)

/-- A thread that holds the mutex does not call `mutex_lock`. -/
def LocksOnce (σ : MutexRun) (e : MutexEvent) : Prop :=
  ∀ t, e = .lock t → σ.holds t = false

/-- `sched_dequeue`, where `mutex_unlock` calls it, finds the wait queue empty. -/
def FindsNoWaiter (σ : MutexRun) (e : MutexEvent) : Prop :=
  ∀ t, e = .step t → σ.pc t = .dequeue → σ.mutex.waitQueue.head = none

/-! ### Without waiters -/

/-- The owner holds the mutex, and no thread that does is in `mutex_lock`. -/
structure Settled (σ : MutexRun) : Prop where
  owner : ∀ t, σ.mutex.owner = some t → σ.holds t = true
  place : ∀ t, (σ.pc t).Fits (σ.holds t)

/-- A step of `t` alone. -/
theorem Settled.goto {pc : MutexPc} (h : σ.Settled) (hpcs : σ'.pc = σ.pc)
    (hothers : ∀ u, u ≠ t → σ'.holds u = σ.holds u) (hfits : pc.Fits (σ'.holds t))
    (howner : ∀ u, σ'.mutex.owner = some u → σ'.holds u = true) : (σ'.goto t pc).Settled where
  owner := howner
  place u := by
    change (Function.update σ'.pc t pc u).Fits (σ'.holds u)
    by_cases hu : u = t
    · subst hu
      rw [Function.update_self]
      exact hfits
    · rw [Function.update_of_ne hu, hpcs, hothers u hu]
      exact h.place u

theorem Settled.instruction (h : σ.Settled) (hinv : σ.Inv k)
    (hqueue : σ.pc t = .dequeue → σ.mutex.waitQueue.head = none)
    (hstep : σ.instruction t = some σ') : σ'.Settled := by
  have hplace := h.place t
  have hsame : ∀ u, u ≠ t → σ.holds u = σ.holds u := fun _ _ => rfl
  unfold MutexRun.instruction at hstep
  cases hpc : σ.pc t with
  | outside => simp [hpc] at hstep
  | compareExchange =>
    rw [hpc] at hplace
    simp only [hpc] at hstep
    split at hstep
    · obtain rfl := Option.some.inj hstep
      exact h.goto rfl hsame hplace h.owner
    · obtain rfl := Option.some.inj hstep
      exact h.goto rfl hsame hplace h.owner
  | storeOwner =>
    simp only [hpc, Option.some.injEq] at hstep
    obtain rfl := hstep
    refine h.goto rfl (fun u hu => Function.update_of_ne hu _ _) (fun hin => hin.elim) fun u hu => ?_
    obtain rfl : t = u := Option.some.inj hu
    exact setHolds_self
  | lockWait =>
    rw [hpc] at hplace
    simp only [hpc] at hstep
    split at hstep
    · exact absurd hstep (by simp)
    · obtain rfl := Option.some.inj hstep
      exact h.goto rfl hsame hplace h.owner
  | loadState =>
    rw [hpc] at hplace
    simp only [hpc, Option.some.injEq] at hstep
    obtain rfl := hstep
    refine h.goto rfl hsame ?_ h.owner
    split
    · exact hplace
    · exact hplace
  | enqueue =>
    rw [hpc] at hplace
    simp only [hpc] at hstep
    obtain ⟨s, -, rfl⟩ := Option.map_eq_some_iff.1 hstep
    exact h.goto rfl hsame hplace h.owner
  | lockLeave blocks =>
    rw [hpc] at hplace
    simp only [hpc, Option.some.injEq] at hstep
    obtain rfl := hstep
    refine h.goto rfl hsame ?_ h.owner
    split
    · exact hplace
    · exact hplace
  | block =>
    rw [hpc] at hplace
    simp only [hpc, Option.some.injEq] at hstep
    obtain rfl := hstep
    exact h.goto rfl hsame hplace h.owner
  | checkOwner =>
    simp only [hpc, Option.some.injEq] at hstep
    obtain rfl := hstep
    refine h.goto rfl hsame ?_ h.owner
    split
    · exact fun hin => hin.elim
    · exact fun hin => hin.elim
  | unlockWait =>
    simp only [hpc] at hstep
    split at hstep
    · exact absurd hstep (by simp)
    · obtain rfl := Option.some.inj hstep
      exact h.goto rfl hsame (fun hin => hin.elim) h.owner
  | dequeue =>
    -- nobody waits, so the mutex is released
    have hempty : schedDequeue (σ.mutex.waitQueue, σ.sched.next) =
        (none, (σ.mutex.waitQueue, σ.sched.next)) := by
      rw [schedDequeue, hqueue hpc]
    simp only [hpc, hempty, Option.some.injEq] at hstep
    obtain rfl := hstep
    exact h.goto rfl hsame (fun hin => hin.elim) h.owner
  | handOver next =>
    rw [hpc] at hplace
    exact hplace.elim
  | unblock next =>
    simp only [hpc] at hstep
    obtain ⟨sched, -, rfl⟩ := Option.map_eq_some_iff.1 hstep
    exact h.goto rfl hsame (fun hin => hin.elim) h.owner
  | clearOwner =>
    simp only [hpc, Option.some.injEq] at hstep
    obtain rfl := hstep
    exact h.goto rfl hsame (fun hin => hin.elim) nofun
  | clearState =>
    simp only [hpc, Option.some.injEq] at hstep
    obtain rfl := hstep
    -- the token says that `owner` is cleared by now
    obtain rfl : k = .freeing t := hinv.place t _ (by rw [hpc]; rfl)
    refine h.goto rfl (fun u hu => Function.update_of_ne hu _ _) (fun hin => hin.elim) fun u hu => ?_
    exact absurd (hinv.owner.symm.trans hu) (by simp [MutexToken.owner])
  | unlockLeave =>
    simp only [hpc, Option.some.injEq] at hstep
    obtain rfl := hstep
    exact h.goto rfl hsame (fun hin => hin.elim) h.owner

theorem Settled.step (h : σ.Settled) (hinv : σ.Inv k) (honce : σ.LocksOnce e)
    (hqueue : σ.FindsNoWaiter e) (hstep : step e σ = some σ') : σ'.Settled := by
  cases e with
  | lock t =>
    rw [MutexRun.step] at hstep
    split at hstep
    · obtain rfl := Option.some.inj hstep
      exact h.goto rfl (fun _ _ => rfl) (fun _ => honce t rfl) h.owner
    · exact absurd hstep (by simp)
  | unlock t =>
    rw [MutexRun.step] at hstep
    split at hstep
    · obtain rfl := Option.some.inj hstep
      exact h.goto rfl (fun _ _ => rfl) (fun hin => hin.elim) h.owner
    · exact absurd hstep (by simp)
  | step t => exact h.instruction hinv (hqueue t rfl) hstep
  | other sched =>
    obtain rfl := Option.some.inj hstep
    exact ⟨h.owner, h.place⟩

theorem Init.settled (h : σ.Init) : σ.Settled where
  owner t ht := absurd ((congrArg Mutex.owner h.1).symm.trans ht) (by simp [mutexInit])
  place t := by
    rw [h.2.1 t]
    exact fun hin => hin.elim

/-- **Nobody is stranded without a hand-over.**  In every run in which no call of `mutex_unlock`
finds a waiter, no thread owns the mutex while it is in `mutex_lock`. -/
theorem not_stranded (h : Reach Init (fun s e s' => (LocksOnce s e ∧ FindsNoWaiter s e) ∧
    step e s = some s') σ) : ¬ σ.Stranded t := by
  have hinv : (∃ k, σ.Inv k) ∧ σ.Settled := by
    refine h.invariant (P := fun s => (∃ k, Inv k s) ∧ s.Settled)
      (fun s hs => ⟨⟨.free, hs.inv⟩, hs.settled⟩) fun s e s' _ ⟨⟨k, hk⟩, hs⟩ ⟨⟨honce, hqueue⟩, hstep⟩ => ?_
    exact ⟨hk.step hstep, hs.step hk honce hqueue hstep⟩
  rintro ⟨-, howner, hin, -⟩
  have hfits := hinv.2.place t
  rw [hinv.2.owner t howner] at hfits
  cases hpc : σ.pc t <;> rw [hpc] at hfits hin <;> first | exact hin | exact absurd (hfits hin) (by simp)

instance : Decidable (σ.LocksOnce e) :=
  match e with
  | .lock t => decidable_of_iff (σ.holds t = false)
      ⟨fun h u hu => by cases hu; exact h, fun h => h t rfl⟩
  | .unlock _ | .step _ | .other _ => isTrue nofun

instance : Decidable (σ.FindsNoWaiter e) :=
  match e with
  | .step t => decidable_of_iff (σ.pc t = .dequeue → σ.mutex.waitQueue.head = none)
      ⟨fun h u hu => by cases hu; exact h, fun h => h t rfl⟩
  | .lock _ | .unlock _ | .other _ => isTrue nofun

/-- Two threads take the mutex one after the other. -/
def inTurn : List MutexEvent :=
  [.lock 1, .step 1, .step 1, .unlock 1] ++ List.replicate 6 (.step 1) ++ [.lock 2, .step 2, .step 2]

theorem not_stranded_inTurn : ∃ σ, (inTurn.foldlM (fun s e =>
    if LocksOnce s e ∧ FindsNoWaiter s e then step e s else none) unlockedHost) = some σ ∧
      σ.mutex.owner = some 2 ∧ ¬ σ.Stranded 2 := by
  obtain ⟨σ, hrun, howner⟩ : ∃ σ, (inTurn.foldlM (fun s e =>
      if LocksOnce s e ∧ FindsNoWaiter s e then step e s else none) unlockedHost) = some σ ∧
        σ.mutex.owner = some 2 :=
    Option.map_eq_some_iff.1
      (show Option.map (fun σ : MutexRun => σ.mutex.owner) _ = some (some 2) by decide)
  exact ⟨σ, hrun, howner, not_stranded (Reach.of_guarded ⟨rfl, fun _ => rfl, fun _ => rfl⟩ hrun)⟩

/-! ### With a waiter -/

/-- Thread `2` waits for the mutex, `1` hands it over, and `2` goes on. -/
def strandingRun : List MutexEvent :=
  [.lock 1, .step 1, .step 1, .lock 2] ++ List.replicate 6 (.step 2) ++ [.unlock 1] ++
    List.replicate 6 (.step 1) ++ List.replicate 6 (.step 2)

/-- The woken thread blocks on the mutex it owns. -/
theorem stranded_handOver : ∃ σ t, Reach Init (fun s e s' => LocksOnce s e ∧ step e s = some s') σ ∧
    σ.Stranded t := by
  obtain ⟨σ, hrun, hstate⟩ : ∃ σ, (strandingRun.foldlM (fun s e =>
      if LocksOnce s e then step e s else none) unlockedHost) = some σ ∧
        (σ.mutex.locked, σ.mutex.owner, σ.pc 2, (σ.sched.thread 2).threadState) =
          (true, some 2, MutexPc.compareExchange, ThreadState.blocked) :=
    Option.map_eq_some_iff.1 (show Option.map (fun σ : MutexRun =>
      (σ.mutex.locked, σ.mutex.owner, σ.pc 2, (σ.sched.thread 2).threadState)) _ =
        some (true, some 2, MutexPc.compareExchange, ThreadState.blocked) by decide)
  simp only [Prod.mk.injEq] at hstate
  obtain ⟨hlocked, howner, hpc, hblocked⟩ := hstate
  exact ⟨σ, 2, Reach.of_guarded ⟨rfl, fun _ => rfl, fun _ => rfl⟩ hrun, hlocked, howner,
    hpc ▸ trivial, .inl hblocked⟩

/-- The owner is in `mutex_lock`. -/
def Stuck (t : ℕ) (σ : MutexRun) : Prop :=
  σ.Inv (.owned t) ∧ (σ.pc t).InLock

theorem Inv.eq_owned (h : σ.Inv k) (howner : σ.mutex.owner = some t) : k = .owned t := by
  have hk : k.owner = some t := h.owner.symm.trans howner
  cases k <;> simp only [MutexToken.owner, reduceCtorEq, Option.some.injEq] at hk
  rw [hk]

theorem Stuck.keep {pc : MutexPc} {u : ℕ} (h : σ.Stuck t) (hinv : (σ'.goto u pc).Inv k)
    (howner : σ'.mutex.owner = σ.mutex.owner) (hpcs : σ'.pc = σ.pc) (hpc : u = t → pc.InLock) :
    (σ'.goto u pc).Stuck t := by
  obtain rfl : k = .owned t := hinv.eq_owned (howner.trans h.1.owner)
  refine ⟨hinv, ?_⟩
  change (Function.update σ'.pc u pc t).InLock
  by_cases hu : t = u
  · subst hu
    rw [Function.update_self]
    exact hpc rfl
  · rw [Function.update_of_ne hu, hpcs]
    exact h.2

theorem Stuck.instruction {u : ℕ} (h : σ.Stuck t) (hstep : σ.instruction u = some σ') :
    σ'.Stuck t := by
  obtain ⟨k, hk⟩ := h.1.instruction hstep
  have hplace := h.1.place u
  -- `t` is at none of the places where a mutex is given up
  have hout : ¬ (σ.pc u).InLock → ∀ pc : MutexPc, u = t → pc.InLock := by
    rintro hnot pc rfl
    exact absurd h.2 hnot
  unfold MutexRun.instruction at hstep
  cases hpc : σ.pc u with
  | outside => simp [hpc] at hstep
  | compareExchange =>
    simp only [hpc] at hstep
    split at hstep
    · obtain rfl := Option.some.inj hstep
      exact h.keep hk rfl rfl fun _ => trivial
    · obtain rfl := Option.some.inj hstep
      exact h.keep hk rfl rfl fun _ => trivial
  | storeOwner => exact absurd (hplace (.taking u) (by rw [hpc]; rfl)) (by simp)
  | lockWait =>
    simp only [hpc] at hstep
    split at hstep
    · exact absurd hstep (by simp)
    · obtain rfl := Option.some.inj hstep
      exact h.keep hk rfl rfl fun _ => trivial
  | loadState =>
    simp only [hpc, Option.some.injEq] at hstep
    obtain rfl := hstep
    refine h.keep hk rfl rfl fun _ => ?_
    split <;> trivial
  | enqueue =>
    simp only [hpc] at hstep
    obtain ⟨s, -, rfl⟩ := Option.map_eq_some_iff.1 hstep
    exact h.keep hk rfl rfl fun _ => trivial
  | lockLeave blocks =>
    simp only [hpc, Option.some.injEq] at hstep
    obtain rfl := hstep
    refine h.keep hk rfl rfl fun _ => ?_
    split <;> trivial
  | block =>
    simp only [hpc, Option.some.injEq] at hstep
    obtain rfl := hstep
    exact h.keep hk rfl rfl fun _ => trivial
  | checkOwner =>
    simp only [hpc, Option.some.injEq] at hstep
    obtain rfl := hstep
    exact h.keep hk rfl rfl (hout (hpc ▸ id) _)
  | unlockWait =>
    simp only [hpc] at hstep
    split at hstep
    · exact absurd hstep (by simp)
    · obtain rfl := Option.some.inj hstep
      exact h.keep hk rfl rfl (hout (hpc ▸ id) _)
  | dequeue =>
    simp only [hpc, Option.some.injEq] at hstep
    obtain rfl := hstep
    exact h.keep hk rfl rfl (hout (hpc ▸ id) _)
  | handOver next =>
    obtain rfl : t = u := MutexToken.owned.inj (hplace (.owned u) (by rw [hpc]; rfl))
    exact (hpc ▸ h.2 : MutexPc.InLock (.handOver next)).elim
  | unblock next =>
    simp only [hpc] at hstep
    obtain ⟨sched, -, rfl⟩ := Option.map_eq_some_iff.1 hstep
    exact h.keep hk rfl rfl (hout (hpc ▸ id) _)
  | clearOwner =>
    obtain rfl : t = u := MutexToken.owned.inj (hplace (.owned u) (by rw [hpc]; rfl))
    exact (hpc ▸ h.2 : MutexPc.InLock .clearOwner).elim
  | clearState => exact absurd (hplace (.freeing u) (by rw [hpc]; rfl)) (by simp)
  | unlockLeave =>
    simp only [hpc, Option.some.injEq] at hstep
    obtain rfl := hstep
    exact h.keep hk rfl rfl (hout (hpc ▸ id) _)

theorem Stuck.step (h : σ.Stuck t) (hstep : step e σ = some σ') : σ'.Stuck t := by
  obtain ⟨k, hk⟩ := h.1.step hstep
  cases e with
  | lock u =>
    rw [MutexRun.step] at hstep
    split at hstep
    · obtain rfl := Option.some.inj hstep
      exact h.keep hk rfl rfl fun _ => trivial
    · exact absurd hstep (by simp)
  | unlock u =>
    rw [MutexRun.step] at hstep
    split at hstep
    · next hpc =>
      obtain rfl := Option.some.inj hstep
      refine h.keep hk rfl rfl ?_
      rintro rfl
      exact (hpc ▸ h.2 : MutexPc.InLock .outside).elim
    · exact absurd hstep (by simp)
  | step u => exact h.instruction hstep
  | other sched =>
    obtain rfl := Option.some.inj hstep
    exact ⟨⟨h.1.owner, h.1.locked, h.1.place, h.1.holds⟩, h.2⟩

/-- **A hand-over to a thread in `mutex_lock` is final.**  Whatever anybody does from then on, that
thread does not return, and the mutex stays locked. -/
theorem stuck_forever {ops : List MutexEvent} (h : Reach Init (fun s e s' => step e s = some s') σ)
    (howner : σ.mutex.owner = some t) (hin : (σ.pc t).InLock)
    (hrun : ops.foldlM (fun s e => step e s) σ = some σ') :
    σ'.mutex.owner = some t ∧ σ'.mutex.locked = true ∧ (σ'.pc t).InLock := by
  obtain ⟨k, hk⟩ : ∃ k, Inv k σ := h.invariant (P := fun s => ∃ k, Inv k s)
    (fun s hs => ⟨.free, hs.inv⟩) fun s e s' _ ⟨k, hk⟩ hstep => hk.step hstep
  obtain rfl := hk.eq_owned howner
  have hstuck : σ'.Stuck t := (everyStep_true (fun e s => step e s) σ ops).keeps hrun
    (P := Stuck t) ⟨hk, hin⟩ fun s e s' _ hs hstep => hs.step hstep
  exact ⟨hstuck.1.owner, hstuck.1.locked, hstuck.2⟩

theorem stuck_forever_handOver : ∃ σ, strandingRun.foldlM (fun s e => step e s) unlockedHost = some σ ∧
    ∀ ops σ', List.foldlM (fun s e => step e s) σ ops = some σ' →
      σ'.mutex.owner = some 2 ∧ σ'.mutex.locked = true ∧ (σ'.pc 2).InLock := by
  obtain ⟨σ, hrun, hstate⟩ : ∃ σ, strandingRun.foldlM (fun s e => step e s) unlockedHost = some σ ∧
      (σ.mutex.owner, σ.pc 2) = (some 2, MutexPc.compareExchange) :=
    Option.map_eq_some_iff.1 (show Option.map (fun σ : MutexRun => (σ.mutex.owner, σ.pc 2)) _ =
      some (some 2, MutexPc.compareExchange) by decide)
  obtain ⟨howner, hpc⟩ := Prod.mk.inj hstate
  have hreach : Reach Init (fun s e s' => step e s = some s') σ :=
    Reach.of_foldlM (.init ⟨rfl, fun _ => rfl, fun _ => rfl⟩) hrun
  exact ⟨σ, hrun, fun ops σ' => stuck_forever hreach howner (hpc ▸ trivial)⟩

end MutexRun

end Flopperating
