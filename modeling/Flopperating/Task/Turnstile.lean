/-
# Turnstiles

`src/task/sync/turnstile.h`.  A turnstile keeps the threads that are blocked on a lock, best
effective priority first.  There are `TURNSTILE_HASH_SIZE` of them, found by a hash of the lock's
address, and nothing is done about two locks with the same hash: they have one turnstile.

A blocked thread does not run, so it is in one list of waiters, once: the links `ts_next` of such
lists are lists here.  The numbers are those of unsigned words; `int` values are only compared with
them.  The loops over the chain of owners take the number of rounds they may go, as the scheduler's
do (`raise_ends`).
-/

import Flopperating.Data.Transition
import Flopperating.Task.Sched

namespace Flopperating

open Transition

abbrev turnstileHashSize : ℕ := 128

/-- `TURNSTILE_HASH_INDEX`. -/
def turnstileHashIndex (lockAddr : ℕ) : ℕ := lockAddr / 8 % turnstileHashSize

/-- The fields of `thread_t` that turnstiles use, but for `ts_next`. -/
structure TurnstileThread where
  base : ℕ
  effective : ℕ
  priorityInheritanceOwner : Option ℕ
  /-- `0` is `NULL`. -/
  blockedLock : ℕ
  threadState : ThreadState

/-- `turnstile_t`. -/
structure Turnstile where
  lockAddr : ℕ
  owner : Option ℕ
  waiters : List ℕ

/-- `turnstile_bucket_t`, but for its lock. -/
structure TurnstileBucket where
  initialized : Bool
  ts : Turnstile

structure Turnstiles where
  /-- `turnstile_table`. -/
  table : ℕ → TurnstileBucket
  thread : ℕ → TurnstileThread
  /-- The lock that the thread has called `turnstile_block` on and not been woken since. -/
  blockedOn : ℕ → Option ℕ

namespace Turnstiles

def setThread (t : ℕ) (v : TurnstileThread) (σ : Turnstiles) : Turnstiles :=
  { σ with thread := Function.update σ.thread t v }

def setEffective (t pri : ℕ) (σ : Turnstiles) : Turnstiles :=
  σ.setThread t { σ.thread t with effective := pri }

def setBlockedOn (t : ℕ) (lock : Option ℕ) (σ : Turnstiles) : Turnstiles :=
  { σ with blockedOn := Function.update σ.blockedOn t lock }

/-- The turnstile that `lockAddr` hashes to. -/
def turnstile (lockAddr : ℕ) (σ : Turnstiles) : Turnstile :=
  (σ.table (turnstileHashIndex lockAddr)).ts

def setTurnstile (lockAddr : ℕ) (ts : Turnstile) (σ : Turnstiles) : Turnstiles :=
  { σ with table := Function.update σ.table (turnstileHashIndex lockAddr) ⟨true, ts⟩ }

/-- `turnstile_waiters_insert`. -/
def turnstileWaitersInsert (t : ℕ) (σ : Turnstiles) (waiters : List ℕ) : List ℕ :=
  waiters.takeWhile (fun w => (σ.thread t).effective ≤ (σ.thread w).effective) ++
    t :: waiters.dropWhile (fun w => (σ.thread t).effective ≤ (σ.thread w).effective)

/-- `turnstile_waiters_pop`. -/
def turnstileWaitersPop : List ℕ → Option ℕ × List ℕ
  | [] => (none, [])
  | t :: waiters => (some t, waiters)

/-- `priority_inheritance_raise`. -/
def priorityInheritanceRaise : ℕ → Option ℕ → ℕ → Turnstiles → Option Turnstiles
  | _, none, _, σ => some σ
  | 0, some _, _, _ => none
  | n + 1, some owner, pri, σ =>
    if (σ.thread owner).effective < pri then
      priorityInheritanceRaise n (σ.thread owner).priorityInheritanceOwner pri
        (σ.setEffective owner pri)
    else some σ

/-- `turnstile_get_locked`. -/
def turnstileGetLocked (lockAddr : ℕ) (σ : Turnstiles) : Turnstiles :=
  if (σ.table (turnstileHashIndex lockAddr)).initialized then σ
  else σ.setTurnstile lockAddr ⟨lockAddr, none, []⟩

/-- `priority_inheritance_max_donation`. -/
def priorityInheritanceMaxDonation (owner : Option ℕ) (σ : Turnstiles) : ℕ × Turnstiles :=
  match owner with
  | none => (0, σ)
  | some owner =>
    let max := (σ.thread owner).base
    let lockAddr := (σ.thread owner).blockedLock
    if lockAddr = 0 then (max, σ)
    else
      let σ := σ.turnstileGetLocked lockAddr
      match (σ.turnstile lockAddr).waiters with
      | [] => (max, σ)
      | w :: _ => (if max < (σ.thread w).effective then (σ.thread w).effective else max, σ)

/-- `priority_inheritance_unwind`. -/
def priorityInheritanceUnwind : ℕ → Option ℕ → Turnstiles → Option Turnstiles
  | _, none, σ => some σ
  | 0, some _, _ => none
  | n + 1, some owner, σ =>
    let (max, σ) := σ.priorityInheritanceMaxDonation (some owner)
    if (σ.thread owner).effective = max then some σ
    else priorityInheritanceUnwind n (σ.thread owner).priorityInheritanceOwner
      (σ.setEffective owner max)

/-- The waiter and the owner that `turnstile_block` puts down. -/
def turnstileEnter (lockAddr cur : ℕ) (owner : Option ℕ) (σ : Turnstiles) : Turnstiles :=
  let σ := σ.turnstileGetLocked lockAddr
  let ts := σ.turnstile lockAddr
  (σ.setTurnstile lockAddr
      { ts with owner := owner, waiters := σ.turnstileWaitersInsert cur ts.waiters }).setThread cur
    { σ.thread cur with priorityInheritanceOwner := owner, blockedLock := lockAddr }

/-- `turnstile_block`, up to `sched_block`. -/
def turnstileDonate (fuel lockAddr cur : ℕ) (owner : Option ℕ) (σ : Turnstiles) :
    Option Turnstiles :=
  let σ := σ.turnstileEnter lockAddr cur owner
  match owner with
  | none => some σ
  | some o =>
    if (σ.thread o).effective < (σ.thread cur).effective then
      priorityInheritanceRaise fuel owner (σ.thread cur).effective σ
    else some σ

/-- `turnstile_block`, which `cur` calls. -/
def turnstileBlock (fuel lockAddr cur : ℕ) (owner : Option ℕ) (σ : Turnstiles) :
    Option Turnstiles :=
  (σ.turnstileDonate fuel lockAddr cur owner).map fun σ =>
    (σ.setThread cur { σ.thread cur with threadState := .blocked }).setBlockedOn cur (some lockAddr)

/-- What `turnstile_unblock` does with the first waiter, up to `turnstile_unlock_bucket`. -/
def turnstileGive (lockAddr next : ℕ) (waiters : List ℕ) (σ : Turnstiles) : Turnstiles :=
  (σ.setTurnstile lockAddr
      { σ.turnstile lockAddr with owner := some next, waiters := waiters }).setThread next
    { σ.thread next with priorityInheritanceOwner := none, blockedLock := 0 }

/-- `turnstile_unblock`, which `current` calls. -/
def turnstileUnblock (fuel current lockAddr : ℕ) (σ : Turnstiles) :
    Option (Option ℕ × Turnstiles) :=
  let σ := σ.turnstileGetLocked lockAddr
  let ts := σ.turnstile lockAddr
  match turnstileWaitersPop ts.waiters with
  | (none, waiters) =>
    some (none, σ.setTurnstile lockAddr { ts with owner := none, waiters := waiters })
  | (some next, waiters) =>
    (priorityInheritanceUnwind fuel (some current) (σ.turnstileGive lockAddr next waiters)).map fun σ =>
      (some next, (σ.setThread next { σ.thread next with threadState := .ready }).setBlockedOn next none)

/-- `turnstile_has_waiters`. -/
def turnstileHasWaiters (lockAddr : ℕ) (σ : Turnstiles) : Bool × Turnstiles :=
  let σ := σ.turnstileGetLocked lockAddr
  (!(σ.turnstile lockAddr).waiters.isEmpty, σ)

end Turnstiles

/-- What thread `t` calls. -/
inductive TurnstileCall
  | block (t lockAddr : ℕ) (owner : Option ℕ)
  | unblock (t lockAddr : ℕ)
  | hasWaiters (t lockAddr : ℕ)

/-- `current_thread`. -/
def TurnstileCall.caller : TurnstileCall → ℕ
  | .block t _ _ | .unblock t _ | .hasWaiters t _ => t

namespace Turnstiles

variable {σ σ' : Turnstiles} {fuel t u lockAddr : ℕ} {owner : Option ℕ} {e : TurnstileCall}

/-- One call; a blocked thread makes none. -/
def step (fuel : ℕ) (e : TurnstileCall) (σ : Turnstiles) : Option Turnstiles :=
  if σ.blockedOn e.caller ≠ none then none
  else match e with
    | .block t lockAddr owner => σ.turnstileBlock fuel lockAddr t owner
    | .unblock t lockAddr => (σ.turnstileUnblock fuel t lockAddr).map Prod.snd
    | .hasWaiters _ lockAddr => some (σ.turnstileHasWaiters lockAddr).2

/-- Before the first call. -/
def Init (σ : Turnstiles) : Prop :=
  (∀ i, σ.table i = ⟨false, ⟨0, none, []⟩⟩) ∧ (∀ t, σ.blockedOn t = none) ∧
    ∀ t, (σ.thread t).priorityInheritanceOwner = none ∧ (σ.thread t).blockedLock = 0

/-! ### The lists of waiters -/

/-- The waiters of a bucket. -/
def waitersAt (i : ℕ) (σ : Turnstiles) : List ℕ := (σ.table i).ts.waiters

structure Inv (σ : Turnstiles) : Prop where
  fresh : ∀ i, (σ.table i).initialized = false → σ.waitersAt i = []
  /-- A blocked thread is a waiter of the turnstile of its lock. -/
  waits : ∀ u lockAddr, σ.blockedOn u = some lockAddr → u ∈ σ.waitersAt (turnstileHashIndex lockAddr)
  /-- And of no other. -/
  blocked : ∀ i, ∀ u ∈ σ.waitersAt i, ∃ lockAddr, σ.blockedOn u = some lockAddr ∧
    turnstileHashIndex lockAddr = i
  nodup : ∀ i, (σ.waitersAt i).Nodup
  running : ∀ u, σ.blockedOn u = none →
    (σ.thread u).priorityInheritanceOwner = none ∧ (σ.thread u).blockedLock = 0

theorem table_setTurnstile {ts : Turnstile} (i : ℕ) : (σ.setTurnstile lockAddr ts).table i =
    if i = turnstileHashIndex lockAddr then ⟨true, ts⟩ else σ.table i :=
  Function.update_apply ..

theorem waitersAt_setTurnstile {ts : Turnstile} (i : ℕ) : (σ.setTurnstile lockAddr ts).waitersAt i =
    if i = turnstileHashIndex lockAddr then ts.waiters else σ.waitersAt i := by
  rw [waitersAt, table_setTurnstile]
  split <;> rfl

theorem initialized_setTurnstile {ts : Turnstile} {i : ℕ}
    (h : ((σ.setTurnstile lockAddr ts).table i).initialized = false) :
    (σ.table i).initialized = false ∧ i ≠ turnstileHashIndex lockAddr := by
  rw [table_setTurnstile] at h
  split at h
  · exact absurd h (by simp)
  · next hi => exact ⟨h, hi⟩

@[simp] theorem getLocked_thread : (σ.turnstileGetLocked lockAddr).thread = σ.thread := by
  unfold turnstileGetLocked
  split <;> rfl

@[simp] theorem getLocked_blockedOn : (σ.turnstileGetLocked lockAddr).blockedOn = σ.blockedOn := by
  unfold turnstileGetLocked
  split <;> rfl

theorem Inv.getLocked_waitersAt (h : σ.Inv) (i : ℕ) :
    (σ.turnstileGetLocked lockAddr).waitersAt i = σ.waitersAt i := by
  unfold turnstileGetLocked
  split
  · rfl
  · next hinit =>
    rw [waitersAt_setTurnstile]
    split
    · next hi => rw [hi, h.fresh _ (Bool.eq_false_iff.2 hinit)]
    · rfl

theorem getLocked_initialized {i : ℕ}
    (h : ((σ.turnstileGetLocked lockAddr).table i).initialized = false) :
    (σ.table i).initialized = false ∧ i ≠ turnstileHashIndex lockAddr := by
  unfold turnstileGetLocked at h
  split at h
  · next hinit =>
    refine ⟨h, ?_⟩
    rintro rfl
    exact absurd (hinit.symm.trans h) (by simp)
  · exact initialized_setTurnstile h

theorem Inv.getLocked (h : σ.Inv) : (σ.turnstileGetLocked lockAddr).Inv where
  fresh i hi := by
    rw [h.getLocked_waitersAt]
    exact h.fresh i (getLocked_initialized hi).1
  waits u lock hu := by
    rw [h.getLocked_waitersAt]
    exact h.waits u lock (getLocked_blockedOn ▸ hu)
  blocked i u hu := by
    rw [h.getLocked_waitersAt] at hu
    rw [getLocked_blockedOn]
    exact h.blocked i u hu
  nodup i := by
    rw [h.getLocked_waitersAt]
    exact h.nodup i
  running u hu := by
    rw [getLocked_thread]
    exact h.running u (getLocked_blockedOn ▸ hu)

theorem mem_waitersInsert {waiters : List ℕ} :
    u ∈ turnstileWaitersInsert t σ waiters ↔ u = t ∨ u ∈ waiters := by
  rw [turnstileWaitersInsert, List.mem_append, List.mem_cons, ← or_assoc, or_comm (b := u = t), or_assoc,
    ← List.mem_append, List.takeWhile_append_dropWhile]

theorem nodup_waitersInsert {waiters : List ℕ} (h : waiters.Nodup) (ht : t ∉ waiters) :
    (turnstileWaitersInsert t σ waiters).Nodup := by
  refine (List.perm_middle.nodup_iff).2 ?_
  rw [List.takeWhile_append_dropWhile]
  exact List.nodup_cons.2 ⟨ht, h⟩

/-! ### Priorities alone -/

/-- Nothing but effective priorities differs. -/
structure Reprioritized (σ σ' : Turnstiles) : Prop where
  table : σ'.table = σ.table
  blockedOn : σ'.blockedOn = σ.blockedOn
  thread : ∀ u, ∃ pri, σ'.thread u = { σ.thread u with effective := pri }

theorem Reprioritized.refl (σ : Turnstiles) : σ.Reprioritized σ := ⟨rfl, rfl, fun _ => ⟨_, rfl⟩⟩

theorem setEffective_apply {pri : ℕ} (u : ℕ) : (σ.setEffective t pri).thread u =
    { σ.thread u with effective := if u = t then pri else (σ.thread u).effective } := by
  change Function.update σ.thread t _ u = _
  rw [Function.update_apply]
  split
  · next hu => rw [hu]
  · rfl

theorem Reprioritized.after_setEffective {pri : ℕ} (h : (σ.setEffective t pri).Reprioritized σ') :
    σ.Reprioritized σ' where
  table := h.table
  blockedOn := h.blockedOn
  thread u := by
    obtain ⟨new, hnew⟩ := h.thread u
    exact ⟨new, by rw [hnew, setEffective_apply]⟩

theorem raise_reprioritized {pri : ℕ} (h : priorityInheritanceRaise fuel owner pri σ = some σ') :
    σ.Reprioritized σ' := by
  induction fuel generalizing owner σ with
  | zero =>
    cases owner with
    | none =>
      obtain rfl : σ = σ' := Option.some.inj h
      exact .refl σ
    | some o => exact absurd h (by simp [priorityInheritanceRaise])
  | succ n ih =>
    cases owner with
    | none =>
      obtain rfl : σ = σ' := Option.some.inj h
      exact .refl σ
    | some o =>
      rw [priorityInheritanceRaise] at h
      split at h
      · exact (ih h).after_setEffective
      · obtain rfl := Option.some.inj h
        exact .refl σ

theorem donate_reprioritized (h : σ.turnstileDonate fuel lockAddr t owner = some σ') :
    (σ.turnstileEnter lockAddr t owner).Reprioritized σ' := by
  unfold turnstileDonate at h
  cases owner with
  | none =>
    obtain rfl := Option.some.inj h
    exact .refl _
  | some o =>
    dsimp only at h
    split at h
    · exact raise_reprioritized h
    · obtain rfl := Option.some.inj h
      exact .refl _

/-- Unwinding from a thread that is not blocked stops there. -/
theorem unwind_running {n : ℕ} (howner : (σ.thread t).priorityInheritanceOwner = none)
    (hlock : (σ.thread t).blockedLock = 0) :
    priorityInheritanceUnwind (n + 1) (some t) σ = some (σ.setEffective t (σ.thread t).base) := by
  rw [priorityInheritanceUnwind, priorityInheritanceMaxDonation]
  simp only [hlock, if_true]
  split
  · next heq =>
    have hsame : σ.setEffective t (σ.thread t).base = σ := by
      rw [setEffective, setThread, ← heq, Function.update_eq_self]
    rw [hsame]
  · rw [howner]
    cases n <;> rfl

/-! ### What a call does -/

theorem enter_thread : (σ.turnstileEnter lockAddr t owner).thread = Function.update σ.thread t
    { σ.thread t with priorityInheritanceOwner := owner, blockedLock := lockAddr } := by
  change Function.update (σ.turnstileGetLocked lockAddr).thread t
    { (σ.turnstileGetLocked lockAddr).thread t with
      priorityInheritanceOwner := owner, blockedLock := lockAddr } = _
  rw [getLocked_thread]

/-- What `turnstile_block` does. -/
structure Blocks (lockAddr t : ℕ) (owner : Option ℕ) (σ σ' : Turnstiles) : Prop where
  waiters : ∀ i, σ'.waitersAt i = if i = turnstileHashIndex lockAddr then
    turnstileWaitersInsert t σ (σ.waitersAt i) else σ.waitersAt i
  initialized : ∀ i, (σ'.table i).initialized = false →
    (σ.table i).initialized = false ∧ i ≠ turnstileHashIndex lockAddr
  blockedOn : σ'.blockedOn = Function.update σ.blockedOn t (some lockAddr)
  others : ∀ u, u ≠ t → ∃ pri, σ'.thread u = { σ.thread u with effective := pri }
  self : ∃ pri, σ'.thread t = { σ.thread t with
    effective := pri, priorityInheritanceOwner := owner, blockedLock := lockAddr, threadState := .blocked }

theorem Inv.blocks (h : σ.Inv) (hblock : σ.turnstileBlock fuel lockAddr t owner = some σ') :
    Blocks lockAddr t owner σ σ' := by
  obtain ⟨ρ, hρ, rfl⟩ := Option.map_eq_some_iff.1 hblock
  have hpri := donate_reprioritized hρ
  have htable : ρ.table = ((σ.turnstileGetLocked lockAddr).setTurnstile lockAddr
      { (σ.turnstileGetLocked lockAddr).turnstile lockAddr with
        owner := owner
        waiters := turnstileWaitersInsert t (σ.turnstileGetLocked lockAddr)
          ((σ.turnstileGetLocked lockAddr).turnstile lockAddr).waiters }).table := hpri.table
  refine ⟨fun i => ?_, fun i hi => ?_, ?_, fun u hu => ?_, ?_⟩
  · change (ρ.table i).ts.waiters = _
    rw [htable]
    refine (waitersAt_setTurnstile i).trans ?_
    rw [h.getLocked_waitersAt]
    split
    · next hi =>
      have hsame (i : ℕ) : (σ.turnstileGetLocked lockAddr).waitersAt i = σ.waitersAt i :=
        h.getLocked_waitersAt i
      rw [hi, ← hsame]
      simp only [turnstileWaitersInsert, getLocked_thread]
      rfl
    · rfl
  · change (ρ.table i).initialized = false at hi
    rw [htable] at hi
    obtain ⟨hi, hne⟩ := initialized_setTurnstile hi
    exact ⟨(getLocked_initialized hi).1, hne⟩
  · change Function.update ρ.blockedOn t _ = _
    rw [hpri.blockedOn]
    exact congrArg (fun f => Function.update f t (some lockAddr)) getLocked_blockedOn
  · obtain ⟨pri, hpri⟩ := hpri.thread u
    refine ⟨pri, (Function.update_of_ne hu ..).trans ?_⟩
    rw [hpri, enter_thread, Function.update_of_ne hu]
  · obtain ⟨pri, hpri⟩ := hpri.thread t
    refine ⟨pri, (Function.update_self ..).trans ?_⟩
    rw [hpri, enter_thread, Function.update_self]

/-- What `turnstile_unblock` does where there is a waiter. -/
structure Wakes (lockAddr t next : ℕ) (waiters : List ℕ) (σ σ' : Turnstiles) : Prop where
  first : σ.waitersAt (turnstileHashIndex lockAddr) = next :: waiters
  waiters : ∀ i, σ'.waitersAt i = if i = turnstileHashIndex lockAddr then waiters else σ.waitersAt i
  initialized : ∀ i, (σ'.table i).initialized = false →
    (σ.table i).initialized = false ∧ i ≠ turnstileHashIndex lockAddr
  blockedOn : σ'.blockedOn = Function.update σ.blockedOn next none
  ne : next ≠ t
  thread : ∀ u, σ'.thread u =
    if u = next then { σ.thread next with
      priorityInheritanceOwner := none, blockedLock := 0, threadState := .ready }
    else if u = t then { σ.thread t with effective := (σ.thread t).base }
    else σ.thread u

/-- What `turnstile_unblock` does where there is none. -/
structure Idles (lockAddr : ℕ) (σ σ' : Turnstiles) : Prop where
  empty : σ.waitersAt (turnstileHashIndex lockAddr) = []
  waiters : ∀ i, σ'.waitersAt i = σ.waitersAt i
  initialized : ∀ i, (σ'.table i).initialized = false → (σ.table i).initialized = false
  blockedOn : σ'.blockedOn = σ.blockedOn
  thread : σ'.thread = σ.thread

theorem give_thread {next : ℕ} {waiters : List ℕ} :
    ((σ.turnstileGetLocked lockAddr).turnstileGive lockAddr next waiters).thread =
      Function.update σ.thread next
        { σ.thread next with priorityInheritanceOwner := none, blockedLock := 0 } := by
  change Function.update (σ.turnstileGetLocked lockAddr).thread next
    { (σ.turnstileGetLocked lockAddr).thread next with
      priorityInheritanceOwner := none, blockedLock := 0 } = _
  rw [getLocked_thread]

/-- The caller runs, and waiters do not. -/
theorem Inv.ne_of_mem {i : ℕ} (h : σ.Inv) (ht : σ.blockedOn t = none) (hu : u ∈ σ.waitersAt i) :
    u ≠ t := by
  rintro rfl
  obtain ⟨lock, hlock, -⟩ := h.blocked i u hu
  exact absurd (hlock.symm.trans ht) (by simp)

theorem Inv.unwind_give {next n : ℕ} {waiters : List ℕ} (h : σ.Inv) (ht : σ.blockedOn t = none)
    (hne : next ≠ t) :
    priorityInheritanceUnwind (n + 1) (some t)
      ((σ.turnstileGetLocked lockAddr).turnstileGive lockAddr next waiters) =
        some (((σ.turnstileGetLocked lockAddr).turnstileGive lockAddr next waiters).setEffective t
          (σ.thread t).base) := by
  have hself : ((σ.turnstileGetLocked lockAddr).turnstileGive lockAddr next waiters).thread t =
      σ.thread t := by
    rw [give_thread, Function.update_of_ne hne.symm]
  obtain ⟨howner, hlock⟩ := h.running t ht
  rw [← hself] at howner hlock
  rw [unwind_running howner hlock, hself]

theorem Inv.unblock_cases {next : Option ℕ} (h : σ.Inv) (ht : σ.blockedOn t = none)
    (hun : σ.turnstileUnblock fuel t lockAddr = some (next, σ')) :
    next = none ∧ Idles lockAddr σ σ' ∨
      ∃ w waiters, next = some w ∧ Wakes lockAddr t w waiters σ σ' := by
  have hwaiters : ((σ.turnstileGetLocked lockAddr).turnstile lockAddr).waiters =
      σ.waitersAt (turnstileHashIndex lockAddr) := h.getLocked_waitersAt _
  unfold turnstileUnblock at hun
  dsimp only at hun
  rw [hwaiters] at hun
  cases hlist : σ.waitersAt (turnstileHashIndex lockAddr) with
  | nil =>
    rw [hlist, turnstileWaitersPop] at hun
    obtain ⟨rfl, rfl⟩ := Prod.mk.inj (Option.some.inj hun)
    refine .inl ⟨rfl, hlist, fun i => ?_, fun i hi => ?_, getLocked_blockedOn, getLocked_thread⟩
    · rw [waitersAt_setTurnstile, h.getLocked_waitersAt]
      split
      · next hi => rw [hi, hlist]
      · rfl
    · exact (getLocked_initialized (initialized_setTurnstile hi).1).1
  | cons w waiters =>
    rw [hlist, turnstileWaitersPop] at hun
    have hne : w ≠ t := h.ne_of_mem ht (hlist ▸ List.mem_cons_self)
    obtain ⟨ρ, hρ, heq⟩ := Option.map_eq_some_iff.1 hun
    obtain ⟨rfl, rfl⟩ := Prod.mk.inj heq
    cases fuel with
    | zero => exact absurd hρ (by simp [priorityInheritanceUnwind])
    | succ n =>
      rw [h.unwind_give ht hne] at hρ
      obtain rfl := Option.some.inj hρ
      refine .inr ⟨w, waiters, rfl, hlist, fun i => ?_, fun i hi => ?_, ?_, hne, fun u => ?_⟩
      · refine (waitersAt_setTurnstile i).trans ?_
        rw [h.getLocked_waitersAt]
      · obtain ⟨hi, hi'⟩ := initialized_setTurnstile hi
        exact ⟨(getLocked_initialized hi).1, hi'⟩
      · change Function.update (σ.turnstileGetLocked lockAddr).blockedOn w none = _
        rw [getLocked_blockedOn]
      · refine (Function.update_apply ..).trans ?_
        rw [setEffective_apply, setEffective_apply, give_thread, Function.update_self, if_neg hne]
        split
        · rfl
        · next hu =>
          rw [Function.update_of_ne hu]
          split
          · next hut => rw [hut]
          · rfl

theorem Inv.block (h : σ.Inv) (ht : σ.blockedOn t = none) (hb : Blocks lockAddr t owner σ σ') :
    σ'.Inv := by
  have hout : ∀ i, t ∉ σ.waitersAt i := fun i hi => h.ne_of_mem ht hi rfl
  have hother : ∀ u, u ≠ t → σ'.blockedOn u = σ.blockedOn u := by
    intro u hu
    rw [hb.blockedOn, Function.update_of_ne hu]
  have hself : σ'.blockedOn t = some lockAddr := by
    rw [hb.blockedOn, Function.update_self]
  refine ⟨fun i hi => ?_, fun u lock hu => ?_, fun i u hu => ?_, fun i => ?_, fun u hu => ?_⟩
  · obtain ⟨hi, hne⟩ := hb.initialized i hi
    rw [hb.waiters, if_neg hne]
    exact h.fresh i hi
  · rw [hb.waiters]
    by_cases hut : u = t
    · subst hut
      obtain rfl : lockAddr = lock := Option.some.inj (hself.symm.trans hu)
      rw [if_pos rfl]
      exact mem_waitersInsert.2 (.inl rfl)
    · have hmem := h.waits u lock ((hother u hut).symm.trans hu)
      split
      · exact mem_waitersInsert.2 (.inr hmem)
      · exact hmem
  · rw [hb.waiters] at hu
    have hold : u ∈ σ.waitersAt i → ∃ lock, σ'.blockedOn u = some lock ∧ turnstileHashIndex lock = i := by
      intro hmem
      obtain ⟨lock, hlock, hi⟩ := h.blocked i u hmem
      refine ⟨lock, (hother u ?_).trans hlock, hi⟩
      rintro rfl
      exact hout i hmem
    split at hu
    · next hi =>
      rcases mem_waitersInsert.1 hu with rfl | hu
      · exact ⟨lockAddr, hself, hi.symm⟩
      · exact hold hu
    · exact hold hu
  · rw [hb.waiters]
    split
    · exact nodup_waitersInsert (h.nodup i) (hout i)
    · exact h.nodup i
  · have hut : u ≠ t := by
      rintro rfl
      exact absurd (hself.symm.trans hu) (by simp)
    obtain ⟨pri, hpri⟩ := hb.others u hut
    rw [hpri]
    exact h.running u ((hother u hut).symm.trans hu)

theorem Inv.idle (h : σ.Inv) (hi : Idles lockAddr σ σ') : σ'.Inv where
  fresh i hinit := by
    rw [hi.waiters]
    exact h.fresh i (hi.initialized i hinit)
  waits u lock hu := by
    rw [hi.waiters]
    exact h.waits u lock (hi.blockedOn ▸ hu)
  blocked i u hu := by
    rw [hi.waiters] at hu
    rw [hi.blockedOn]
    exact h.blocked i u hu
  nodup i := by
    rw [hi.waiters]
    exact h.nodup i
  running u hu := by
    rw [hi.thread]
    exact h.running u (hi.blockedOn ▸ hu)

theorem Inv.wake {next : ℕ} {waiters : List ℕ} (h : σ.Inv) (hw : Wakes lockAddr t next waiters σ σ') :
    σ'.Inv := by
  have hnodup := h.nodup (turnstileHashIndex lockAddr)
  rw [hw.first, List.nodup_cons] at hnodup
  have hother : ∀ u, u ≠ next → σ'.blockedOn u = σ.blockedOn u := by
    intro u hu
    rw [hw.blockedOn, Function.update_of_ne hu]
  have hself : σ'.blockedOn next = none := by
    rw [hw.blockedOn, Function.update_self]
  -- the woken thread waits nowhere any more
  have hout : ∀ i, next ∉ σ'.waitersAt i := by
    intro i hi
    rw [hw.waiters] at hi
    split at hi
    · exact hnodup.1 hi
    · next hne =>
      obtain ⟨lock, hlock, rfl⟩ := h.blocked i next hi
      obtain ⟨lock', hlock', heq⟩ := h.blocked _ next (hw.first ▸ List.mem_cons_self)
      obtain rfl : lock = lock' := Option.some.inj (hlock.symm.trans hlock')
      exact hne heq
  refine ⟨fun i hi => ?_, fun u lock hu => ?_, fun i u hu => ?_, fun i => ?_, fun u hu => ?_⟩
  · obtain ⟨hi, hne⟩ := hw.initialized i hi
    rw [hw.waiters, if_neg hne]
    exact h.fresh i hi
  · have hne : u ≠ next := by
      rintro rfl
      exact absurd (hself.symm.trans hu) (by simp)
    have hmem := h.waits u lock ((hother u hne).symm.trans hu)
    rw [hw.waiters]
    split
    · next hi =>
      rw [hi, hw.first] at hmem
      exact (List.mem_cons.1 hmem).resolve_left hne
    · exact hmem
  · have hne : u ≠ next := by
      rintro rfl
      exact hout i hu
    rw [hother u hne]
    rw [hw.waiters] at hu
    split at hu
    · next hi =>
      refine h.blocked i u ?_
      rw [hi, hw.first]
      exact List.mem_cons_of_mem _ hu
    · exact h.blocked i u hu
  · rw [hw.waiters]
    split
    · exact hnodup.2
    · exact h.nodup i
  · rw [hw.thread]
    by_cases hne : u = next
    · rw [if_pos hne]
      exact ⟨rfl, rfl⟩
    · have hrun := h.running u ((hother u hne).symm.trans hu)
      rw [if_neg hne]
      split
      · next hut => exact hut ▸ hrun
      · exact hrun

theorem Init.inv (h : σ.Init) : σ.Inv where
  fresh i _ := by
    rw [waitersAt, h.1]
  waits u lock hu := absurd ((h.2.1 u).symm.trans hu) (by simp)
  blocked i u hu := by
    rw [waitersAt, h.1] at hu
    exact absurd hu (by simp)
  nodup i := by
    rw [waitersAt, h.1]
    exact List.nodup_nil
  running u _ := h.2.2 u

/-- What one call may be. -/
theorem Inv.step (h : σ.Inv) (hstep : step fuel e σ = some σ') : σ'.Inv := by
  unfold Turnstiles.step at hstep
  split at hstep
  · exact absurd hstep (by simp)
  · next ht =>
    have ht : σ.blockedOn e.caller = none := not_not.1 ht
    cases e with
    | block t lock owner => exact h.block ht (h.blocks hstep)
    | unblock t lock =>
      obtain ⟨⟨next, τ⟩, hun, rfl⟩ := Option.map_eq_some_iff.1 hstep
      rcases h.unblock_cases ht hun with ⟨-, hidle⟩ | ⟨w, waiters, -, hwake⟩
      · exact h.idle hidle
      · exact h.wake hwake
    | hasWaiters t lock =>
      obtain rfl := Option.some.inj hstep
      exact h.getLocked

/-! ### The loops end -/

theorem Inv.finite (h : σ.Inv) : ∃ s : Finset ℕ, ∀ u, σ.blockedOn u ≠ none → u ∈ s := by
  have hmem : ∀ u, σ.blockedOn u ≠ none →
      ∃ i ∈ Finset.range turnstileHashSize, u ∈ (σ.waitersAt i).toFinset := by
    intro u hu
    obtain ⟨lock, hlock⟩ := Option.ne_none_iff_exists'.1 hu
    refine ⟨turnstileHashIndex lock, Finset.mem_range.2 (Nat.mod_lt _ (by decide)), ?_⟩
    exact List.mem_toFinset.2 (h.waits u lock hlock)
  generalize Finset.range turnstileHashSize = r at hmem
  exact ⟨r.biUnion fun i => (σ.waitersAt i).toFinset, fun u hu => Finset.mem_biUnion.2 (hmem u hu)⟩

theorem Inv.unblock_ends {n : ℕ} (h : σ.Inv) (ht : σ.blockedOn t = none) :
    (σ.turnstileUnblock (n + 1) t lockAddr).isSome := by
  unfold turnstileUnblock
  dsimp only
  split
  · rfl
  · next w waiters hpop =>
    have hmem : w ∈ ((σ.turnstileGetLocked lockAddr).turnstile lockAddr).waiters := by
      cases hlist : ((σ.turnstileGetLocked lockAddr).turnstile lockAddr).waiters with
      | nil => exact absurd (hlist ▸ hpop) (by simp [turnstileWaitersPop])
      | cons v l =>
        rw [hlist, turnstileWaitersPop] at hpop
        obtain ⟨hv, -⟩ := Prod.mk.inj hpop
        rw [Option.some.inj hv]
        exact List.mem_cons_self
    have hγ : (σ.turnstileGetLocked lockAddr).Inv := h.getLocked
    have hne : w ≠ t := hγ.ne_of_mem (by rw [getLocked_blockedOn]; exact ht) hmem
    rw [Option.isSome_map, h.unwind_give ht hne]
    rfl

/-- Nobody waits; thread `t` has priority `t`. -/
def idleHost : Turnstiles :=
  ⟨fun _ => ⟨false, ⟨0, none, []⟩⟩, fun t => ⟨t, t, none, 0, .ready⟩, fun _ => none⟩

theorem idleHost_init : idleHost.Init := ⟨fun _ => rfl, fun _ => rfl, fun _ => ⟨rfl, rfl⟩⟩

end Turnstiles

end Flopperating
