/-
# Sleeping threads

`sched_thread_sleep` puts the running thread in the sleep queue and then calls `sched_yield`,
which puts it in the ready queue too, unless it is the idle thread; `sched_thread_exit` only
yields.  So a thread that sleeps or exits can be chosen at once.  What is left is the idle thread,
which `sched_yield` does not put in the ready queue: it sleeps as it should, as long as it is in
neither queue when it starts, and nobody unblocks a thread that runs or is in a queue
(`sleepers_rest`).
-/

import Flopperating.Data.Transition
import Flopperating.Task.ThreadOps

namespace Flopperating

open LinkedList ThreadList Transition

namespace Sched

variable {σ σ' τ : Sched} {fuel t : ℕ} {e : SchedCall} {G : Members} {name : ListName}

/-! ### Time -/

/-- No time passes, and no thread gets another time to wake at. -/
structure SameClock (σ σ' : Sched) : Prop where
  idleThread : σ'.idleThread = σ.idleThread
  ticks : σ'.ticks = σ.ticks
  wakeTime : ∀ t, (σ'.thread t).wakeTime = (σ.thread t).wakeTime

theorem SameClock.refl (σ : Sched) : SameClock σ σ := ⟨rfl, rfl, fun _ => rfl⟩

theorem SameClock.trans (h : SameClock σ τ) (h' : SameClock τ σ') : SameClock σ σ' :=
  ⟨h'.idleThread.trans h.idleThread, h'.ticks.trans h.ticks,
    fun t => (h'.wakeTime t).trans (h.wakeTime t)⟩

theorem sameClock_setThread {v : Thread} (hv : v.wakeTime = (σ.thread t).wakeTime) :
    SameClock σ (σ.setThread t v) := by
  refine ⟨rfl, rfl, fun u => ?_⟩
  by_cases hu : u = t
  · rw [hu, setThread_thread_self, hv]
  · rw [setThread_thread_of_ne hu]

theorem sameClock_onList? {op : Linked → Option Linked} (h : σ.onList? name op = some σ') :
    SameClock σ σ' := by
  obtain ⟨s, -, rfl⟩ := onList?_eq_some h
  exact ⟨rfl, rfl, fun _ => rfl⟩

theorem SelectStep.sameClock {o : Option ℕ} (h : SelectStep fuel σ o σ') : SameClock σ σ' := by
  cases h with
  | empty _ => exact .refl σ
  | @take a b best thread slice chain length boost others before after =>
    refine ⟨rfl, rfl, fun u => ?_⟩
    have hthread : (thread u).wakeTime = (σ.thread u).wakeTime := by
      by_cases hu : u ∈ a ++ best :: b
      · exact (boost u hu).kept.wakeTime
      · rw [others u hu]
    change (Function.update thread best _ u).wakeTime = _
    by_cases hu : u = best
    · rw [hu, Function.update_self, ← hu]
      exact hthread
    · rw [Function.update_of_ne hu]
      exact hthread

/-- `sched_schedule`, after the choice, goes on with the chosen thread, or the idle thread. -/
theorem schedScheduleOn_spec {o : Option ℕ} (h : σ.schedScheduleOn o = some σ') :
    SameClock σ σ' ∧ σ'.currentThread = some (o.getD σ.idleThread) := by
  have hidle : SameClock σ (σ.schedSelectIdleIfNeeded o).2 ∧
      (σ.schedSelectIdleIfNeeded o).1 = o.getD σ.idleThread := by
    cases o with
    | none => exact ⟨sameClock_setThread rfl, rfl⟩
    | some t => exact ⟨.refl σ, rfl⟩
  unfold schedScheduleOn at h
  dsimp only at h
  split at h
  · next hskip =>
    obtain rfl := Option.some.inj h
    exact ⟨hidle.1, hidle.2 ▸ hskip⟩
  · have hprepare := hidle.1.trans (sameClock_setThread
      (t := (σ.schedSelectIdleIfNeeded o).1) (v := { (σ.schedSelectIdleIfNeeded o).2.thread
        (σ.schedSelectIdleIfNeeded o).1 with timeSinceLastRun := 0 }) rfl)
    unfold schedDetermineAndSwitch at h
    dsimp only at h
    split at h
    · obtain ⟨r, -, rfl⟩ := Option.map_eq_some_iff.1 h
      exact ⟨⟨hprepare.idleThread, hprepare.ticks, hprepare.wakeTime⟩, congrArg some hidle.2⟩
    · obtain rfl := Option.some.inj h
      exact ⟨⟨hprepare.idleThread, hprepare.ticks, hprepare.wakeTime⟩, congrArg some hidle.2⟩

theorem sameClock_schedYieldEnqueue (h : σ.schedYieldEnqueue = some σ') : SameClock σ σ' := by
  unfold schedYieldEnqueue at h
  split at h
  · split at h
    · exact sameClock_onList? h
    · exact Option.some.inj h ▸ .refl σ
  · exact Option.some.inj h ▸ .refl σ

theorem sameClock_schedUnblock (h : σ.schedUnblock t = some σ') : SameClock σ σ' :=
  (sameClock_setThread (v := { σ.thread t with threadState := .ready }) rfl).trans
    (sameClock_onList? h)

theorem sameClock_schedBlockState (σ : Sched) : SameClock σ σ.schedBlockState := by
  unfold schedBlockState
  split
  · exact sameClock_setThread rfl
  · exact .refl σ

/-- What a call does before `sched_schedule`: only `sched_thread_sleep` sets a time to wake at. -/
theorem scheduling_clock (h : σ.scheduling e = some τ) :
    τ.idleThread = σ.idleThread ∧ τ.ticks = σ.ticks ∧
      ∀ t, (∀ ms, e = .sleep ms → ms ≠ 0 → σ.currentThread ≠ some t) →
        (τ.thread t).wakeTime = (σ.thread t).wakeTime := by
  have hsame : SameClock σ τ → τ.idleThread = σ.idleThread ∧ τ.ticks = σ.ticks ∧
      ∀ t, (∀ ms, e = .sleep ms → ms ≠ 0 → σ.currentThread ≠ some t) →
        (τ.thread t).wakeTime = (σ.thread t).wakeTime :=
    fun h => ⟨h.idleThread, h.ticks, fun t _ => h.wakeTime t⟩
  cases e with
  | schedule => exact hsame (Option.some.inj h ▸ .refl σ)
  | yield =>
    rw [scheduling] at h
    split at h
    · exact absurd h (by simp)
    · exact hsame (sameClock_schedYieldEnqueue h)
  | exit =>
    rw [scheduling] at h
    split at h
    · exact absurd h (by simp)
    · exact hsame (sameClock_schedYieldEnqueue h)
  | block =>
    rw [scheduling] at h
    split at h
    · exact absurd h (by simp)
    · obtain rfl := Option.some.inj h
      exact hsame (sameClock_schedBlockState σ)
  | sleep ms =>
    rw [scheduling] at h
    split at h
    · exact absurd h (by simp)
    next hnot =>
    obtain ⟨ρ, hρ, hτ⟩ := Option.bind_eq_some_iff.1 h
    have hyield := sameClock_schedYieldEnqueue hτ
    unfold schedSleepEnqueue at hρ
    split at hρ
    · next c hc =>
      obtain ⟨s, -, rfl⟩ := onList?_eq_some hρ
      refine ⟨hyield.idleThread, hyield.ticks, fun t ht => ?_⟩
      have hne : t ≠ c := fun htc => ht ms rfl (fun hms => hnot (.inr hms)) (htc ▸ hc)
      exact (hyield.wakeTime t).trans (congrArg Thread.wakeTime (setThread_thread_of_ne hne))
    · obtain rfl := Option.some.inj hρ
      exact hsame hyield
  | unblock t => exact absurd h (by simp [scheduling])
  | tick => exact absurd h (by simp [scheduling])
  | vmmSwitch region => exact absurd h (by simp [scheduling])

theorem sameClock_schedTickLoop {prev curr : Option ℕ} {n : ℕ}
    (h : schedTickLoop n prev curr σ = some σ') :
    SameClock σ σ' ∧ σ'.currentThread = σ.currentThread := by
  induction n generalizing σ prev curr with
  | zero =>
    cases curr with
    | none => exact Option.some.inj h ▸ ⟨.refl σ, rfl⟩
    | some t => exact absurd h (by simp [schedTickLoop])
  | succ n ih =>
    cases curr with
    | none => exact Option.some.inj h ▸ ⟨.refl σ, rfl⟩
    | some t =>
      obtain ⟨⟨prev', τ⟩, hround, hrest⟩ := Option.bind_eq_some_iff.1 h
      obtain ⟨hclock, hcurrent⟩ := ih hrest
      unfold schedProcessSleepThread at hround
      split at hround
      · obtain ⟨ρ, hwake, heq⟩ := Option.map_eq_some_iff.1 hround
        obtain ⟨-, rfl⟩ := Prod.mk.inj heq
        have hremove : SameClock σ (σ.onList .sleepQueue (schedRemoveFromSleepQueue t prev)) :=
          ⟨rfl, rfl, fun _ => rfl⟩
        refine ⟨(hremove.trans (sameClock_schedUnblock hwake)).trans hclock, hcurrent.trans ?_⟩
        obtain ⟨s, -, rfl⟩ := onList?_eq_some hwake
        rfl
      · obtain ⟨-, rfl⟩ := Prod.mk.inj (Option.some.inj hround)
        exact ⟨hclock, hcurrent⟩

/-- **Time passes at a tick**, and a thread gets a time to wake at when it goes to sleep. -/
theorem call_clock (h : σ.call fuel e = some σ') :
    σ'.idleThread = σ.idleThread ∧
    σ'.ticks = (if e = .tick then u64 (σ.ticks + 1) else σ.ticks) ∧
    ∀ t, (∀ ms, e = .sleep ms → ms ≠ 0 → σ.currentThread ≠ some t) →
      (σ'.thread t).wakeTime = (σ.thread t).wakeTime := by
  cases call_cases h with
  | nothing hat =>
    have hne : e ≠ .tick := by
      rintro rfl
      exact hat.elim
    rw [if_neg hne]
    exact ⟨rfl, rfl, fun _ _ => rfl⟩
  | schedule _ hs hτ =>
    have hne : e ≠ .tick := by
      rintro rfl
      exact absurd hs (by simp [scheduling])
    obtain ⟨⟨o, ρ⟩, hselect, hon⟩ := Option.bind_eq_some_iff.1 hτ
    obtain ⟨hidle, hticks, hwake⟩ := scheduling_clock hs
    have hclock := (schedSelectNext_cases hselect).sameClock.trans (schedScheduleOn_spec hon).1
    rw [if_neg hne]
    exact ⟨hclock.idleThread.trans hidle, hclock.ticks.trans hticks,
      fun t ht => (hclock.wakeTime t).trans (hwake t ht)⟩
  | unblock hunblock =>
    have hclock := sameClock_schedUnblock hunblock
    exact ⟨hclock.idleThread, hclock.ticks, fun t _ => hclock.wakeTime t⟩
  | tick htick =>
    have hclock := (sameClock_schedTickLoop htick).1
    exact ⟨hclock.idleThread, hclock.ticks, fun t _ => hclock.wakeTime t⟩
  | vmmSwitch r => exact ⟨rfl, rfl, fun _ _ => rfl⟩

/-- The time that a thread which goes to sleep gets. -/
theorem call_sleep_wakeTime {ms : ℕ} (hms : ms ≠ 0) (hc : σ.currentThread = some t)
    (h : σ.call fuel (.sleep ms) = some σ') : (σ'.thread t).wakeTime = u64 (σ.ticks + ms) := by
  have hnot : ¬ (σ.currentThread = none ∨ ms = 0) := not_or.2 ⟨by rw [hc]; simp, hms⟩
  cases call_cases h with
  | nothing hat => exact absurd hat hnot
  | schedule _ hs hτ =>
    obtain ⟨⟨o, ρ⟩, hselect, hon⟩ := Option.bind_eq_some_iff.1 hτ
    have hclock := (schedSelectNext_cases hselect).sameClock.trans (schedScheduleOn_spec hon).1
    rw [scheduling, if_neg hnot] at hs
    obtain ⟨ν, hν, hyield⟩ := Option.bind_eq_some_iff.1 hs
    rw [hclock.wakeTime, (sameClock_schedYieldEnqueue hyield).wakeTime]
    unfold schedSleepEnqueue at hν
    rw [hc] at hν
    obtain ⟨s, -, rfl⟩ := onList?_eq_some hν
    exact congrArg Thread.wakeTime setThread_thread_self

/-! ### The two queues -/

/-- The queues hold the threads of `G`, none of them twice, and not the running thread, unless it
is the idle thread. -/
structure Queues (G : Members) (σ : Sched) : Prop where
  order : InOrder IsQueue False G σ
  apart : Apart IsQueue G
  running : ∀ c ∈ σ.currentThread, c ≠ σ.idleThread → ∀ L, IsQueue L → c ∉ G L

theorem Queues.queued_iff (h : Queues G σ) {L : ListName} (hL : IsQueue L) :
    σ.Queued L t ↔ t ∈ G L := (h.order.shaped L hL).chain.linked_iff

/-- The call neither puts a thread in a queue twice nor lets an ordinary thread sleep or exit:
`sched_unblock` is called for a thread that neither runs nor is in a queue, and only the idle
thread sleeps or exits, being in no queue. -/
def Restful (σ : Sched) : SchedCall → Prop
  | .unblock t => σ.currentThread ≠ some t ∧ ∀ L, IsQueue L → ¬ σ.Queued L t
  | .sleep ms => ms = 0 ∨ σ.currentThread = none ∨
      σ.currentThread = some σ.idleThread ∧ (∀ L, IsQueue L → ¬ σ.Queued L σ.idleThread) ∧
        σ.ticks + ms < 2 ^ 64
  | .exit => σ.currentThread = none ∨
      σ.currentThread = some σ.idleThread ∧ ∀ L, IsQueue L → ¬ σ.Queued L σ.idleThread
  | .schedule | .yield | .block | .tick | .vmmSwitch _ => True

/-- What a call of a restful run does before `sched_schedule`: at most one thread is added to a
queue, the idle thread to the sleep queue or another to the ready queue. -/
theorem Queues.enqueueOps_cases (h : Queues G σ) (hok : σ.Restful e) :
    σ.enqueueOps e = [] ∨ ∃ L c, IsQueue L ∧ σ.enqueueOps e = [.add L c] ∧
      σ.currentThread = some c ∧ (∀ M, IsQueue M → c ∉ G M) ∧
      (L = .readyQueue ∧ c ≠ σ.idleThread ∨
        L = .sleepQueue ∧ c = σ.idleThread ∧ ∃ ms, ms ≠ 0 ∧ e = .sleep ms) := by
  unfold enqueueOps
  cases hc : σ.currentThread with
  | none => exact .inl rfl
  | some c =>
    have hyield : σ.yieldOps c = [] ∨ σ.yieldOps c = [.add .readyQueue c] ∧ c ≠ σ.idleThread := by
      unfold yieldOps
      split
      · next hidle => exact .inr ⟨rfl, hidle⟩
      · exact .inl rfl
    cases e with
    | yield =>
      refine hyield.imp id fun ⟨hops, hidle⟩ => ⟨.readyQueue, c, .inl rfl, hops, rfl, ?_, .inl ⟨rfl, hidle⟩⟩
      exact h.running c hc hidle
    | exit =>
      obtain ⟨hcur, -⟩ := hok.resolve_left (by rw [hc]; simp)
      obtain rfl : c = σ.idleThread := Option.some.inj (hc.symm.trans hcur)
      exact .inl (if_neg (not_not.2 rfl))
    | sleep ms =>
      by_cases hms : ms = 0
      · exact .inl (if_pos hms)
      · obtain ⟨hcur, hqueued, -⟩ := (hok.resolve_left hms).resolve_left (by rw [hc]; simp)
        obtain rfl : c = σ.idleThread := Option.some.inj (hc.symm.trans hcur)
        refine .inr ⟨.sleepQueue, σ.idleThread, .inr rfl, ?_, rfl,
          fun M hM => mt (h.queued_iff hM).2 (hqueued M hM), .inr ⟨rfl, rfl, ms, hms, rfl⟩⟩
        dsimp only
        rw [if_neg hms, yieldOps, if_neg (not_not.2 rfl)]
    | _ => exact .inl rfl

/-! ### One call -/

/-- No thread is in a queue twice, or in two queues. -/
structure Tidy (G : Members) : Prop where
  apart : Apart IsQueue G
  nodup : ∀ L, IsQueue L → (G L).Nodup

theorem Queues.tidy (h : Queues G σ) : Tidy G := ⟨h.apart, fun L hL => (h.order.shaped L hL).nodup⟩

theorem mem_apply_add {L M : ListName} {x : ℕ} :
    x ∈ G.apply (.add L t) M ↔ x ∈ G M ∨ M = L ∧ x = t := by
  rw [Members.apply]
  by_cases hM : M = L
  · subst hM
    rw [Function.update_self]
    simp
  · rw [Function.update_of_ne hM]
    simp [hM]

theorem Tidy.mem_apply_remove (h : Tidy G) {L M : ListName} {x : ℕ} (hL : IsQueue L) :
    x ∈ G.apply (.remove L t) M ↔ x ∈ G M ∧ ¬ (M = L ∧ x = t) := by
  rw [Members.apply]
  by_cases hM : M = L
  · subst hM
    rw [Function.update_self, (h.nodup M hL).mem_erase_iff]
    simp [and_comm]
  · rw [Function.update_of_ne hM]
    simp [hM]

theorem Tidy.add (h : Tidy G) {L : ListName} (hL : IsQueue L) (ht : ∀ M, IsQueue M → t ∉ G M) :
    (ThreadOp.add L t).Fits IsQueue False G ∧ Tidy (G.apply (.add L t)) := by
  obtain ⟨hfits, hapart⟩ := h.apart.add (h.nodup L hL) hL ht
  refine ⟨hfits, hapart, fun M hM => ?_⟩
  rw [Members.apply]
  by_cases hML : M = L
  · subst hML
    rw [Function.update_self]
    exact nodup_snoc.2 ⟨h.nodup M hM, ht M hM⟩
  · rw [Function.update_of_ne hML]
    exact h.nodup M hM

theorem Tidy.remove (h : Tidy G) {L : ListName} (hL : IsQueue L) (ht : t ∈ G L) :
    (ThreadOp.remove L t).Fits IsQueue False G ∧ Tidy (G.apply (.remove L t)) := by
  obtain ⟨hfits, hapart⟩ := h.apart.remove (h.nodup L hL) hL ht
  refine ⟨hfits, hapart, fun M hM => ?_⟩
  rw [Members.apply]
  by_cases hML : M = L
  · subst hML
    rw [Function.update_self]
    exact (h.nodup M hM).erase t
  · rw [Function.update_of_ne hML]
    exact h.nodup M hM

/-- **Waking** threads of the sleep queue takes them to the ready queue. -/
theorem Tidy.wake (h : Tidy G) {W : List ℕ} (hnd : W.Nodup) (hsub : ∀ t ∈ W, t ∈ G .sleepQueue) :
    FitsAll IsQueue False G (W.flatMap wakeOps) ∧ Tidy (G.applyAll (W.flatMap wakeOps)) ∧
      (∀ x, x ∈ G.applyAll (W.flatMap wakeOps) .sleepQueue ↔ x ∈ G .sleepQueue ∧ x ∉ W) ∧
      ∀ x, x ∈ G.applyAll (W.flatMap wakeOps) .readyQueue ↔ x ∈ G .readyQueue ∨ x ∈ W := by
  induction W generalizing G with
  | nil => exact ⟨trivial, h, by simp [Members.applyAll], by simp [Members.applyAll]⟩
  | cons t W ih =>
    obtain ⟨htW, hnd⟩ := List.nodup_cons.1 hnd
    have ht := hsub t List.mem_cons_self
    obtain ⟨hremove, htidy⟩ := h.remove (.inr rfl) ht
    have hmem := fun {M x} => h.mem_apply_remove (t := t) (L := .sleepQueue) (M := M) (x := x) (.inr rfl)
    have hout : ∀ M, IsQueue M → t ∉ G.apply (.remove .sleepQueue t) M := by
      rintro M hM htM
      obtain ⟨htM, hne⟩ := hmem.1 htM
      have hMs : M ≠ .sleepQueue := fun hMs => hne ⟨hMs, rfl⟩
      exact h.apart _ _ (.inr rfl) hM (Ne.symm hMs) t ht htM
    obtain ⟨hadd, htidy'⟩ := htidy.add (.inl rfl) hout
    have hsleep : ∀ x, x ∈ (G.apply (.remove .sleepQueue t)).apply (.add .readyQueue t) .sleepQueue ↔
        x ∈ G .sleepQueue ∧ x ≠ t := fun x => by
      rw [mem_apply_add, hmem]
      simp
    have hready : ∀ x, x ∈ (G.apply (.remove .sleepQueue t)).apply (.add .readyQueue t) .readyQueue ↔
        x ∈ G .readyQueue ∨ x = t := fun x => by
      rw [mem_apply_add, hmem]
      simp
    obtain ⟨hfits, hend, hsleep', hready'⟩ := ih htidy' hnd fun x hx => (hsleep x).2
      ⟨hsub x (List.mem_cons_of_mem t hx), fun hxt => htW (hxt ▸ hx)⟩
    rw [List.flatMap_cons]
    refine ⟨fitsAll_append.2 ⟨⟨hremove, hadd, trivial⟩, hfits⟩, ?_⟩
    rw [Members.applyAll, List.foldl_append]
    refine ⟨hend, fun x => (hsleep' x).trans ?_, fun x => (hready' x).trans ?_⟩
    · rw [hsleep, List.mem_cons, not_or, and_assoc]
    · rw [hready, List.mem_cons, or_assoc]

/-- How a call moves the threads of the queues. -/
structure CallMoves (fuel : ℕ) (σ : Sched) (e : SchedCall) (G G' : Members) : Prop where
  waits : ∀ t ∈ G .readyQueue, t ∈ G' .readyQueue ∨ σ.selected fuel e = some t
  sleeps : ∀ t ∈ G .sleepQueue,
    t ∈ G' .sleepQueue ∨ e = .tick ∧ σ.Wakes t ∧ t ∈ G' .readyQueue
  /-- Who is chosen was ready, or is the running thread, if that is not the idle thread. -/
  selected : ∀ t, σ.selected fuel e = some t →
    t ∈ G .readyQueue ∨ σ.currentThread = some t ∧ t ≠ σ.idleThread
  enters : ∀ L, IsQueue L → ∀ t ∈ G' L, (∃ M, IsQueue M ∧ t ∈ G M) ∨ e = .unblock t ∨
    σ.currentThread = some t ∧ (t ≠ σ.idleThread ∨ ∃ ms, ms ≠ 0 ∧ e = .sleep ms)
  fallsAsleep : ∀ ms, e = .sleep ms → ms ≠ 0 → ∀ c ∈ σ.currentThread, c ∈ G' .sleepQueue

/-- The threads after what a call does before `sched_schedule`. -/
theorem Queues.enqueue (h : Queues G σ) (hok : σ.Restful e) :
    FitsAll IsQueue False G (σ.enqueueOps e) ∧ Tidy (G.applyAll (σ.enqueueOps e)) ∧
      (∀ L, IsQueue L → ∀ t ∈ G L, t ∈ G.applyAll (σ.enqueueOps e) L) ∧
      (∀ t ∈ G.applyAll (σ.enqueueOps e) .readyQueue,
        t ∈ G .readyQueue ∨ σ.currentThread = some t ∧ t ≠ σ.idleThread) ∧
      ∀ t ∈ G.applyAll (σ.enqueueOps e) .sleepQueue,
        t ∈ G .sleepQueue ∨ σ.currentThread = some t ∧ ∃ ms, ms ≠ 0 ∧ e = .sleep ms := by
  obtain hnone | ⟨L, c, hL, hops, hc, hout, hwhich⟩ := h.enqueueOps_cases hok
  · rw [hnone]
    exact ⟨trivial, h.tidy, fun _ _ _ ht => ht, fun _ ht => .inl ht, fun _ ht => .inl ht⟩
  · rw [hops]
    obtain ⟨hfits, htidy⟩ := h.tidy.add hL hout
    refine ⟨⟨hfits, trivial⟩, htidy, fun M _ t ht => mem_apply_add.2 (.inl ht), fun t ht => ?_,
      fun t ht => ?_⟩
    · refine (mem_apply_add.1 ht).imp_right ?_
      rintro ⟨rfl, rfl⟩
      obtain ⟨-, hidle⟩ | ⟨hL, -⟩ := hwhich
      · exact ⟨hc, hidle⟩
      · exact absurd hL (by simp)
    · refine (mem_apply_add.1 ht).imp_right ?_
      rintro ⟨rfl, rfl⟩
      obtain ⟨hL, -⟩ | ⟨-, -, hsleep⟩ := hwhich
      · exact absurd hL (by simp)
      · exact ⟨hc, hsleep⟩

/-- Who is chosen was in the ready queue. -/
theorem SelectStep.mem {tracked : ListName → Prop} {counted : Prop} (hstep : SelectStep fuel σ (some t) σ')
    (h : InOrder tracked counted G σ) (hready : tracked .readyQueue) : t ∈ G .readyQueue := by
  cases hstep with
  | take slice chain length boost others before after =>
    rw [(h.shaped _ hready).chain.unique chain]
    exact List.mem_append_right _ List.mem_cons_self

/-- **One call**: the queues stay as they should be. -/
theorem Queues.call (h : Queues G σ) (hok : σ.Restful e) (hrun : σ.call fuel e = some σ') :
    ∃ G', Queues G' σ' ∧ CallMoves fuel σ e G G' := by
  have hinOrder := fun hfits => call_inOrder (.inl rfl) (.inr rfl) h.order hrun hfits
  cases call_cases hrun with
  | nothing hat =>
    refine ⟨G, h, fun t ht => .inl ht, fun t ht => .inl ht, fun t ht => ?_,
      fun L hL t ht => .inl ⟨L, hL, ht⟩, ?_⟩
    · rw [Sched.selected, hat.scheduling] at ht
      exact absurd ht (by simp)
    · rintro ms rfl hms c hc
      have hnone := hat.resolve_right hms
      exact absurd (hc.symm.trans hnone) (by simp)
  | @schedule _ τ _ hs hτ =>
    obtain ⟨⟨o, ρ⟩, hselect, hon⟩ := Option.bind_eq_some_iff.1 hτ
    have hselected : σ.selected fuel e = o := by
      rw [Sched.selected, hs, Option.bind_some, hselect]
      rfl
    have hops : σ.callOps fuel e G = σ.enqueueOps e ++ o.toList.map (.remove .readyQueue) := by
      cases e with
      | unblock t => exact absurd hs (by simp [scheduling])
      | tick => exact absurd hs (by simp [scheduling])
      | _ => rw [callOps, hselected] <;> simp
    obtain ⟨hfits, htidy, hkeep, hready, hsleep⟩ := h.enqueue hok
    have hmid := inOrder_scheduling h.order (.inl rfl) (.inr rfl) hs hfits
    have hstep := schedSelectNext_cases hselect
    obtain ⟨hclock, hcurrent⟩ := schedScheduleOn_spec hon
    obtain ⟨hidle, -, -⟩ := call_clock hrun
    have hidle' : ρ.idleThread = σ.idleThread := hclock.idleThread.symm.trans hidle
    have hfalls : ∀ ms, e = .sleep ms → ms ≠ 0 → ∀ c ∈ σ.currentThread,
        c ∈ G.applyAll (σ.enqueueOps e) .sleepQueue := by
      rintro ms rfl hms c hc
      obtain ⟨hcur, -, -⟩ := (hok.resolve_left hms).resolve_left (by rw [hc]; simp)
      obtain rfl : c = σ.idleThread := Option.some.inj (hc.symm.trans hcur)
      have hops : σ.enqueueOps (.sleep ms) = [.add .sleepQueue σ.idleThread] := by
        rw [enqueueOps, hc]
        dsimp only
        rw [if_neg hms, yieldOps, if_neg (not_not.2 rfl)]
      rw [hops]
      show _ ∈ G.apply (.add .sleepQueue σ.idleThread) .sleepQueue
      exact mem_apply_add.2 (.inr ⟨rfl, rfl⟩)
    have henters : ∀ L, IsQueue L → ∀ t ∈ G.applyAll (σ.enqueueOps e) L,
        (∃ M, IsQueue M ∧ t ∈ G M) ∨ e = .unblock t ∨
          σ.currentThread = some t ∧ (t ≠ σ.idleThread ∨ ∃ ms, ms ≠ 0 ∧ e = .sleep ms) := by
      rintro L (rfl | rfl) t ht
      · obtain ht | ⟨hc, hne⟩ := hready t ht
        · exact .inl ⟨_, .inl rfl, ht⟩
        · exact .inr (.inr ⟨hc, .inl hne⟩)
      · obtain ht | ⟨hc, hms⟩ := hsleep t ht
        · exact .inl ⟨_, .inr rfl, ht⟩
        · exact .inr (.inr ⟨hc, .inr hms⟩)
    cases o with
    | none =>
      rw [hops, Option.toList_none, List.map_nil, List.append_nil] at hinOrder
      refine ⟨_, ⟨hinOrder hfits, htidy.apart, fun c hc hne => ?_⟩,
        fun t ht => .inl (hkeep _ (.inl rfl) t ht), fun t ht => .inl (hkeep _ (.inr rfl) t ht),
        fun t ht => absurd (hselected.symm.trans ht) (by simp), henters, hfalls⟩
      obtain rfl : ρ.idleThread = c := Option.some.inj (hcurrent.symm.trans hc)
      exact absurd (hidle'.trans hidle.symm) hne
    | some best =>
      have hbest := hstep.mem hmid (.inl rfl)
      obtain ⟨hremove, htidy'⟩ := htidy.remove (.inl rfl) hbest
      rw [hops, fitsAll_append, Members.applyAll_append] at hinOrder
      have hmem := fun {M x} => htidy.mem_apply_remove (t := best) (L := .readyQueue) (M := M) (x := x)
        (.inl rfl)
      refine ⟨_, ⟨hinOrder ⟨hfits, hremove, trivial⟩, htidy'.apart, fun c hc _ M hM hcM => ?_⟩,
        fun t ht => ?_, fun t ht => .inl (hmem.2 ⟨hkeep _ (.inr rfl) t ht, by simp⟩), fun t ht => ?_,
        fun L hL t ht => henters L hL t (hmem.1 ht).1,
        fun ms hms hne c hc => hmem.2 ⟨hfalls ms hms hne c hc, by simp⟩⟩
      · obtain rfl : best = c := Option.some.inj (hcurrent.symm.trans hc)
        obtain ⟨hcM, hne⟩ := hmem.1 hcM
        have hMr : M ≠ .readyQueue := fun hMr => hne ⟨hMr, rfl⟩
        exact htidy.apart _ _ (.inl rfl) hM (Ne.symm hMr) best hbest hcM
      · by_cases htb : t = best
        · exact .inr (htb ▸ hselected)
        · exact .inl (hmem.2 ⟨hkeep _ (.inl rfl) t ht, fun h => htb h.2⟩)
      · obtain rfl : best = t := Option.some.inj (hselected.symm.trans ht)
        exact hready best hbest
  | @unblock t _ hunblock =>
    obtain ⟨hcur, hqueued⟩ := hok
    have hout : ∀ M, IsQueue M → t ∉ G M := fun M hM => mt (h.queued_iff hM).2 (hqueued M hM)
    obtain ⟨hadd, htidy⟩ := h.tidy.add (.inl rfl) hout
    have hsame : σ'.currentThread = σ.currentThread := by
      obtain ⟨s, -, rfl⟩ := onList?_eq_some hunblock
      rfl
    have hidle := (sameClock_schedUnblock hunblock).idleThread
    refine ⟨G.apply (.add .readyQueue t), ⟨hinOrder ⟨hadd, trivial⟩, htidy.apart, fun c hc hne M hM hcM => ?_⟩,
      fun u hu => .inl (mem_apply_add.2 (.inl hu)), fun u hu => .inl (mem_apply_add.2 (.inl hu)),
      fun u hu => absurd hu (by simp [Sched.selected, scheduling]), fun L hL u hu => ?_, by simp⟩
    · rw [hsame] at hc
      rw [hidle] at hne
      obtain hcM | ⟨-, rfl⟩ := mem_apply_add.1 hcM
      · exact h.running c hc hne M hM hcM
      · exact hcur hc
    · obtain hu | ⟨-, rfl⟩ := mem_apply_add.1 hu
      · exact .inl ⟨L, hL, hu⟩
      · exact .inr (.inl rfl)
  | tick htick =>
    obtain ⟨hclock, hcurrent⟩ := sameClock_schedTickLoop htick
    obtain ⟨hfits, htidy, hsleep, hready⟩ := h.tidy.wake
      (W := (G .sleepQueue).filter fun t => σ.Wakes t) ((h.tidy.nodup _ (.inr rfl)).filter _)
      fun t ht => List.mem_of_mem_filter ht
    have hwoken : ∀ t, t ∈ (G .sleepQueue).filter (fun t => σ.Wakes t) ↔ t ∈ G .sleepQueue ∧ σ.Wakes t := by
      simp
    have hold : ∀ L, IsQueue L → ∀ t ∈ G.applyAll (σ.callOps fuel .tick G) L, ∃ M, IsQueue M ∧ t ∈ G M := by
      rintro L (rfl | rfl) t ht
      · obtain ht | ht := (hready t).1 ht
        · exact ⟨_, .inl rfl, ht⟩
        · exact ⟨_, .inr rfl, ((hwoken t).1 ht).1⟩
      · exact ⟨_, .inr rfl, ((hsleep t).1 ht).1⟩
    refine ⟨_, ⟨hinOrder hfits, htidy.apart, fun c hc hne M hM hcM => ?_⟩,
      fun t ht => .inl ((hready t).2 (.inl ht)), fun t ht => ?_, fun t ht => absurd ht (by simp [Sched.selected, scheduling]),
      fun L hL t ht => .inl (hold L hL t ht), by simp⟩
    · obtain ⟨L, hL, hcL⟩ := hold M hM c hcM
      rw [hcurrent] at hc
      rw [hclock.idleThread] at hne
      exact h.running c hc hne L hL hcL
    · by_cases hw : σ.Wakes t
      · exact .inr ⟨rfl, hw, (hready t).2 (.inr ((hwoken t).2 ⟨ht, hw⟩))⟩
      · exact .inl ((hsleep t).2 ⟨ht, fun hmem => hw ((hwoken t).1 hmem).2⟩)
  | vmmSwitch r =>
    refine ⟨G, ⟨h.order.congr rfl rfl, h.apart, h.running⟩, fun t ht => .inl ht, fun t ht => .inl ht,
      fun t ht => absurd ht (by simp [Sched.selected, scheduling]), fun L hL t ht => .inl ⟨L, hL, ht⟩, by simp⟩

/-! ### Runs -/

/-- The queues are as they should be. -/
def WellQueued (σ : Sched) : Prop := ∃ G, Queues G σ

theorem Queues.unique {G' : Members} (h : Queues G σ) (h' : Queues G' σ) {L : ListName} (hL : IsQueue L) :
    G L = G' L := (h.order.shaped L hL).unique (h'.order.shaped L hL)

/-- The thread is in one queue and not in the other. -/
theorem Queues.existsUnique (h : Queues G σ) (hmem : ∃ L, IsQueue L ∧ t ∈ G L) :
    ∃! L, IsQueue L ∧ σ.Queued L t := by
  obtain ⟨L, hL, ht⟩ := hmem
  refine ⟨L, ⟨hL, (h.queued_iff hL).2 ht⟩, ?_⟩
  rintro M ⟨hM, htM⟩
  by_contra hne
  exact h.apart L M hL hM (Ne.symm hne) t ht ((h.queued_iff hM).1 htM)

/-- A thread that sleeps until `wake`. -/
def AsleepUntil (wake t : ℕ) (σ : Sched) : Prop :=
  ∃ G, Queues G σ ∧ t = σ.idleThread ∧
    (t ∈ G .sleepQueue ∧ (σ.thread t).wakeTime = wake ∨ wake ≤ σ.ticks)

/-- A thread that is in a queue. -/
def InQueue (t : ℕ) (σ : Sched) : Prop := ∃ G, Queues G σ ∧ ∃ L, IsQueue L ∧ t ∈ G L

theorem AsleepUntil.inQueue {wake : ℕ} (h : AsleepUntil wake t σ) (hticks : σ.ticks < wake) :
    InQueue t σ := by
  obtain ⟨G, hG, rfl, h⟩ := h
  exact ⟨G, hG, _, .inr rfl, (h.resolve_right (Nat.not_le.2 hticks)).1⟩

/-- Somebody brings the thread back to a queue: it is unblocked, or sleeps. -/
def Recalls (t : ℕ) (σ : Sched) (e : SchedCall) : Prop :=
  e = .unblock t ∨ σ.currentThread = some t ∧ ∃ ms, ms ≠ 0 ∧ e = .sleep ms

/-- **Going to sleep.** -/
theorem Queues.sleep {ms : ℕ} (h : Queues G σ) (hok : σ.Restful (.sleep ms)) (hms : ms ≠ 0)
    (hrun : σ.call fuel (.sleep ms) = some σ') (hc : σ.currentThread = some t) :
    σ.selected fuel (.sleep ms) ≠ some t ∧ AsleepUntil (σ.ticks + ms) t σ' := by
  obtain ⟨hcur, hqueued, hwrap⟩ := (hok.resolve_left hms).resolve_left (by rw [hc]; simp)
  obtain rfl : t = σ.idleThread := Option.some.inj (hc.symm.trans hcur)
  obtain ⟨G', h', hmoves⟩ := h.call hok hrun
  refine ⟨fun hsel => ?_, G', h', (call_clock hrun).1.symm,
    .inl ⟨hmoves.fallsAsleep ms rfl hms _ hc, ?_⟩⟩
  · obtain hmem | ⟨-, hne⟩ := hmoves.selected _ hsel
    · exact hqueued _ (.inl rfl) ((h.queued_iff (.inl rfl)).2 hmem)
    · exact hne rfl
  · rw [call_sleep_wakeTime hms hc hrun]
    exact Nat.mod_eq_of_lt hwrap

/-- **A thread that sleeps** is not chosen. -/
theorem AsleepUntil.not_selected {wake : ℕ} (h : AsleepUntil wake t σ) (hticks : σ.ticks < wake)
    (hok : σ.Restful e) (hrun : σ.call fuel e = some σ') : σ.selected fuel e ≠ some t := by
  obtain ⟨G, hG, rfl, h⟩ := h
  obtain ⟨hmem, -⟩ := h.resolve_right (Nat.not_le.2 hticks)
  obtain ⟨G', -, hmoves⟩ := hG.call hok hrun
  intro hsel
  obtain hready | ⟨-, hne⟩ := hmoves.selected _ hsel
  · exact hG.apart .readyQueue .sleepQueue (.inl rfl) (.inr rfl) (by simp) _ hready hmem
  · exact hne rfl

/-- **A thread that sleeps** goes on sleeping until it is time. -/
theorem AsleepUntil.call {wake : ℕ} (h : AsleepUntil wake t σ) (hticks : σ.ticks < wake)
    (hok : σ.Restful e) (hrun : σ.call fuel e = some σ') : AsleepUntil wake t σ' := by
  obtain ⟨G, hG, rfl, h⟩ := h
  obtain ⟨hmem, hwake⟩ := h.resolve_right (Nat.not_le.2 hticks)
  obtain ⟨G', hG', hmoves⟩ := hG.call hok hrun
  obtain ⟨hidle, hclock, htime⟩ := call_clock hrun
  refine ⟨G', hG', hidle.symm, ?_⟩
  obtain hsleep | ⟨rfl, hdue, -⟩ := hmoves.sleeps _ hmem
  · refine .inl ⟨hsleep, (htime _ ?_).trans hwake⟩
    -- it does not go to sleep once more, as it is in the sleep queue
    rintro ms rfl hms hc
    obtain ⟨-, hqueued, -⟩ := (hok.resolve_left hms).resolve_left (by rw [hc]; simp)
    exact hqueued _ (.inr rfl) ((hG.queued_iff (.inr rfl)).2 hmem)
  · rw [hclock, if_pos rfl]
    exact .inr (hwake ▸ hdue)

theorem InQueue.call (h : InQueue t σ) (hok : σ.Restful e) (hrun : σ.call fuel e = some σ') :
    InQueue t σ' ∨ σ.selected fuel e = some t := by
  obtain ⟨G, hG, L, hL, hmem⟩ := h
  obtain ⟨G', hG', hmoves⟩ := hG.call hok hrun
  rcases hL with rfl | rfl
  · exact (hmoves.waits t hmem).imp_left fun h => ⟨G', hG', _, .inl rfl, h⟩
  · obtain hsleep | ⟨-, -, hready⟩ := hmoves.sleeps t hmem
    · exact .inl ⟨G', hG', _, .inr rfl, hsleep⟩
    · exact .inl ⟨G', hG', _, .inl rfl, hready⟩

/-- The idle thread, out of all queues. -/
def Gone (t : ℕ) (σ : Sched) : Prop :=
  ∃ G, Queues G σ ∧ t = σ.idleThread ∧ ∀ L, IsQueue L → t ∉ G L

/-- **A thread that is gone** is not chosen, and stays gone unless somebody brings it back. -/
theorem Gone.call (h : Gone t σ) (hok : σ.Restful e) (hrecalls : ¬ σ.Recalls t e)
    (hrun : σ.call fuel e = some σ') : σ.selected fuel e ≠ some t ∧ Gone t σ' := by
  obtain ⟨G, hG, rfl, hout⟩ := h
  obtain ⟨G', hG', hmoves⟩ := hG.call hok hrun
  refine ⟨fun hsel => ?_, G', hG', (call_clock hrun).1.symm, fun L hL hmem => ?_⟩
  · obtain hready | ⟨-, hne⟩ := hmoves.selected _ hsel
    · exact hout _ (.inl rfl) hready
    · exact hne rfl
  · obtain ⟨M, hM, hmem⟩ | rfl | ⟨hc, hne | hms⟩ := hmoves.enters L hL _ hmem
    · exact hout M hM hmem
    · exact hrecalls (.inl rfl)
    · exact hne rfl
    · exact hrecalls (.inr ⟨hc, hms⟩)

/-- **Exiting.** -/
theorem Queues.exit (h : Queues G σ) (hok : σ.Restful .exit) (hrun : σ.call fuel .exit = some σ')
    (hc : σ.currentThread = some t) : σ.selected fuel .exit ≠ some t ∧ Gone t σ' := by
  obtain ⟨hcur, hqueued⟩ := hok.resolve_left (by rw [hc]; simp)
  obtain rfl : t = σ.idleThread := Option.some.inj (hc.symm.trans hcur)
  have hgone : Gone σ.idleThread σ := ⟨G, h, rfl, fun L hL => mt (h.queued_iff hL).2 (hqueued L hL)⟩
  exact hgone.call hok (by simp [Recalls]) hrun

/-- **Sleeping and exited threads** do not run, as long as every call of the run is restful: after
`sched_thread_sleep(ms)` the thread is not chosen before the time has come, and is in exactly one
queue until it is chosen; after `sched_thread_exit` it is not chosen unless somebody brings it
back. -/
theorem sleepers_rest {σ₀ ρ : Sched} {c : ℕ} {evs₁ evs₂ : List SchedCall} (h₀ : WellQueued σ₀)
    (hall : EveryStep (Sched.call fuel) Restful σ₀ (evs₁ ++ e :: evs₂))
    (hrun₁ : evs₁.foldlM (fun s e => Sched.call fuel e s) σ₀ = some σ)
    (hrun : σ.call fuel e = some ρ) (hrun₂ : evs₂.foldlM (fun s e => Sched.call fuel e s) ρ = some τ)
    (hc : σ.currentThread = some c) :
    (∀ ms, e = .sleep ms → 0 < ms → σ.selected fuel e ≠ some c ∧
      (EveryStep (Sched.call fuel) (fun s _ => s.ticks < σ.ticks + ms) ρ evs₂ →
        ¬ SomeStep (Sched.call fuel) (fun s e => s.selected fuel e = some c) ρ evs₂) ∧
      (¬ SomeStep (Sched.call fuel) (fun s e => s.selected fuel e = some c) ρ evs₂ →
        ∃! L, IsQueue L ∧ τ.Queued L c)) ∧
    (e = .exit → σ.selected fuel e ≠ some c ∧
      (EveryStep (Sched.call fuel) (fun s e => ¬ s.Recalls c e) ρ evs₂ →
        ¬ SomeStep (Sched.call fuel) (fun s e => s.selected fuel e = some c) ρ evs₂)) := by
  obtain ⟨hall₁, hall⟩ := hall.append hrun₁
  obtain ⟨hok, hrest⟩ := hall
  have hall₂ := hrest ρ hrun
  obtain ⟨G, hG⟩ : WellQueued σ := hall₁.keeps hrun₁ h₀ fun s e s' hok ⟨G, hG⟩ hrun =>
    (hG.call hok hrun).imp fun _ h => h.1
  constructor
  · rintro ms rfl hms
    obtain ⟨hnot, hasleep⟩ := hG.sleep hok (Nat.pos_iff_ne_zero.1 hms) hrun hc
    refine ⟨hnot, fun hearly => ?_, fun hunchosen => ?_⟩
    · refine (everyStep_and hall₂ hearly).not_someStep hrun₂ hasleep fun s e s' hstep hs hrun => ?_
      exact ⟨hs.not_selected hstep.2 hstep.1 hrun, hs.call hstep.2 hstep.1 hrun⟩
    · have hticks : ρ.ticks < σ.ticks + ms := by
        rw [(call_clock hrun).2.1, if_neg (by simp)]
        omega
      obtain ⟨G', hG', hmem⟩ : InQueue c τ := (keeps_or_someStep hall₂ hrun₂ (hasleep.inQueue hticks)
        fun s e s' hok hs hrun => hs.call hok hrun).resolve_right hunchosen
      exact hG'.existsUnique hmem
  · rintro rfl
    have hout := hG.exit hok hrun hc
    refine ⟨hout.1, fun hunrecalled => ?_⟩
    exact (everyStep_and hall₂ hunrecalled).not_someStep hrun₂ hout.2 fun s e s' hstep hs hrun =>
      hs.call hstep.1 hstep.2 hrun

theorem wellQueued_hostSched (o : Option ℕ) : WellQueued { hostSched with currentThread := o } :=
  ⟨fun _ => [], ⟨fun _ _ => ⟨rfl, rfl⟩, False.elim⟩, fun _ _ _ _ _ _ hx => absurd hx (by simp),
    fun _ _ _ _ _ => by simp⟩

/-- The idle thread sleeps for five ticks; one tick goes by. -/
theorem sleepers_rest_idle :
    ∃ ρ τ, Sched.call 2 (.sleep 5) { hostSched with currentThread := some 0 } = some ρ ∧
      [SchedCall.tick, .yield].foldlM (fun s e => Sched.call 2 e s) ρ = some τ ∧
      (EveryStep (Sched.call 2) (fun s _ => s.ticks < 5) ρ [.tick, .yield] →
        ¬ SomeStep (Sched.call 2) (fun s e => s.selected 2 e = some 0) ρ [.tick, .yield]) := by
  obtain ⟨ρ, hrun⟩ := Option.isSome_iff_exists.1 (show
    (Sched.call 2 (.sleep 5) { hostSched with currentThread := some 0 }).isSome = true by decide)
  obtain ⟨τ, hrun₂⟩ : ∃ τ, [SchedCall.tick, .yield].foldlM (fun s e => Sched.call 2 e s) ρ = some τ := by
    have hall : ((Sched.call 2 (.sleep 5) { hostSched with currentThread := some 0 }).bind fun ρ =>
        [SchedCall.tick, .yield].foldlM (fun s e => Sched.call 2 e s) ρ).isSome = true := by decide
    rw [hrun] at hall
    exact Option.isSome_iff_exists.1 hall
  have hout : ∀ L, IsQueue L → ¬ Queued L 0 { hostSched with currentThread := some 0 } :=
    fun _ _ => not_linked_none
  have hafter : EveryStep (Sched.call 2) Restful ρ [.tick, .yield] :=
    ⟨trivial, fun _ _ => ⟨trivial, fun _ _ => trivial⟩⟩
  have hall : EveryStep (Sched.call 2) Restful { hostSched with currentThread := some 0 }
      ([] ++ .sleep 5 :: [.tick, .yield]) := by
    refine ⟨.inr (.inr ⟨rfl, hout, by decide⟩), fun ρ' hrun' => ?_⟩
    obtain rfl : ρ = ρ' := Option.some.inj (hrun.symm.trans hrun')
    exact hafter
  have hrest := (sleepers_rest (wellQueued_hostSched (some 0)) hall rfl hrun hrun₂ rfl).1 5 rfl (by decide)
  exact ⟨ρ, τ, hrun, hrun₂, hrest.2.1⟩

/-- Thread `1`, which is not the idle thread, sleeps for five ticks and is chosen at once. -/
theorem not_sleepers_rest :
    ¬ ∀ (fuel ms c : ℕ) (σ ρ : Sched), WellQueued σ → σ.currentThread = some c → 0 < ms →
      σ.call fuel (.sleep ms) = some ρ → σ.selected fuel (.sleep ms) ≠ some c := by
  intro h
  obtain ⟨ρ, hrun⟩ := Option.isSome_iff_exists.1 (show
    (Sched.call 2 (.sleep 5) hostSched).isSome = true by decide)
  exact h 2 5 1 hostSched ρ (wellQueued_hostSched (some 1)) rfl (by decide) hrun (by decide)

end Sched

end Flopperating
