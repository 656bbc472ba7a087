/-
# What the scheduler's functions do

The best thread of a list is the first of the best class and the highest priority
(`findRound_foldl`); a boost adds one to every wait and raises the threads that have waited for
long (`schedBoostStarvedThreads_spec`); and `sched_select_next` takes the best thread out of the
ready queue and changes nothing else (`schedSelectNext_cases`).
-/

import Flopperating.Task.ThreadLists
import Mathlib.Data.List.Nodup

namespace Flopperating

open LinkedList ThreadList

namespace Sched

variable {σ σ' : Sched} {thread : ℕ → Thread} {fuel t : ℕ} {l : List ℕ} {name : ListName}

/-! ### The best thread -/

theorem Better.trans {a b c : ℕ} (h₁ : Better thread a (some b)) (h₂ : Better thread b (some c)) :
    Better thread a (some c) := by
  rcases h₁ with h₁ | ⟨h₁, h₁'⟩ <;> rcases h₂ with h₂ | ⟨h₂, h₂'⟩
  · exact .inl (h₁.trans h₂)
  · exact .inl (h₂ ▸ h₁)
  · exact .inl (h₁ ▸ h₂)
  · exact .inr ⟨h₁.trans h₂, h₂'.trans h₁'⟩

/-- What is not better than `b` is not better than anything better than `b`. -/
theorem Better.of_not {a b c : ℕ} (h₁ : ¬ Better thread b (some a)) (h₂ : Better thread c (some a)) :
    ¬ Better thread b (some c) := fun h => h₁ (h.trans h₂)

/-- **The best thread** is the first that no other is better than: better than all before it, and
none after it is better. -/
theorem findRound_foldl (thread : ℕ → Thread) (hl : l ≠ []) :
    ∃ a best b, l = a ++ best :: b ∧
      l.foldl (findRound thread) ⟨none, none, none⟩ = ⟨some best, a.getLast?, l.getLast?⟩ ∧
      (∀ x ∈ a, Better thread best (some x)) ∧ ∀ x ∈ b, ¬ Better thread x (some best) := by
  induction l using List.reverseRecOn with
  | nil => exact absurd rfl hl
  | append_singleton l i ih =>
    rw [List.foldl_append, List.foldl_cons, List.foldl_nil, List.getLast?_concat]
    by_cases hnil : l = []
    · subst hnil
      exact ⟨[], i, [], rfl, by simp [findRound, Better], by simp, by simp⟩
    obtain ⟨a, best, b, rfl, hfold, hbefore, hafter⟩ := ih hnil
    rw [hfold, findRound]
    by_cases hbetter : Better thread i (some best)
    · refine ⟨a ++ best :: b, i, [], rfl, if_pos hbetter, fun x hx => ?_, by simp⟩
      rcases List.mem_append.1 hx with hx | hx
      · exact hbetter.trans (hbefore x hx)
      rcases List.mem_cons.1 hx with rfl | hx
      · exact hbetter
      · -- `x` is no better than `best`, so `i`, which is, is better than `x`
        have hnot := hafter x hx
        have hni : ¬ Better thread x (some i) := Better.of_not hnot hbetter
        unfold Better at hbetter hnot hni ⊢
        omega
    · refine ⟨a, best, b ++ [i], by simp, if_neg hbetter, hbefore, fun x hx => ?_⟩
      rcases List.mem_append.1 hx with hx | hx
      · exact hafter x hx
      · exact List.mem_singleton.1 hx ▸ hbetter

/-! ### The boost -/

/-- The fields that choosing a thread leaves alone. -/
structure Kept (th th' : Thread) : Prop where
  user : th'.user = th.user
  cls : th'.cls = th.cls
  base : th'.base = th.base
  threadState : th'.threadState = th.threadState
  process : th'.process = th.process
  wakeTime : th'.wakeTime = th.wakeTime

theorem Kept.refl (th : Thread) : Kept th th := ⟨rfl, rfl, rfl, rfl, rfl, rfl⟩

theorem Kept.trans {th th' th'' : Thread} (h : Kept th th') (h' : Kept th' th'') : Kept th th'' :=
  ⟨h'.user.trans h.user, h'.cls.trans h.cls, h'.base.trans h.base,
    h'.threadState.trans h.threadState, h'.process.trans h.process, h'.wakeTime.trans h.wakeTime⟩

/-- What a boost does to a thread of the list. -/
structure Boosted (th th' : Thread) : Prop where
  kept : Kept th th'
  timeSlice : th'.timeSlice = th.timeSlice
  time : th'.timeSinceLastRun = u32 (th.timeSinceLastRun + 1)
  /-- A thread that has not waited for long keeps its priority. -/
  still : ¬ (th.cls = .normal ∧ starvationThreshold < th'.timeSinceLastRun) →
    th'.effective = th.effective
  /-- One that has gets a higher one, up to the highest. -/
  raised : th.cls = .normal → starvationThreshold < th'.timeSinceLastRun →
    th.effective ≤ maxPriority → th'.effective ≤ maxPriority ∧
      (th.effective < th'.effective ∨ th'.effective = maxPriority)

/-- `thread->time_since_last_run++`. -/
def waited (th : Thread) : Thread := { th with timeSinceLastRun := u32 (th.timeSinceLastRun + 1) }

/-- **The first loop.** -/
theorem waitRound_foldl (hl : l.Nodup) (thread : ℕ → Thread) :
    (∀ t, (l.foldl waitRound (0, thread)).2 t = if t ∈ l then waited (thread t) else thread t) ∧
    ∀ t ∈ l, (thread t).cls = .normal →
      (waited (thread t)).timeSinceLastRun ≤ (l.foldl waitRound (0, thread)).1 := by
  induction l using List.reverseRecOn with
  | nil => exact ⟨fun t => by simp, by simp⟩
  | append_singleton l i ih =>
    obtain ⟨hl, hi⟩ := nodup_snoc.1 hl
    obtain ⟨hthread, hmax⟩ := ih hl
    rw [List.foldl_append, List.foldl_cons, List.foldl_nil]
    have hsame : (l.foldl waitRound (0, thread)).2 i = thread i := by rw [hthread, if_neg hi]
    refine ⟨fun t => ?_, fun t ht hcls => ?_⟩
    · rw [waitRound]
      by_cases hti : t = i
      · subst hti
        simp [hsame, waited]
      · have hmem : t ∈ l ++ [i] ↔ t ∈ l := by simp [hti]
        rw [if_congr hmem rfl rfl, ← hthread]
        exact Function.update_of_ne hti _ _
    · rw [waitRound, hsame]
      rcases List.mem_append.1 ht with ht | ht
      · have := hmax t ht hcls
        dsimp only
        split <;> omega
      · obtain rfl := List.mem_singleton.1 ht
        dsimp only [waited]
        split
        · exact le_rfl
        · next hmore => exact Nat.le_of_not_lt fun hlt => hmore ⟨hcls, hlt⟩

/-- **The second loop.** -/
theorem boostRound_foldl (hl : l.Nodup) (maxWait : ℕ) (thread : ℕ → Thread) (t : ℕ) :
    l.foldl (boostRound maxWait) thread t =
      if t ∈ l ∧ (thread t).cls = .normal ∧ starvationThreshold < (thread t).timeSinceLastRun then
        boosted maxWait (thread t)
      else thread t := by
  induction l using List.reverseRecOn generalizing t with
  | nil => simp
  | append_singleton l i ih =>
    obtain ⟨hl, hi⟩ := nodup_snoc.1 hl
    have hsame : l.foldl (boostRound maxWait) thread i = thread i := by
      rw [ih hl, if_neg fun h => hi h.1]
    rw [List.foldl_append, List.foldl_cons, List.foldl_nil, boostRound, hsame]
    by_cases hti : t = i
    · subst hti
      split
      · next hlong =>
        rw [Function.update_self, if_pos ⟨by simp, hlong⟩]
      · next hlong =>
        rw [hsame, if_neg fun h => hlong h.2]
    · have hmem : t ∈ l ++ [i] ↔ t ∈ l := by simp [hti]
      simp only [hmem]
      rw [← ih hl]
      split
      · exact Function.update_of_ne hti _ _
      · rfl

theorem boosted_eq (maxWait : ℕ) (th : Thread) :
    ∃ boost, 0 < boost ∧ boost ≤ u32 (th.timeSinceLastRun * boostAmount) / maxWait + 1 ∧
      boosted maxWait th = { th with
        effective := if maxPriority ≤ u32 (th.effective + boost) then maxPriority
          else u32 (th.effective + boost) } := by
  rw [boosted]
  generalize u32 (th.timeSinceLastRun * boostAmount) / maxWait = quotient
  refine ⟨if quotient = 0 then 1 else quotient, ?_, ?_, ?_⟩
  · split <;> omega
  · split <;> omega
  · by_cases hmax : maxPriority ≤ u32 (th.effective + if quotient = 0 then 1 else quotient)
    · rw [if_pos hmax, if_pos hmax]
    · rw [if_neg hmax, if_neg hmax]

/-- A boost is at least one, and the priority stays in its range. -/
theorem boosted_spec {maxWait : ℕ} {th : Thread} (hmax : starvationThreshold < maxWait)
    (hle : th.effective ≤ maxPriority) : (boosted maxWait th).effective ≤ maxPriority ∧
      (th.effective < (boosted maxWait th).effective ∨ (boosted maxWait th).effective = maxPriority) := by
  have hdiv : u32 (th.timeSinceLastRun * boostAmount) / maxWait ≤ 2 ^ 32 / 1001 :=
    Nat.div_le_div (Nat.le_of_lt (u32_lt _)) hmax (by decide)
  obtain ⟨boost, hpos, hle', heq⟩ := boosted_eq maxWait th
  have hwrap : u32 (th.effective + boost) = th.effective + boost := by
    refine u32_of_lt ?_
    have : (2 : ℕ) ^ 32 / 1001 + 257 < 2 ^ 32 := by decide
    simp only [maxPriority] at hle
    omega
  rw [heq, hwrap]
  by_cases htop : maxPriority ≤ th.effective + boost
  · rw [if_pos htop]
    exact ⟨le_rfl, .inr rfl⟩
  · rw [if_neg htop]
    exact ⟨Nat.le_of_not_le htop, .inl (Nat.lt_add_of_pos_right hpos)⟩

theorem boosted_kept (maxWait : ℕ) (th : Thread) : Kept th (boosted maxWait th) ∧
    (boosted maxWait th).timeSlice = th.timeSlice ∧
    (boosted maxWait th).timeSinceLastRun = th.timeSinceLastRun := by
  obtain ⟨boost, -, -, heq⟩ := boosted_eq maxWait th
  rw [heq]
  exact ⟨⟨rfl, rfl, rfl, rfl, rfl, rfl⟩, rfl, rfl⟩

/-- **The boost** reaches the threads of the list and no others. -/
theorem schedBoostStarvedThreads_spec (h : σ.schedBoostStarvedThreads fuel name = some σ') :
    ∃ l thread, Chain σ.next (σ.list name).head l ∧ l.length ≤ fuel ∧
      σ' = { σ with thread := thread } ∧ (∀ t ∈ l, Boosted (σ.thread t) (thread t)) ∧
      ∀ t ∉ l, thread t = σ.thread t := by
  rw [schedBoostStarvedThreads] at h
  obtain ⟨l, hwalk, rfl⟩ := Option.map_eq_some_iff.1 h
  obtain ⟨hchain, hlen⟩ := walk_eq_some_iff.1 hwalk
  obtain ⟨hthread, hmax⟩ := waitRound_foldl hchain.nodup σ.thread
  refine ⟨l, _, hchain, hlen, rfl, fun t ht => ?_, fun t ht => ?_⟩
  · have hw : (l.foldl waitRound (0, σ.thread)).2 t = waited (σ.thread t) := by
      rw [hthread, if_pos ht]
    split
    · next hlong =>
      rw [boostRound_foldl hchain.nodup, hw]
      split
      · next hstarved =>
        obtain ⟨hkept, hslice, htime⟩ := boosted_kept (l.foldl waitRound (0, σ.thread)).1
          (waited (σ.thread t))
        have hwaited : Kept (σ.thread t) (waited (σ.thread t)) := ⟨rfl, rfl, rfl, rfl, rfl, rfl⟩
        exact ⟨hwaited.trans hkept, hslice, htime, fun hstill => absurd ⟨hstarved.2.1, htime ▸ hstarved.2.2⟩ hstill,
          fun _ _ hle => boosted_spec hlong hle⟩
      · next hstarved =>
        exact ⟨⟨rfl, rfl, rfl, rfl, rfl, rfl⟩, rfl, rfl, fun _ => rfl,
          fun hcls htime _ => absurd ⟨ht, hcls, htime⟩ hstarved⟩
    · next hlong =>
      rw [hw]
      exact ⟨⟨rfl, rfl, rfl, rfl, rfl, rfl⟩, rfl, rfl, fun _ => rfl,
        fun hcls htime _ => absurd (htime.trans_le (hmax t ht hcls)) hlong⟩
  · have hw : (l.foldl waitRound (0, σ.thread)).2 t = σ.thread t := by rw [hthread, if_neg ht]
    split
    · rw [boostRound_foldl hchain.nodup, hw, if_neg fun h => ht h.1]
    · exact hw

/-! ### Choosing -/

/-- What `sched_select_next` returns and leaves. -/
inductive SelectStep (fuel : ℕ) (σ : Sched) : Option ℕ → Sched → Prop
  | empty : (σ.list .readyQueue).head = none → SelectStep fuel σ none σ
  | take {a b : List ℕ} {best : ℕ} {thread : ℕ → Thread} (slice : ℕ)
      (chain : Chain σ.next (σ.list .readyQueue).head (a ++ best :: b))
      (length : (a ++ best :: b).length ≤ fuel)
      (boost : ∀ t ∈ a ++ best :: b, Boosted (σ.thread t) (thread t))
      (others : ∀ t ∉ a ++ best :: b, thread t = σ.thread t)
      (before : ∀ x ∈ a, Better thread best (some x))
      (after : ∀ x ∈ b, ¬ Better thread x (some best)) :
      SelectStep fuel σ (some best) { σ with
        next := unlinkLinks best a.getLast? σ.next
        list := Function.update σ.list .readyQueue
          (unlink best a.getLast? (σ.list .readyQueue, σ.next)).1
        thread := Function.update thread best { thread best with timeSlice := slice } }

theorem schedSelectNext_cases {o : Option ℕ} (h : σ.schedSelectNext fuel = some (o, σ')) :
    SelectStep fuel σ o σ' := by
  obtain ⟨τ, hboost, hselect⟩ := Option.bind_eq_some_iff.1 h
  obtain ⟨l, thread, hchain, hlen, rfl, hin, hout⟩ := schedBoostStarvedThreads_spec hboost
  obtain ⟨found, hfind, hresult⟩ := Option.map_eq_some_iff.1 hselect
  obtain ⟨l', hwalk, rfl⟩ := Option.map_eq_some_iff.1 hfind
  obtain rfl : l = l' := hchain.unique (walk_eq_some_iff.1 hwalk).1
  by_cases hnil : l = []
  · subst hnil
    obtain ⟨rfl, rfl⟩ := Prod.mk.inj hresult
    have hthread : thread = σ.thread := funext fun t => hout t List.not_mem_nil
    subst hthread
    exact .empty hchain
  · obtain ⟨a, best, b, rfl, hfold, hbefore, hafter⟩ := findRound_foldl thread hnil
    dsimp only at hresult
    rw [hfold] at hresult
    obtain ⟨rfl, rfl⟩ := Prod.mk.inj hresult
    dsimp only [onList, schedUnlinkThread, schedAssignTimeSlice, setThread]
    rw [unlink_links]
    exact .take _ hchain hlen hin hout hbefore hafter

/-! ### Calls -/

/-- The thread is met on the way through a queue. -/
def Queued (L : ListName) (t : ℕ) (σ : Sched) : Prop := Linked σ.next (σ.list L).head t

theorem setThread_thread_of_ne {v : Thread} {u : ℕ} (hu : u ≠ t) :
    (σ.setThread t v).thread u = σ.thread u := Function.update_of_ne hu _ _

theorem setThread_thread_self {v : Thread} : (σ.setThread t v).thread t = v :=
  Function.update_self ..

theorem onList?_eq_some {op : Linked → Option Linked} (h : σ.onList? name op = some σ') :
    ∃ s, op (σ.list name, σ.next) = some s ∧
      σ' = { σ with next := s.2, list := Function.update σ.list name s.1 } := by
  obtain ⟨s, hs, rfl⟩ := Option.map_eq_some_iff.1 h
  exact ⟨s, hs, rfl⟩

/-- The call returns at once. -/
def ReturnsAtOnce (σ : Sched) : SchedCall → Prop
  | .yield | .exit | .block => σ.currentThread = none
  | .sleep ms => σ.currentThread = none ∨ ms = 0
  | .vmmSwitch region => region = none
  | .schedule | .unblock _ | .tick => False

theorem ReturnsAtOnce.scheduling {e : SchedCall} (h : σ.ReturnsAtOnce e) : σ.scheduling e = none := by
  cases e with
  | yield => exact if_pos h
  | exit => exact if_pos h
  | block => exact if_pos h
  | sleep ms => exact if_pos h
  | vmmSwitch region => rfl
  | schedule => exact h.elim
  | unblock t => rfl
  | tick => rfl

/-- What a call does. -/
inductive CallStep (fuel : ℕ) (σ : Sched) : SchedCall → Sched → Prop
  | nothing {e : SchedCall} : σ.ReturnsAtOnce e → CallStep fuel σ e σ
  | schedule (e : SchedCall) {τ σ' : Sched} : σ.scheduling e = some τ → τ.schedSchedule fuel = some σ' →
      CallStep fuel σ e σ'
  | unblock {t : ℕ} {σ' : Sched} : σ.schedUnblock t = some σ' → CallStep fuel σ (.unblock t) σ'
  | tick {σ' : Sched} : σ.schedTick fuel = some σ' → CallStep fuel σ .tick σ'
  | vmmSwitch (r : ℕ) :
      CallStep fuel σ (.vmmSwitch (some r)) { σ with vmm := Flopperating.vmmSwitch r σ.vmm }

theorem schedYield_cases (h : σ.schedYield fuel = some σ') :
    σ.currentThread = none ∧ σ' = σ ∨
      σ.currentThread ≠ none ∧ ∃ τ, σ.schedYieldEnqueue = some τ ∧ τ.schedSchedule fuel = some σ' := by
  unfold schedYield at h
  split at h
  · next hnone => exact .inl ⟨hnone, (Option.some.inj h).symm⟩
  · next hsome => exact .inr ⟨hsome, Option.bind_eq_some_iff.1 h⟩

theorem schedSleepEnqueue_currentThread {ms : ℕ} (h : σ.schedSleepEnqueue ms = some σ') :
    σ'.currentThread = σ.currentThread := by
  unfold schedSleepEnqueue at h
  split at h
  · obtain ⟨s, -, rfl⟩ := onList?_eq_some h
    rfl
  · exact congrArg currentThread (Option.some.inj h).symm

/-- **A call** comes to `sched_schedule` or is one of the others. -/
theorem call_cases {e : SchedCall} (h : σ.call fuel e = some σ') : CallStep fuel σ e σ' := by
  cases e with
  | schedule => exact .schedule _ rfl h
  | yield =>
    rcases schedYield_cases h with ⟨hnone, rfl⟩ | ⟨hsome, τ, hτ, hrun⟩
    · exact .nothing hnone
    · exact .schedule _ ((if_neg hsome).trans hτ) hrun
  | exit =>
    rcases schedYield_cases h with ⟨hnone, rfl⟩ | ⟨hsome, τ, hτ, hrun⟩
    · exact .nothing hnone
    · exact .schedule _ ((if_neg hsome).trans hτ) hrun
  | block =>
    rw [call, schedBlock] at h
    split at h
    · next hnone =>
      obtain rfl := Option.some.inj h
      exact .nothing hnone
    · next hsome => exact .schedule _ (if_neg hsome) h
  | sleep ms =>
    rw [call, schedThreadSleep] at h
    split at h
    · next hnone =>
      obtain rfl := Option.some.inj h
      exact .nothing hnone
    · next hsome =>
      obtain ⟨ρ, hρ, hrun⟩ := Option.bind_eq_some_iff.1 h
      rcases schedYield_cases hrun with ⟨hnone, -⟩ | ⟨-, τ, hτ, hrun⟩
      · rw [schedSleepEnqueue_currentThread hρ] at hnone
        exact absurd (.inl hnone) hsome
      · refine .schedule _ (τ := τ) ?_ hrun
        rw [scheduling, if_neg hsome, hρ]
        exact hτ
  | unblock t => exact .unblock h
  | tick => exact .tick h
  | vmmSwitch region =>
    cases region with
    | none =>
      obtain rfl := Option.some.inj h
      exact .nothing rfl
    | some r =>
      obtain rfl := Option.some.inj h
      exact .vmmSwitch r

end Sched

end Flopperating
