/-
# Bounded waiting

A thread of the class `SCHED_CLASS_NORMAL` that is in the ready queue is passed over only so many
times, as long as no thread of a better class comes along.  Each choice adds one to its
`time_since_last_run`; above `STARVATION_THRESHOLD` each choice raises its priority too, which
nothing lowers, until it is `MAX_PRIORITY`.  How many choices that takes is at most `untilTop`.
From then on a thread is only chosen before it if it is ahead of it in the queue, so each choice
takes one of those away (`schedSchedule_passes`).
-/

import Flopperating.Data.Transition
import Flopperating.Task.SchedSpec
import Mathlib.Data.Finset.Card

namespace Flopperating

open LinkedList ThreadList Transition

/-- How many choices a thread is passed over before its priority is the highest: the calls that
raise it, and those before it has waited for long, now or after its time has wrapped. -/
def untilTop (th : Thread) : ℕ :=
  if maxPriority ≤ th.effective then 0
  else maxPriority - th.effective +
    if th.timeSinceLastRun ≤ starvationThreshold then starvationThreshold - th.timeSinceLastRun
    else if th.timeSinceLastRun + (maxPriority - th.effective) < 2 ^ 32 then 0
    else starvationThreshold + 1

theorem untilTop_of_top {th : Thread} (htop : maxPriority ≤ th.effective) : untilTop th = 0 := if_pos htop

theorem untilTop_le (th : Thread) : untilTop th ≤ starvationThreshold + maxPriority + 1 := by
  unfold untilTop
  split_ifs <;> omega

namespace Sched

variable {σ σ' τ ρ : Sched} {fuel t : ℕ} {e : SchedCall} {o : Option ℕ} {N : Finset ℕ}
  {l a b : List ℕ}

/-- **A boost** brings the thread nearer to the highest priority, unless it gets it. -/
theorem Boosted.untilTop_le {th th' : Thread} (h : Boosted th th') (hcls : th.cls = .normal)
    (heff : th.effective ≤ maxPriority) (htime : th.timeSinceLastRun < 2 ^ 32) :
    untilTop th' ≤ untilTop th ∧ (th'.effective < maxPriority → untilTop th' < untilTop th) := by
  have hnext : u32 (th.timeSinceLastRun + 1) =
      if th.timeSinceLastRun + 1 < 2 ^ 32 then th.timeSinceLastRun + 1 else 0 := by
    split
    · next hlt => exact u32_of_lt hlt
    · next hge =>
      obtain heq : th.timeSinceLastRun + 1 = 2 ^ 32 := by omega
      rw [heq]
      rfl
  have htime' := h.time.trans hnext
  have hfar : starvationThreshold + maxPriority + 1 < 2 ^ 32 := by decide
  by_cases htop : maxPriority ≤ th'.effective
  · rw [untilTop_of_top htop]
    exact ⟨Nat.zero_le _, fun hlt => absurd htop (Nat.not_le.2 hlt)⟩
  · have hless : untilTop th' < untilTop th := by
      by_cases hlong : starvationThreshold < th'.timeSinceLastRun
      · -- it waits for long, so its time has not wrapped, and it is raised
        obtain ⟨hle, hmore⟩ := h.raised hcls hlong heff
        have hone : th'.timeSinceLastRun = th.timeSinceLastRun + 1 := by
          split_ifs at htime'
          · exact htime'
          · omega
        have htop₀ : ¬ maxPriority ≤ th.effective := by omega
        rw [untilTop, untilTop, if_neg htop, if_neg (Nat.not_le.2 hlong), if_neg htop₀, hone]
        split_ifs <;> omega
      · have hsame := h.still fun hstarved => hlong hstarved.2
        have htop₀ : ¬ maxPriority ≤ th.effective := by rwa [← hsame]
        rw [untilTop, untilTop, if_neg htop, if_pos (Nat.not_lt.1 hlong), if_neg htop₀, hsame]
        refine Nat.add_lt_add_left ?_ _
        split_ifs at htime' ⊢ <;> omega
    exact ⟨hless.le, fun _ => hless⟩

/-! ### The ready queue -/

/-- The ready queue holds `l`: no thread of the best class, and the ordinary ones are of `N`. -/
structure ReadyList (N : Finset ℕ) (l : List ℕ) (σ : Sched) : Prop where
  shaped : Shaped l (σ.list .readyQueue, σ.next)
  classes : ∀ t ∈ l, (σ.thread t).cls ≠ .realtime ∧ ((σ.thread t).cls = .normal → t ∈ N)
  effective : ∀ t, (σ.thread t).cls = .normal → (σ.thread t).effective ≤ maxPriority
  time : ∀ t, (σ.thread t).timeSinceLastRun < 2 ^ 32

/-- A thread may go to the ready queue: it is not in there, and of the right class. -/
def MayEnqueue (N : Finset ℕ) (t : ℕ) (σ : Sched) : Prop :=
  (σ.thread t).cls ≠ .realtime ∧ ((σ.thread t).cls = .normal → t ∈ N) ∧ ¬ σ.Queued .readyQueue t

/-- The calls of a run of `sched_enqueue` and `sched_schedule`, with what is asked of the threads
that are put in the ready queue. -/
def OrdinaryCall (N : Finset ℕ) (σ : Sched) : SchedCall → Prop
  | .unblock t => σ.MayEnqueue N t
  | .yield | .exit => ∀ c ∈ σ.currentThread, c ≠ σ.idleThread → σ.MayEnqueue N c
  | .schedule | .block | .vmmSwitch _ => True
  | .sleep _ | .tick => False

/-- What counts when a thread is chosen. -/
structure SameTurn (th th' : Thread) : Prop where
  cls : th'.cls = th.cls
  effective : th'.effective = th.effective
  time : th'.timeSinceLastRun = th.timeSinceLastRun

theorem SameTurn.refl (th : Thread) : SameTurn th th := ⟨rfl, rfl, rfl⟩

theorem SameTurn.untilTop_eq {th th' : Thread} (h : SameTurn th th') : untilTop th' = untilTop th := by
  rw [untilTop, untilTop, h.effective, h.time]

theorem sameTurn_setThread {v : Thread} (hv : SameTurn (σ.thread t) v) (u : ℕ) :
    SameTurn (σ.thread u) ((σ.setThread t v).thread u) := by
  by_cases hu : u = t
  · rw [hu, setThread_thread_self]
    exact hv
  · rw [setThread_thread_of_ne hu]
    exact .refl _

theorem ReadyList.congr (h : ReadyList N l σ) (hnext : σ'.next = σ.next)
    (hlist : σ'.list .readyQueue = σ.list .readyQueue)
    (hthread : ∀ t, (σ'.thread t).cls = (σ.thread t).cls ∧ (σ'.thread t).effective = (σ.thread t).effective ∧
      (σ'.thread t).timeSinceLastRun < 2 ^ 32) : ReadyList N l σ' := by
  refine ⟨?_, fun t ht => ?_, fun t hcls => ?_, fun t => (hthread t).2.2⟩
  · rw [hnext, hlist]
    exact h.shaped
  · rw [(hthread t).1]
    exact h.classes t ht
  · rw [(hthread t).1] at hcls
    rw [(hthread t).2.1]
    exact h.effective t hcls

/-- **A thread that comes** goes behind the others. -/
theorem ReadyList.enqueue (h : ReadyList N l σ) (hmay : σ.MayEnqueue N t)
    (hrun : σ.onList? .readyQueue (append t) = some σ') :
    ReadyList N (l ++ [t]) σ' ∧ σ'.thread = σ.thread := by
  obtain ⟨hreal, hN, hout⟩ := hmay
  have ht : t ∉ l := fun ht => hout (h.shaped.chain.linked_iff.2 ht)
  obtain ⟨s, hs, rfl⟩ := onList?_eq_some hrun
  have happend := append_eq (t := t) h.shaped.chain.head_eq h.shaped.tail
  rw [happend] at hs
  obtain rfl := Option.some.inj hs
  refine ⟨⟨?_, fun u hu => ?_, h.effective, h.time⟩, rfl⟩
  · dsimp only
    rw [Function.update_self]
    exact h.shaped.append ht
  · rcases List.mem_append.1 hu with hu | hu
    · exact h.classes u hu
    · obtain rfl := List.mem_singleton.1 hu
      exact ⟨hreal, hN⟩

theorem better_congr {thread thread' : ℕ → Thread} (h : ∀ t, SameTurn (thread t) (thread' t)) (x : ℕ)
    (best : ℕ) : Better thread' x (some best) ↔ Better thread x (some best) := by
  simp only [Better, (h x).cls, (h x).effective, (h best).cls, (h best).effective]

/-- **A choice** takes the best thread out of the queue and boosts the others. -/
theorem ReadyList.select (h : ReadyList N l σ) (hstep : SelectStep fuel σ o σ') :
    (o = none ∧ l = [] ∧ σ' = σ) ∨
    ∃ a best b, l = a ++ best :: b ∧ o = some best ∧ ReadyList N (a ++ b) σ' ∧
      (∀ t ∈ a ++ b, Boosted (σ.thread t) (σ'.thread t)) ∧ (∀ t, (σ'.thread t).cls = (σ.thread t).cls) ∧
      (∀ x ∈ a, Better σ'.thread best (some x)) ∧ ∀ x ∈ b, ¬ Better σ'.thread x (some best) := by
  cases hstep with
  | empty hhead =>
    have hchain : Chain σ.next none l := hhead ▸ h.shaped.chain
    cases l with
    | nil => exact .inl ⟨rfl, rfl, rfl⟩
    | cons t l => exact absurd hchain.1 (by simp)
  | @take a b best thread slice chain length boost others before after =>
    obtain rfl := h.shaped.chain.unique chain
    obtain ⟨hbest, hnd⟩ := List.nodup_cons.1 (List.nodup_middle.1 chain.nodup)
    have hsub : ∀ t ∈ a ++ b, t ∈ a ++ best :: b := by
      simp only [List.mem_append, List.mem_cons]
      tauto
    have hturn : ∀ t, SameTurn (thread t)
        (Function.update thread best { thread best with timeSlice := slice } t) := by
      intro t
      by_cases ht : t = best
      · rw [ht, Function.update_self]
        exact ⟨rfl, rfl, rfl⟩
      · rw [Function.update_of_ne ht]
        exact ⟨rfl, rfl, rfl⟩
    have hthread : ∀ t, Boosted (σ.thread t) (thread t) ∨ thread t = σ.thread t := fun t =>
      if ht : t ∈ a ++ best :: b then .inl (boost t ht) else .inr (others t ht)
    have hcls : ∀ t, (thread t).cls = (σ.thread t).cls := fun t =>
      (hthread t).elim (fun h => h.kept.cls) fun h => congrArg Thread.cls h
    have hend : ReadyList N (a ++ b) { σ with
        next := unlinkLinks best a.getLast? σ.next
        list := Function.update σ.list .readyQueue
          (unlink best a.getLast? (σ.list .readyQueue, σ.next)).1
        thread := Function.update thread best { thread best with timeSlice := slice } } := by
      refine ⟨?_, fun t ht => ?_, fun t ht => ?_, fun t => ?_⟩
      · dsimp only
        rw [Function.update_self]
        exact unlink_links best a.getLast? (σ.list .readyQueue, σ.next) ▸ h.shaped.unlink
      · rw [(hturn t).cls, hcls]
        exact h.classes t (hsub t ht)
      · rw [(hturn t).cls, hcls] at ht
        rw [(hturn t).effective]
        obtain hboost | hsame := hthread t
        · by_cases hlong : starvationThreshold < (thread t).timeSinceLastRun
          · exact (hboost.raised ht hlong (h.effective t ht)).1
          · exact (hboost.still fun hstarved => hlong hstarved.2) ▸ h.effective t ht
        · exact hsame ▸ h.effective t ht
      · rw [(hturn t).time]
        obtain hboost | hsame := hthread t
        · exact hboost.time ▸ u32_lt _
        · exact hsame ▸ h.time t
    refine .inr ⟨a, best, b, rfl, rfl, hend, fun t ht => ?_, fun t => (hturn t).cls.trans (hcls t),
      fun x hx => (better_congr hturn best x).2 (before x hx),
      fun x hx hbetter => after x hx ((better_congr hturn x best).1 hbetter)⟩
    have hne : t ≠ best := ne_of_mem_of_not_mem ht hbest
    show Boosted _ (Function.update thread best _ t)
    rw [Function.update_of_ne hne]
    exact boost t (hsub t ht)

theorem schedSelectIdleIfNeeded_spec (o : Option ℕ) (σ : Sched) :
    (σ.schedSelectIdleIfNeeded o).1 = o.getD σ.idleThread ∧
    (∀ t, SameTurn (σ.thread t) ((σ.schedSelectIdleIfNeeded o).2.thread t)) ∧
    ∀ t, t ≠ o.getD σ.idleThread → (σ.schedSelectIdleIfNeeded o).2.thread t = σ.thread t := by
  cases o with
  | none => exact ⟨rfl, sameTurn_setThread ⟨rfl, rfl, rfl⟩, fun t ht => setThread_thread_of_ne ht⟩
  | some t => exact ⟨rfl, fun _ => .refl _, fun _ _ => rfl⟩

/-- What is left of `sched_schedule` resets the time of the thread that it goes on with. -/
theorem ReadyList.scheduleOn (h : ReadyList N l σ) (hrun : σ.schedScheduleOn o = some σ') :
    ReadyList N l σ' ∧ (∀ t, (σ'.thread t).cls = (σ.thread t).cls) ∧
      ∀ t, t ≠ o.getD σ.idleThread → σ'.thread t = σ.thread t := by
  obtain ⟨hchosen, hturn, hother⟩ := schedSelectIdleIfNeeded_spec o σ
  have hlists : (σ.schedSelectIdleIfNeeded o).2.next = σ.next ∧
      (σ.schedSelectIdleIfNeeded o).2.list = σ.list := by cases o <;> exact ⟨rfl, rfl⟩
  unfold schedScheduleOn at hrun
  dsimp only at hrun
  split at hrun
  · obtain rfl := Option.some.inj hrun
    exact ⟨h.congr hlists.1 (congrFun hlists.2 _)
      fun t => ⟨(hturn t).cls, (hturn t).effective, (hturn t).time ▸ h.time t⟩,
      fun t => (hturn t).cls, hother⟩
  · have hprepare : ∀ t, ((σ.schedSelectIdleIfNeeded o).2.schedPrepareThread
        (σ.schedSelectIdleIfNeeded o).1).thread t =
        if t = o.getD σ.idleThread then
          { (σ.schedSelectIdleIfNeeded o).2.thread t with timeSinceLastRun := 0 }
        else (σ.schedSelectIdleIfNeeded o).2.thread t := by
      intro t
      rw [← hchosen]
      split
      · next ht =>
        rw [ht]
        exact setThread_thread_self
      · next ht => exact setThread_thread_of_ne ht
    have hswitch : σ'.thread = ((σ.schedSelectIdleIfNeeded o).2.schedPrepareThread
        (σ.schedSelectIdleIfNeeded o).1).thread ∧ σ'.next = σ.next ∧ σ'.list = σ.list := by
      unfold schedDetermineAndSwitch at hrun
      dsimp only at hrun
      split at hrun
      · obtain ⟨r, -, rfl⟩ := Option.map_eq_some_iff.1 hrun
        exact ⟨rfl, hlists⟩
      · obtain rfl := Option.some.inj hrun
        exact ⟨rfl, hlists⟩
    obtain ⟨hthread, hnext, hlist⟩ := hswitch
    have hclass : ∀ t, (σ'.thread t).cls = (σ.thread t).cls := by
      intro t
      rw [hthread, hprepare]
      split <;> exact (hturn t).cls
    refine ⟨h.congr hnext (congrFun hlist _) fun t => ⟨hclass t, ?_, ?_⟩, hclass, fun t ht => ?_⟩
    · rw [hthread, hprepare]
      split <;> exact (hturn t).effective
    · rw [hthread, hprepare]
      split
      · exact Nat.two_pow_pos 32
      · exact (hturn t).time ▸ h.time t
    · rw [hthread, hprepare, if_neg ht]
      exact hother t ht

/-! ### Being passed over -/

/-- The ordinary threads that are ahead. -/
def ahead (σ : Sched) (a : List ℕ) : ℕ := (a.filter fun x => (σ.thread x).cls = .normal).length

theorem ahead_congr (h : ∀ x ∈ a, (σ'.thread x).cls = (σ.thread x).cls) : σ'.ahead a = σ.ahead a := by
  unfold ahead
  rw [List.filter_congr fun x hx => by rw [h x hx]]

/-- **A choice that passes a thread over** brings it nearer to its turn. -/
theorem schedSchedule_passes (h : ReadyList N (a ++ t :: b) σ) (hcls : (σ.thread t).cls = .normal)
    (hselect : σ.schedSelectNext fuel = some (o, ρ)) (hon : ρ.schedScheduleOn o = some σ') (ho : o ≠ some t) :
    ∃ a' b', ReadyList N (a' ++ t :: b') σ' ∧ (σ'.thread t).cls = .normal ∧
      untilTop (σ'.thread t) + σ'.ahead a' < untilTop (σ.thread t) + σ.ahead a := by
  obtain ⟨rfl, hnil, -⟩ | ⟨c, best, d, hsplit, rfl, hready, hboost, hclass, hbefore, hafter⟩ :=
    h.select (schedSelectNext_cases hselect)
  · exact absurd hnil (by simp)
  obtain ⟨hready', hclass', hother⟩ := hready.scheduleOn hon
  have hne : t ≠ best := fun hne => ho (congrArg some hne.symm)
  have hthread : σ'.thread t = ρ.thread t := hother t hne
  have hcls' : (ρ.thread t).cls = .normal := (hclass t).trans hcls
  have htop : t ∈ c ++ d → untilTop (ρ.thread t) ≤ untilTop (σ.thread t) ∧
      ((ρ.thread t).effective < maxPriority → untilTop (ρ.thread t) < untilTop (σ.thread t)) :=
    fun ht => (hboost t ht).untilTop_le hcls (h.effective t hcls) (h.time t)
  have hbest : (ρ.thread best).cls ≠ .realtime := by
    rw [hclass]
    exact (h.classes best (hsplit ▸ List.mem_append_right _ List.mem_cons_self)).1
  have hahead : ∀ l, σ'.ahead l = σ.ahead l := fun l =>
    ahead_congr fun x _ => (hclass' x).trans (hclass x)
  rw [hthread]
  obtain ⟨a', rfl, htail⟩ | ⟨c', rfl, htail⟩ := List.append_eq_append_iff.1 hsplit
  · -- the chosen thread is behind: it has a higher priority
    cases a' with
    | nil => exact absurd (List.cons.inj htail).1 hne
    | cons u a' =>
      obtain ⟨rfl, rfl⟩ := List.cons.inj htail
      rw [List.append_assoc] at hready' htop
      refine ⟨a, a' ++ d, hready', hcls', ?_⟩
      have hlower : (ρ.thread t).effective < maxPriority := by
        obtain hrank | ⟨hrank, hlt⟩ := hbefore t (by simp)
        · exact absurd (hcls' ▸ hrank) (fun hrank => hbest (by
            cases hb : (ρ.thread best).cls <;> simp [hb, SchedClass.rank] at hrank ⊢))
        · refine hlt.trans_le (hready.effective best ?_)
          rw [hcls'] at hrank
          cases hb : (ρ.thread best).cls <;> simp [hb, SchedClass.rank] at hrank ⊢
      have hless := (htop (by simp)).2 hlower
      rw [hahead]
      omega
  · -- the chosen thread is ahead: it is an ordinary one, or this one would be better
    cases c' with
    | nil => exact absurd (List.cons.inj htail).1.symm hne
    | cons u c' =>
      obtain ⟨rfl, hd⟩ := List.cons.inj htail
      obtain rfl : d = c' ++ t :: b := hd
      rw [← List.append_assoc] at hready' htop
      refine ⟨c ++ c', b, hready', hcls', ?_⟩
      have hnormal : (σ.thread best).cls = .normal := by
        rw [← hclass]
        have hnot := hafter t (by simp)
        simp only [Better, hcls'] at hnot
        cases hb : (ρ.thread best).cls with
        | realtime => exact absurd hb hbest
        | normal => rfl
        | idle => exact absurd (.inl (by rw [hb]; decide)) hnot
      have hle := (htop (by simp)).1
      have hone : σ.ahead (c ++ best :: c') = σ.ahead (c ++ c') + 1 := by
        simp only [ahead, List.filter_append, List.filter_cons, hnormal, decide_true, if_true,
          List.length_append, List.length_cons]
        omega
      rw [hahead, hone]
      omega

/-! ### Runs -/

theorem ReadyList.stays (h : ReadyList N l σ) (hnext : τ.next = σ.next)
    (hlist : τ.list .readyQueue = σ.list .readyQueue) (hturn : ∀ t, SameTurn (σ.thread t) (τ.thread t)) :
    ∃ b, ReadyList N (l ++ b) τ ∧ ∀ t, SameTurn (σ.thread t) (τ.thread t) :=
  ⟨[], (List.append_nil l).symm ▸ h.congr hnext hlist
    fun t => ⟨(hturn t).cls, (hturn t).effective, (hturn t).time ▸ h.time t⟩, hturn⟩

theorem ReadyList.yield (h : ReadyList N l σ)
    (hmay : ∀ c ∈ σ.currentThread, c ≠ σ.idleThread → σ.MayEnqueue N c)
    (hrun : σ.schedYieldEnqueue = some τ) :
    ∃ b, ReadyList N (l ++ b) τ ∧ ∀ t, SameTurn (σ.thread t) (τ.thread t) := by
  unfold schedYieldEnqueue at hrun
  split at hrun
  · next c hc =>
    split at hrun
    · next hidle =>
      obtain ⟨hready, hthread⟩ := h.enqueue (hmay c hc hidle) hrun
      exact ⟨[c], hready, fun t => hthread ▸ .refl _⟩
    · obtain rfl := Option.some.inj hrun
      exact h.stays rfl rfl fun _ => .refl _
  · obtain rfl := Option.some.inj hrun
    exact h.stays rfl rfl fun _ => .refl _

/-- What a call puts in the queue before it comes to `sched_schedule`. -/
theorem ReadyList.scheduling (h : ReadyList N l σ) (hok : σ.OrdinaryCall N e)
    (hrun : σ.scheduling e = some τ) :
    ∃ b, ReadyList N (l ++ b) τ ∧ ∀ t, SameTurn (σ.thread t) (τ.thread t) := by
  cases e with
  | schedule =>
    obtain rfl := Option.some.inj hrun
    exact h.stays rfl rfl fun _ => .refl _
  | yield =>
    rw [Sched.scheduling] at hrun
    split at hrun
    · exact absurd hrun (by simp)
    · exact h.yield hok hrun
  | exit =>
    rw [Sched.scheduling] at hrun
    split at hrun
    · exact absurd hrun (by simp)
    · exact h.yield hok hrun
  | block =>
    rw [Sched.scheduling] at hrun
    split at hrun
    · exact absurd hrun (by simp)
    · obtain rfl := Option.some.inj hrun
      unfold schedBlockState
      split
      · exact h.stays rfl rfl (sameTurn_setThread ⟨rfl, rfl, rfl⟩)
      · exact h.stays rfl rfl fun _ => .refl _
  | sleep ms => exact hok.elim
  | unblock t => exact absurd hrun (by simp [Sched.scheduling])
  | tick => exact absurd hrun (by simp [Sched.scheduling])
  | vmmSwitch region => exact absurd hrun (by simp [Sched.scheduling])

/-- The call comes to `sched_select_next`. -/
def Chooses (σ : Sched) (e : SchedCall) : Prop := (σ.scheduling e).isSome

instance (σ : Sched) (e : SchedCall) : Decidable (σ.Chooses e) := inferInstanceAs (Decidable (_ = true))

/-- A call that does not come to `sched_select_next` puts at most one thread in the queue. -/
theorem ReadyList.call_of_not_chooses (h : ReadyList N l σ) (hok : σ.OrdinaryCall N e)
    (hrun : σ.call fuel e = some σ') (hnot : ¬ σ.Chooses e) :
    ∃ b, ReadyList N (l ++ b) σ' ∧ ∀ t, SameTurn (σ.thread t) (σ'.thread t) := by
  cases call_cases hrun with
  | nothing hat => exact h.stays rfl rfl fun _ => .refl _
  | schedule _ hs hτ => exact absurd (by rw [Chooses, hs]; rfl) hnot
  | @unblock t _ hunblock =>
    have hset : ∀ u, SameTurn (σ.thread u)
        ((σ.setThread t { σ.thread t with threadState := .ready }).thread u) :=
      sameTurn_setThread ⟨rfl, rfl, rfl⟩
    have hready : ReadyList N l (σ.setThread t { σ.thread t with threadState := .ready }) :=
      h.congr rfl rfl fun u => ⟨(hset u).cls, (hset u).effective, (hset u).time ▸ h.time u⟩
    have hmay : MayEnqueue N t (σ.setThread t { σ.thread t with threadState := .ready }) := by
      rw [MayEnqueue, (hset t).cls]
      exact hok
    obtain ⟨hend, hthread⟩ := hready.enqueue hmay hunblock
    exact ⟨[t], hend, fun u => hthread ▸ hset u⟩
  | tick htick => exact hok.elim
  | vmmSwitch r =>
    exact h.stays rfl rfl fun _ => .refl _

theorem call_of_chooses (hrun : σ.call fuel e = some σ') (hchooses : σ.Chooses e) :
    ∃ τ o ρ, σ.scheduling e = some τ ∧ τ.schedSelectNext fuel = some (o, ρ) ∧
      ρ.schedScheduleOn o = some σ' ∧ σ.selected fuel e = o := by
  cases call_cases hrun with
  | nothing hat =>
    rw [Chooses, hat.scheduling] at hchooses
    exact absurd hchooses (by simp)
  | @schedule _ τ _ hs hτ =>
    obtain ⟨⟨o, ρ⟩, hselect, hon⟩ := Option.bind_eq_some_iff.1 hτ
    refine ⟨τ, o, ρ, hs, hselect, hon, ?_⟩
    rw [selected, hs, Option.bind_some, hselect]
    rfl
  | unblock _ => exact absurd hchooses (by simp [Chooses, Sched.scheduling])
  | tick _ => exact absurd hchooses (by simp [Chooses, Sched.scheduling])
  | vmmSwitch _ => exact absurd hchooses (by simp [Chooses, Sched.scheduling])

/-- **One call** keeps the ready queue as it should be. -/
theorem ReadyList.call (h : ReadyList N l σ) (hok : σ.OrdinaryCall N e)
    (hrun : σ.call fuel e = some σ') : ∃ l', ReadyList N l' σ' := by
  by_cases hchooses : σ.Chooses e
  · obtain ⟨τ, o, ρ, hs, hselect, hon, -⟩ := call_of_chooses hrun hchooses
    obtain ⟨b, hτ, -⟩ := h.scheduling hok hs
    obtain ⟨-, -, rfl⟩ | ⟨c, best, d, -, -, hready, -⟩ := hτ.select (schedSelectNext_cases hselect)
    · exact ⟨_, (hτ.scheduleOn hon).1⟩
    · exact ⟨_, (hready.scheduleOn hon).1⟩
  · obtain ⟨b, hb, -⟩ := h.call_of_not_chooses hok hrun hchooses
    exact ⟨_, hb⟩

/-- **One call** that does not choose a thread which waits: a choice brings the thread nearer to
its turn, and no call brings it farther from it. -/
theorem ReadyList.call_passes (h : ReadyList N (a ++ t :: b) σ) (hcls : (σ.thread t).cls = .normal)
    (hok : σ.OrdinaryCall N e) (hrun : σ.call fuel e = some σ') (hnot : σ.selected fuel e ≠ some t) :
    ∃ a' b', ReadyList N (a' ++ t :: b') σ' ∧ (σ'.thread t).cls = .normal ∧
      untilTop (σ'.thread t) + σ'.ahead a' + (if σ.Chooses e then 1 else 0) ≤
        untilTop (σ.thread t) + σ.ahead a := by
  by_cases hchooses : σ.Chooses e
  · obtain ⟨τ, o, ρ, hs, hselect, hon, hselected⟩ := call_of_chooses hrun hchooses
    obtain ⟨c, hτ, hturn⟩ := h.scheduling hok hs
    rw [List.append_assoc, List.cons_append] at hτ
    obtain ⟨a', b', hend, hcls', hless⟩ := schedSchedule_passes hτ ((hturn t).cls.trans hcls) hselect hon
      (hselected ▸ hnot)
    rw [(hturn t).untilTop_eq, ahead_congr fun x _ => (hturn x).cls] at hless
    exact ⟨a', b', hend, hcls', by rw [if_pos hchooses]; exact hless⟩
  · obtain ⟨c, hend, hturn⟩ := h.call_of_not_chooses hok hrun hchooses
    rw [List.append_assoc, List.cons_append] at hend
    refine ⟨a, b ++ c, hend, (hturn t).cls.trans hcls, ?_⟩
    rw [(hturn t).untilTop_eq, ahead_congr fun x _ => (hturn x).cls, if_neg hchooses]
    exact le_rfl

/-- **A run** that does not choose a thread which waits has only so many choices. -/
theorem ReadyList.tally_le {evs : List SchedCall} (h : ReadyList N (a ++ t :: b) σ)
    (hcls : (σ.thread t).cls = .normal) (hall : EveryStep (Sched.call fuel) (OrdinaryCall N) σ evs)
    (hrun : evs.foldlM (fun s e => Sched.call fuel e s) σ = some σ')
    (hnot : ¬ SomeStep (Sched.call fuel) (fun s e => s.selected fuel e = some t) σ evs) :
    tally (Sched.call fuel) Chooses σ evs ≤ untilTop (σ.thread t) + σ.ahead a := by
  induction evs generalizing σ a b with
  | nil => exact Nat.zero_le _
  | cons e evs ih =>
    obtain ⟨τ, hτ, hrun⟩ := foldlM_cons_eq_some.1 hrun
    obtain ⟨hfirst, hrest⟩ := not_or.1 hnot
    obtain ⟨a', b', hend, hcls', hpass⟩ := h.call_passes hcls hall.1 hτ hfirst
    have hmore := ih hend hcls' (hall.2 τ hτ) hrun fun hsome => hrest ⟨τ, hτ, hsome⟩
    simp only [tally, hτ, Option.map_some, Option.getD_some]
    omega

/-- No more than all the ordinary threads but `t` are ahead of it. -/
theorem ReadyList.ahead_lt (h : ReadyList N (a ++ t :: b) σ) (hcls : (σ.thread t).cls = .normal) :
    σ.ahead a < N.card := by
  have hnd : (a ++ t :: b).Nodup := h.shaped.nodup
  have hsub : (t :: a.filter fun x => (σ.thread x).cls = .normal).toFinset ⊆ N := by
    intro x hx
    obtain rfl | hx := List.mem_cons.1 (List.mem_toFinset.1 hx)
    · exact (h.classes x (by simp)).2 hcls
    · obtain ⟨hxa, hxcls⟩ := List.mem_filter.1 hx
      exact (h.classes x (by simp [hxa])).2 (of_decide_eq_true hxcls)
  have hta : t ∉ a := fun hta => (List.nodup_cons.1 (List.nodup_middle.1 hnd)).1
    (List.mem_append_left _ hta)
  have hcard := Finset.card_le_card hsub
  rw [List.toFinset_card_of_nodup (List.nodup_cons.2 ⟨fun hx => hta (List.mem_of_mem_filter hx),
    (List.nodup_append.1 hnd).1.filter _⟩)] at hcard
  exact hcard

/-- **Bounded waiting**: an ordinary thread that is in the ready queue is chosen within
`STARVATION_THRESHOLD + MAX_PRIORITY + n` choices, where `n` is the number of ordinary threads. -/
theorem bounded_waiting {σ₀ : Sched} {evs₁ evs₂ : List SchedCall} {n : ℕ} (hn : N.card ≤ n)
    (h₀ : ∃ l, ReadyList N l σ₀)
    (hall : EveryStep (Sched.call fuel) (OrdinaryCall N) σ₀ (evs₁ ++ evs₂))
    (hrun₁ : evs₁.foldlM (fun s e => Sched.call fuel e s) σ₀ = some σ)
    (hrun₂ : evs₂.foldlM (fun s e => Sched.call fuel e s) σ = some σ')
    (hcls : (σ.thread t).cls = .normal) (hqueued : σ.Queued .readyQueue t)
    (hnot : ¬ SomeStep (Sched.call fuel) (fun s e => s.selected fuel e = some t) σ evs₂) :
    tally (Sched.call fuel) Chooses σ evs₂ ≤ starvationThreshold + maxPriority + n := by
  obtain ⟨hall₁, hall₂⟩ := hall.append hrun₁
  obtain ⟨l, hl⟩ : ∃ l, ReadyList N l σ :=
    hall₁.keeps (P := fun s => ∃ l, ReadyList N l s) hrun₁ h₀
      fun s e s' hok ⟨l, hl⟩ hrun => hl.call hok hrun
  obtain ⟨a, b, rfl⟩ := List.append_of_mem (hl.shaped.chain.linked_iff.1 hqueued)
  have htally := hl.tally_le hcls hall₂ hrun₂ hnot
  have hahead := hl.ahead_lt hcls
  have htop := untilTop_le (σ.thread t)
  omega

/-- Threads `3` and `2` are in the ready queue, and `2` has the higher priority. -/
def twoReady : Sched :=
  { hostSched with
    next := Function.update hostSched.next 3 (some 2)
    thread := fun t => { hostSched.thread t with effective := if t = 2 then 10 else 0 }
    list := Function.update hostSched.list .readyQueue ⟨some 3, some 2, 2⟩ }

/-- `2` is chosen before `3`. -/
theorem bounded_waiting_twoReady :
    tally (Sched.call 2) Chooses twoReady [.schedule] ≤ starvationThreshold + maxPriority + 2 := by
  obtain ⟨σ', hrun⟩ := Option.isSome_iff_exists.1 (show
    ([SchedCall.schedule].foldlM (fun s e => Sched.call 2 e s) twoReady).isSome = true by decide)
  have hready : ReadyList {2, 3} [3, 2] twoReady := by
    refine ⟨⟨⟨rfl, rfl, rfl⟩, rfl⟩, fun t ht => ⟨by simp [twoReady, hostSched], fun _ => ?_⟩, fun t _ => ?_,
      fun t => by simp [twoReady, hostSched]⟩
    · simp only [List.mem_cons, List.not_mem_nil, or_false] at ht
      rcases ht with rfl | rfl <;> decide
    · simp only [twoReady]
      split <;> decide
  have hall : EveryStep (Sched.call 2) (OrdinaryCall {2, 3}) twoReady ([] ++ [.schedule]) :=
    ⟨trivial, fun _ _ => trivial⟩
  exact bounded_waiting (t := 3) (by decide) ⟨_, hready⟩ hall rfl hrun rfl
    (hready.shaped.chain.linked_iff.2 (by decide)) (by decide)

end Sched

end Flopperating
