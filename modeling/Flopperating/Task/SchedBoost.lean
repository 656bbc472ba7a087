/-
# How long a boost lasts

`sched_boost_starved_threads` of `src/task/sched.c` adds to `priority.effective` of a thread that has
waited for long, and nothing in the scheduler takes it away again: `sched_prepare_thread` only
resets `time_since_last_run`.  So after a boost the ready threads are no longer chosen by their
base priorities, also when none of them has waited for long (`not_selectsByBase`).  They are as
long as no choice has found a starved thread (`unstarved_run_selectsByBase`).
-/

import Flopperating.Task.SchedSelect

namespace Flopperating

open LinkedList ThreadList Transition

namespace Sched

variable {σ σ' τ : Sched} {fuel t : ℕ} {e : SchedCall} {o : Option ℕ} {l : List ℕ} {evs : List SchedCall}

/-! ### The rule -/

/-- The calls of the runs. -/
def Switches : SchedCall → Prop
  | .schedule | .yield | .block | .unblock _ => True
  | .sleep _ | .exit | .tick | .vmmSwitch _ => False

/-- The call comes to `sched_select_next` in `τ`, with `l` in the ready queue. -/
def Choosing (σ : Sched) (e : SchedCall) (τ : Sched) (l : List ℕ) : Prop :=
  σ.scheduling e = some τ ∧ Chain τ.next (τ.list .readyQueue).head l

/-- No ordinary thread of `l` has waited for more than `STARVATION_THRESHOLD` choices, with this
one. -/
def Unstarved (τ : Sched) (l : List ℕ) : Prop :=
  ∀ x ∈ l, (τ.thread x).cls = .normal → (waited (τ.thread x)).timeSinceLastRun ≤ starvationThreshold

instance (τ : Sched) (l : List ℕ) : Decidable (τ.Unstarved l) := inferInstanceAs (Decidable (∀ _ ∈ l, _))

/-- A choice among ordinary threads that have not waited for long is by their base priorities. -/
def SelectsByBase (fuel : ℕ) (σ : Sched) (e : SchedCall) : Prop :=
  ∀ τ l, σ.Choosing e τ l → l.length ≤ fuel → τ.Unstarved l → (∀ x ∈ l, (τ.thread x).cls ≠ .realtime) →
    (∃ x ∈ l, (τ.thread x).cls = .normal) →
    ∃ best σ', τ.schedSelectNext fuel = some (some best, σ') ∧ best ∈ l ∧ (τ.thread best).cls = .normal ∧
      ∀ x ∈ l, (τ.thread x).cls = .normal → (τ.thread x).base ≤ (τ.thread best).base

/-- No priority has been raised. -/
def Unboosted (σ : Sched) : Prop := ∀ t, (σ.thread t).cls = .normal → (σ.thread t).effective = (σ.thread t).base

/-- The call boosts nobody. -/
def NoBoost (σ : Sched) (e : SchedCall) : Prop := Switches e ∧ ∀ τ l, σ.Choosing e τ l → τ.Unstarved l

/-! ### What is left as it is -/

/-- What the threads are chosen by is the same. -/
def SameRank (σ σ' : Sched) : Prop :=
  ∀ t, (σ'.thread t).cls = (σ.thread t).cls ∧ (σ'.thread t).base = (σ.thread t).base ∧
    (σ'.thread t).effective = (σ.thread t).effective

theorem SameRank.refl (σ : Sched) : SameRank σ σ := fun _ => ⟨rfl, rfl, rfl⟩

theorem SameRank.trans (h : SameRank σ τ) (h' : SameRank τ σ') : SameRank σ σ' := fun t =>
  ⟨(h' t).1.trans (h t).1, (h' t).2.1.trans (h t).2.1, (h' t).2.2.trans (h t).2.2⟩

theorem SameRank.unboosted (h : SameRank σ σ') (hσ : σ.Unboosted) : σ'.Unboosted := fun t ht => by
  rw [(h t).2.2, (h t).2.1]
  exact hσ t ((h t).1 ▸ ht)

theorem sameRank_setThread {v : Thread} (hcls : v.cls = (σ.thread t).cls) (hbase : v.base = (σ.thread t).base)
    (heff : v.effective = (σ.thread t).effective) : SameRank σ (σ.setThread t v) := by
  intro u
  by_cases hu : u = t
  · rw [hu, setThread_thread_self]
    exact ⟨hcls, hbase, heff⟩
  · rw [setThread_thread_of_ne hu]
    exact ⟨rfl, rfl, rfl⟩

theorem sameRank_onList? {name : ListName} {op : ThreadList.Linked → Option ThreadList.Linked}
    (h : σ.onList? name op = some σ') : SameRank σ σ' := by
  obtain ⟨s, -, rfl⟩ := onList?_eq_some h
  exact .refl σ

theorem sameRank_scheduling (he : Switches e) (h : σ.scheduling e = some τ) : SameRank σ τ := by
  cases e with
  | schedule => exact Option.some.inj h ▸ .refl σ
  | yield =>
    rw [scheduling] at h
    split at h
    · cases h
    · unfold schedYieldEnqueue at h
      split at h
      · split at h
        · exact sameRank_onList? h
        · exact Option.some.inj h ▸ .refl σ
      · exact Option.some.inj h ▸ .refl σ
  | block =>
    rw [scheduling] at h
    split at h
    · cases h
    · obtain rfl := Option.some.inj h
      unfold schedBlockState
      split
      · exact sameRank_setThread rfl rfl rfl
      · exact .refl σ
  | unblock t => cases h
  | sleep ms => exact he.elim
  | exit => exact he.elim
  | tick => exact he.elim
  | vmmSwitch region => exact he.elim

theorem sameRank_schedScheduleOn (h : σ.schedScheduleOn o = some σ') : SameRank σ σ' := by
  have hidle : SameRank σ (σ.schedSelectIdleIfNeeded o).2 := by
    cases o with
    | none => exact sameRank_setThread rfl rfl rfl
    | some t => exact .refl σ
  unfold schedScheduleOn at h
  dsimp only at h
  split at h
  · exact Option.some.inj h ▸ hidle
  · have hprepare : SameRank σ ((σ.schedSelectIdleIfNeeded o).2.schedPrepareThread (σ.schedSelectIdleIfNeeded o).1) :=
      hidle.trans (sameRank_setThread rfl rfl rfl)
    unfold schedDetermineAndSwitch at h
    dsimp only at h
    split at h
    · obtain ⟨r, -, rfl⟩ := Option.map_eq_some_iff.1 h
      exact hprepare
    · exact Option.some.inj h ▸ hprepare

/-- A boost of threads that are not starved. -/
theorem Boosted.rank {th th' : Thread} (h : Boosted th th')
    (hwait : th.cls = .normal → (waited th).timeSinceLastRun ≤ starvationThreshold) :
    th'.cls = th.cls ∧ th'.base = th.base ∧ th'.effective = th.effective := by
  refine ⟨h.kept.cls, h.kept.base, h.still ?_⟩
  rintro ⟨hcls, hlong⟩
  rw [h.time] at hlong
  exact absurd (hwait hcls) (Nat.not_le_of_gt hlong)

/-- **A choice without starved threads** leaves what they are chosen by. -/
theorem SelectStep.sameRank (h : SelectStep fuel τ o σ')
    (hwait : ∀ l, Chain τ.next (τ.list .readyQueue).head l → τ.Unstarved l) : SameRank τ σ' := by
  cases h with
  | empty _ => exact .refl _
  | @take a b best thread slice chain length boost others before after =>
    have hsame : ∀ u, (thread u).cls = (τ.thread u).cls ∧ (thread u).base = (τ.thread u).base ∧
        (thread u).effective = (τ.thread u).effective := by
      intro u
      by_cases hu : u ∈ a ++ best :: b
      · exact (boost u hu).rank (hwait _ chain u hu)
      · rw [others u hu]
        exact ⟨rfl, rfl, rfl⟩
    intro u
    change (Function.update thread best _ u).cls = _ ∧ (Function.update thread best _ u).base = _ ∧
      (Function.update thread best _ u).effective = _
    by_cases hu : u = best
    · rw [hu, Function.update_self]
      exact hsame best
    · rw [Function.update_of_ne hu]
      exact hsame u

/-- **One call** that boosts nobody. -/
theorem NoBoost.sameRank (h : σ.NoBoost e) (hrun : σ.call fuel e = some σ') : SameRank σ σ' := by
  obtain ⟨he, hnone⟩ := h
  cases call_cases hrun with
  | nothing _ => exact .refl σ
  | @schedule _ τ _ hs hτ =>
    obtain ⟨⟨o, ρ⟩, hselect, hon⟩ := Option.bind_eq_some_iff.1 hτ
    have hchoice := (schedSelectNext_cases hselect).sameRank fun l hl => hnone τ l ⟨hs, hl⟩
    exact ((sameRank_scheduling he hs).trans hchoice).trans (sameRank_schedScheduleOn hon)
  | @unblock t _ hunblock =>
    have hset : SameRank σ (σ.setThread t { σ.thread t with threadState := .ready }) := sameRank_setThread rfl rfl rfl
    exact hset.trans (sameRank_onList? hunblock)
  | tick _ => exact he.elim
  | vmmSwitch r => exact he.elim

/-! ### Runs -/

/-- Where no priority has been raised, the choice is by the base priorities. -/
theorem Unboosted.selectsByBase (h : σ.Unboosted) (he : Switches e) : SelectsByBase fuel σ e := by
  rintro τ l ⟨hs, hchain⟩ hlen hwait hreal ⟨x, hx, hnormal⟩
  have hτ := (sameRank_scheduling he hs).unboosted h
  obtain ⟨⟨o, σ'⟩, hselect⟩ := exists_schedSelectNext hchain hlen
  cases schedSelectNext_cases hselect with
  | empty hhead =>
    have hnil : l.head? = none := hchain.head_eq.symm.trans hhead
    rw [List.head?_eq_none_iff.1 hnil] at hx
    exact absurd hx List.not_mem_nil
  | @take a b best thread slice chain length boost others before after =>
    obtain rfl := hchain.unique chain
    have hsame := fun y hy => (boost y hy).rank (hwait y hy)
    have hbest : best ∈ a ++ best :: b := List.mem_append_right _ List.mem_cons_self
    have hall := foremost_middle before after
    have hcls : (τ.thread best).cls = .normal := by
      have hrank := (hall x hx).1
      rw [(hsame best hbest).1, (hsame x hx).1, hnormal] at hrank
      have hnot := hreal best hbest
      cases hc : (τ.thread best).cls with
      | realtime => exact absurd hc hnot
      | normal => rfl
      | idle =>
        rw [hc] at hrank
        exact absurd hrank (by decide)
    refine ⟨best, _, hselect, hbest, hcls, fun y hy hycls => ?_⟩
    have heff := (hall y hy).2 (by rw [(hsame y hy).1, (hsame best hbest).1, hycls, hcls])
    rw [(hsame y hy).2.2, (hsame best hbest).2.2, hτ y hycls, hτ best hcls] at heff
    exact heff

/-- **As long as no choice has found a starved thread**, each choice among threads that have not
waited for long is by their base priorities. -/
theorem unstarved_run_selectsByBase {σ₀ : Sched} (h₀ : σ₀.Unboosted) (hall : EveryStep (Sched.call fuel) NoBoost σ₀ evs)
    (hrun : evs.foldlM (fun s e => Sched.call fuel e s) σ₀ = some σ) (he : Switches e) : SelectsByBase fuel σ e :=
  (hall.keeps hrun h₀ fun _ _ _ hnone hσ hstep => (hnone.sameRank hstep).unboosted hσ).selectsByBase he

/-! ### Boosts that last -/

/-- Thread `1` runs, and `2` is ready; both have waited for `n` choices. -/
def passedOver (n : ℕ) : Sched :=
  { hostSched with
    thread := fun t => { hostSched.thread t with
      cls := if t = 0 then .idle else .normal
      base := if t = 1 then 251 else 250
      effective := if t = 1 then 251 else 250
      timeSlice := if t = 1 then 251 else 250
      timeSinceLastRun := if t = 1 ∨ t = 2 then n else 0 }
    list := Function.update hostSched.list .readyQueue ⟨some 2, some 2, 1⟩ }

/-- Thread `1` has gone to the end of the ready queue. -/
def bothReady (n : ℕ) : Sched :=
  { passedOver n with
    next := Function.update (Function.update hostSched.next 1 none) 2 (some 1)
    list := Function.update (passedOver n).list .readyQueue ⟨some 2, some 1, 2⟩ }

theorem waitRound_passedOver {n : ℕ} (hwrap : u32 (n + 1) = n + 1) :
    [2, 1].foldl waitRound (0, (passedOver n).thread) = (n + 1, (passedOver (n + 1)).thread) := by
  obtain ⟨hthread, -⟩ := waitRound_foldl (l := [2, 1]) (by decide) (passedOver n).thread
  refine Prod.ext (by simp [waitRound, passedOver, hwrap]) (funext fun t => ?_)
  rw [hthread, waited]
  by_cases h1 : t = 1
  · subst h1
    simp [passedOver, hwrap]
  by_cases h2 : t = 2
  · subst h2
    simp [passedOver, hwrap]
  · simp [passedOver, h1, h2]

/-- `1` is the better one of the two. -/
theorem schedSelectByTimeSlice_bothReady (n : ℕ) :
    schedSelectByTimeSlice 2 .readyQueue { bothReady n with thread := (passedOver (n + 1)).thread } =
      some (some 1, passedOver (n + 1)) := by
  have hwalk : walk (bothReady n).next 2 ((bothReady n).list .readyQueue).head = some [2, 1] := rfl
  have hnext : Function.update (Function.update (bothReady n).next 2 ((bothReady n).next 1)) 1 none =
      (passedOver (n + 1)).next := by
    funext t
    by_cases h1 : t = 1
    · subst h1
      rfl
    by_cases h2 : t = 2
    · subst h2
      rfl
    · rw [Function.update_of_ne h1, Function.update_of_ne h2, bothReady]
      dsimp only
      rw [Function.update_of_ne h2, Function.update_of_ne h1]
      rfl
  have hthread : Function.update (passedOver (n + 1)).thread 1 { (passedOver (n + 1)).thread 1 with timeSlice := 251 } =
      (passedOver (n + 1)).thread := Function.update_eq_self 1 _
  have hlist : Function.update (bothReady n).list .readyQueue ⟨some 2, some 2, 1⟩ = (passedOver (n + 1)).list := by
    rw [bothReady, passedOver]
    exact (Function.update_idem ..).trans (Function.update_idem ..)
  rw [schedSelectByTimeSlice, schedFindBestThreadIterate]
  dsimp only
  rw [hwalk]
  refine congrArg some (Prod.ext rfl ?_)
  change ({ passedOver (n + 1) with
    next := Function.update (Function.update (bothReady n).next 2 ((bothReady n).next 1)) 1 none
    thread := Function.update (passedOver (n + 1)).thread 1 { (passedOver (n + 1)).thread 1 with timeSlice := 251 }
    list := Function.update (bothReady n).list .readyQueue ⟨some 2, some 2, 1⟩ } : Sched) = _
  rw [hnext, hthread, hlist]

/-- `1` is chosen again when it yields. -/
theorem call_passedOver {n : ℕ} (hn : n < starvationThreshold) :
    (passedOver n).call 2 .yield = some (passedOver (n + 1)) := by
  have hwrap : u32 (n + 1) = n + 1 := u32_of_lt (by simp only [starvationThreshold] at hn; omega)
  have hcur : (passedOver n).currentThread ≠ none := Option.some_ne_none 1
  have henqueue : (passedOver n).schedYieldEnqueue = some (bothReady n) := rfl
  have hwalk : walk (bothReady n).next 2 ((bothReady n).list .readyQueue).head = some [2, 1] := rfl
  have hthread : (bothReady n).thread = (passedOver n).thread := rfl
  have hboost : (bothReady n).schedBoostStarvedThreads 2 .readyQueue =
      some { bothReady n with thread := (passedOver (n + 1)).thread } := by
    rw [schedBoostStarvedThreads, hwalk, Option.map_some, hthread, waitRound_passedOver hwrap]
    dsimp only
    rw [if_neg (Nat.not_lt.2 hn)]
  rw [call, schedYield, if_neg hcur, henqueue, Option.bind_some, schedSchedule, schedSelectNext, hboost,
    Option.bind_some, schedSelectByTimeSlice_bothReady]
  rfl

theorem run_passedOver {n : ℕ} (hn : n ≤ starvationThreshold) :
    (List.replicate n SchedCall.yield).foldlM (fun s e => Sched.call 2 e s) (passedOver 0) = some (passedOver n) := by
  induction n with
  | zero => rfl
  | succ n ih =>
    rw [List.replicate_succ', foldlM_append_eq_some]
    exact ⟨_, ih (Nat.le_of_succ_le hn), foldlM_cons_eq_some.2 ⟨_, call_passedOver hn, rfl⟩⟩

/-- After two more calls, the first of which boosts both threads to `MAX_PRIORITY`. -/
def afterBoost : Sched :=
  ([SchedCall.yield, .yield].foldlM (fun s e => Sched.call 2 e s) (passedOver starvationThreshold)).get rfl

/-- Thread `2` is chosen, whose base priority is lower than that of `1`. -/
theorem not_selectsByBase : ¬ ∀ (fuel : ℕ) (σ₀ σ : Sched) (evs : List SchedCall) (e : SchedCall), σ₀.Unboosted →
    (∀ e' ∈ evs, Switches e') → evs.foldlM (fun s e => Sched.call fuel e s) σ₀ = some σ → Switches e →
    SelectsByBase fuel σ e := by
  intro hall
  have hfirst := run_passedOver (le_refl starvationThreshold)
  have hyields : ∀ e' ∈ List.replicate starvationThreshold SchedCall.yield ++ [.yield, .yield], Switches e' := by
    intro e' he'
    have heq : e' = .yield := by
      rcases List.mem_append.1 he' with he' | he'
      · exact (List.mem_replicate.1 he').2
      · simpa using he'
    rw [heq]
    trivial
  generalize List.replicate starvationThreshold SchedCall.yield = evs at hfirst hyields
  have hrun : (evs ++ [SchedCall.yield, .yield]).foldlM (fun s e => Sched.call 2 e s) (passedOver 0) = some afterBoost :=
    foldlM_append_eq_some.2 ⟨_, hfirst, rfl⟩
  have hτ : afterBoost.scheduling .yield = some ((afterBoost.scheduling .yield).get rfl) := rfl
  obtain ⟨best, σ', hselect, -, -, hbase⟩ := hall 2 _ _ _ .yield (fun t _ => rfl) hyields hrun trivial
    _ [2, 1] ⟨hτ, rfl, rfl, rfl⟩ le_rfl (by decide) (by decide) (by decide)
  have hbest : afterBoost.selected 2 .yield = some best := by
    rw [selected, hτ, Option.bind_some, hselect]
    rfl
  obtain rfl : 2 = best := Option.some.inj hbest
  exact absurd (hbase 1 (by decide) (by decide)) (by decide)

/-- The first choice boosts nobody. -/
theorem unstarved_run_selectsByBase_passedOver : SelectsByBase 2 (passedOver 1) .yield := by
  have hnone : (passedOver 0).NoBoost .yield := by
    refine ⟨trivial, fun τ l ⟨hs, hchain⟩ => ?_⟩
    obtain rfl : bothReady 0 = τ := Option.some.inj hs
    have hown : Chain (bothReady 0).next ((bothReady 0).list .readyQueue).head [2, 1] := ⟨rfl, rfl, rfl⟩
    obtain rfl := hown.unique hchain
    decide
  have hall : EveryStep (Sched.call 2) NoBoost (passedOver 0) [.yield] := ⟨hnone, fun _ _ => trivial⟩
  exact unstarved_run_selectsByBase (fun t _ => rfl) hall
    (foldlM_cons_eq_some.2 ⟨_, call_passedOver (by decide), rfl⟩) trivial

end Sched

end Flopperating
