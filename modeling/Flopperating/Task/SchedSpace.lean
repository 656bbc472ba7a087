/-
# The address space of the running thread

Which address space is in use is recorded in CR3, in `current_process`, in `current_region` and
in the region of the process of `current_thread`.  `vmm_switch` sets the first and the third,
`sched_determine_and_switch` the first and the second.  So the four agree along a run exactly as
long as nobody switches to a thread of another address space than that of `current_region`
(`spaces_agree`).
-/

import Flopperating.Data.Transition
import Flopperating.Task.SchedSpec

namespace Flopperating

open LinkedList ThreadList Transition

namespace Sched

variable {σ σ' τ : Sched} {fuel t : ℕ} {name : ListName} {e : SchedCall}

/-- `p->region->pg_dir`. -/
def spaceOf (p : ℕ) (σ : Sched) : Option ℕ := (σ.region p).map fun r => (σ.vmm.region r).pgDir

/-- `vmm_get_current()->pg_dir`. -/
def currentSpace (σ : Sched) : Option ℕ := σ.vmm.currentRegion.map fun r => (σ.vmm.region r).pgDir

/-- While a thread of `p` runs, `p` is the current process, and the directory in CR3 and that of
the current region are `p`'s. -/
def SpacesAgree (σ : Sched) : Prop :=
  ∀ t ∈ σ.currentThread, ∀ p ∈ (σ.thread t).process,
    σ.currentProcess = some p ∧ σ.spaceOf p = some σ.vmm.currentPgDir ∧ σ.currentSpace = σ.spaceOf p

instance (σ : Sched) : Decidable σ.SpacesAgree :=
  inferInstanceAs (Decidable (∀ t ∈ σ.currentThread, ∀ p ∈ (σ.thread t).process, _))

/-- The call leaves the address space of `current_region` alone, or goes with it: a thread of
`p` that was not running is switched to only in `p`'s address space, and `vmm_switch` is only
called for the address space of the running thread. -/
def SpaceFits (fuel : ℕ) (σ : Sched) (e : SchedCall) : Prop :=
  (∀ t ∈ σ.chosen fuel e, σ.currentThread ≠ some t → ∀ p ∈ (σ.thread t).process,
    σ.currentSpace = σ.spaceOf p) ∧
  ∀ r ∈ switchesTo e, ∀ t ∈ σ.currentThread, ∀ p ∈ (σ.thread t).process,
    σ.spaceOf p = some (σ.vmm.region r).pgDir

instance (fuel : ℕ) (σ : Sched) (e : SchedCall) : Decidable (σ.SpaceFits fuel e) :=
  inferInstanceAs (Decidable ((∀ t ∈ σ.chosen fuel e, σ.currentThread ≠ some t →
    ∀ p ∈ (σ.thread t).process, _) ∧ ∀ r ∈ switchesTo e, ∀ t ∈ σ.currentThread, ∀ p ∈ _, _))

/-! ### What the calls leave alone -/

/-- Nothing that has to do with address spaces differs. -/
structure SameSpace (σ σ' : Sched) : Prop where
  vmm : σ'.vmm = σ.vmm
  region : σ'.region = σ.region
  currentThread : σ'.currentThread = σ.currentThread
  currentProcess : σ'.currentProcess = σ.currentProcess
  idleThread : σ'.idleThread = σ.idleThread
  process : ∀ t, (σ'.thread t).process = (σ.thread t).process

theorem SameSpace.refl (σ : Sched) : SameSpace σ σ := ⟨rfl, rfl, rfl, rfl, rfl, fun _ => rfl⟩

theorem SameSpace.trans (h : SameSpace σ τ) (h' : SameSpace τ σ') : SameSpace σ σ' :=
  ⟨h'.vmm.trans h.vmm, h'.region.trans h.region, h'.currentThread.trans h.currentThread,
    h'.currentProcess.trans h.currentProcess, h'.idleThread.trans h.idleThread,
    fun t => (h'.process t).trans (h.process t)⟩

theorem SameSpace.spaceOf (h : SameSpace σ σ') (p : ℕ) : σ'.spaceOf p = σ.spaceOf p := by
  rw [Sched.spaceOf, Sched.spaceOf, h.vmm, h.region]

theorem SameSpace.currentSpace (h : SameSpace σ σ') : σ'.currentSpace = σ.currentSpace := by
  rw [Sched.currentSpace, Sched.currentSpace, h.vmm]

theorem SameSpace.spacesAgree (h : SameSpace σ σ') : σ'.SpacesAgree ↔ σ.SpacesAgree := by
  unfold SpacesAgree
  simp only [h.currentThread, h.process, h.currentProcess, h.spaceOf, h.currentSpace, h.vmm]

theorem sameSpace_setThread {v : Thread} (hv : v.process = (σ.thread t).process) :
    SameSpace σ (σ.setThread t v) := by
  refine ⟨rfl, rfl, rfl, rfl, rfl, fun u => ?_⟩
  change (Function.update σ.thread t v u).process = _
  by_cases hu : u = t
  · rw [hu, Function.update_self, hv]
  · rw [Function.update_of_ne hu]

theorem sameSpace_onList? {op : Linked → Option Linked} (h : σ.onList? name op = some σ') :
    SameSpace σ σ' := by
  obtain ⟨s, -, rfl⟩ := onList?_eq_some h
  exact ⟨rfl, rfl, rfl, rfl, rfl, fun _ => rfl⟩

theorem SelectStep.sameSpace {o : Option ℕ} (h : SelectStep fuel σ o σ') : SameSpace σ σ' := by
  cases h with
  | empty _ => exact .refl σ
  | @take a b best thread slice chain length boost others before after =>
    refine ⟨rfl, rfl, rfl, rfl, rfl, fun u => ?_⟩
    have hthread : (thread u).process = (σ.thread u).process := by
      by_cases hu : u ∈ a ++ best :: b
      · exact (boost u hu).kept.process
      · rw [others u hu]
    change (Function.update thread best _ u).process = _
    by_cases hu : u = best
    · rw [hu, Function.update_self, ← hu]
      exact hthread
    · rw [Function.update_of_ne hu]
      exact hthread

theorem sameSpace_schedUnblock (h : σ.schedUnblock t = some σ') : SameSpace σ σ' :=
  (sameSpace_setThread (v := { σ.thread t with threadState := .ready }) rfl).trans
    (sameSpace_onList? h)

theorem sameSpace_schedYieldEnqueue (h : σ.schedYieldEnqueue = some σ') : SameSpace σ σ' := by
  unfold schedYieldEnqueue at h
  split at h
  · split at h
    · exact sameSpace_onList? h
    · exact Option.some.inj h ▸ .refl σ
  · exact Option.some.inj h ▸ .refl σ

theorem sameSpace_schedSleepEnqueue {ms : ℕ} (h : σ.schedSleepEnqueue ms = some σ') :
    SameSpace σ σ' := by
  unfold schedSleepEnqueue at h
  split at h
  · refine SameSpace.trans ?_ (sameSpace_onList? h)
    exact sameSpace_setThread rfl
  · exact Option.some.inj h ▸ .refl σ

theorem sameSpace_schedBlockState (σ : Sched) : SameSpace σ σ.schedBlockState := by
  unfold schedBlockState
  split
  · exact sameSpace_setThread rfl
  · exact .refl σ

theorem sameSpace_scheduling (h : σ.scheduling e = some τ) : SameSpace σ τ := by
  cases e with
  | schedule => exact Option.some.inj h ▸ .refl σ
  | yield =>
    rw [scheduling] at h
    split at h
    · exact absurd h (by simp)
    · exact sameSpace_schedYieldEnqueue h
  | exit =>
    rw [scheduling] at h
    split at h
    · exact absurd h (by simp)
    · exact sameSpace_schedYieldEnqueue h
  | block =>
    rw [scheduling] at h
    split at h
    · exact absurd h (by simp)
    · exact Option.some.inj h ▸ sameSpace_schedBlockState σ
  | sleep ms =>
    rw [scheduling] at h
    split at h
    · exact absurd h (by simp)
    · obtain ⟨ρ, hρ, hτ⟩ := Option.bind_eq_some_iff.1 h
      exact (sameSpace_schedSleepEnqueue hρ).trans (sameSpace_schedYieldEnqueue hτ)
  | unblock t => exact absurd h (by simp [scheduling])
  | tick => exact absurd h (by simp [scheduling])
  | vmmSwitch region => exact absurd h (by simp [scheduling])

theorem sameSpace_schedTickLoop {prev curr : Option ℕ} {n : ℕ}
    (h : schedTickLoop n prev curr σ = some σ') : SameSpace σ σ' := by
  induction n generalizing σ prev curr with
  | zero =>
    cases curr with
    | none => exact Option.some.inj h ▸ .refl σ
    | some t => exact absurd h (by simp [schedTickLoop])
  | succ n ih =>
    cases curr with
    | none => exact Option.some.inj h ▸ .refl σ
    | some t =>
      obtain ⟨⟨prev', τ⟩, hround, hrest⟩ := Option.bind_eq_some_iff.1 h
      refine SameSpace.trans ?_ (ih hrest)
      unfold schedProcessSleepThread at hround
      split at hround
      · obtain ⟨ρ, hwake, heq⟩ := Option.map_eq_some_iff.1 hround
        obtain ⟨-, rfl⟩ := Prod.mk.inj heq
        have hremove : SameSpace σ (σ.onList .sleepQueue (schedRemoveFromSleepQueue t prev)) :=
          ⟨rfl, rfl, rfl, rfl, rfl, fun _ => rfl⟩
        exact hremove.trans (sameSpace_schedUnblock hwake)
      · obtain ⟨-, rfl⟩ := Prod.mk.inj (Option.some.inj hround)
        exact .refl σ

/-! ### Agreement -/

/-- **A switch** to a thread of `p` sets CR3 and the current process for it, and leaves the
current region. -/
theorem spacesAgree_switch (h : σ.schedDetermineAndSwitch t = some σ') :
    σ'.SpacesAgree ↔ ∀ p ∈ (σ.thread t).process, σ.currentSpace = σ.spaceOf p := by
  unfold schedDetermineAndSwitch at h
  dsimp only at h
  split at h
  · next p hp =>
    obtain ⟨r, hr, rfl⟩ := Option.map_eq_some_iff.1 h
    have hspace : σ.spaceOf p = some (σ.vmm.region r).pgDir := by rw [Sched.spaceOf, hr]; rfl
    constructor
    · intro hagree q hq
      exact (hagree t rfl q hq).2.2
    · intro hfits u hu q hq
      obtain rfl : t = u := Option.some.inj hu
      obtain rfl : p = q := Option.some.inj (hp.symm.trans hq)
      exact ⟨hp, hspace, hfits p hp⟩
  · next hnone =>
    obtain rfl := Option.some.inj h
    refine iff_of_true (fun u hu q hq => ?_) fun q hq => ?_
    · obtain rfl : t = u := Option.some.inj hu
      exact absurd (hnone.symm.trans hq) (by simp)
    · exact absurd (hnone.symm.trans hq) (by simp)

theorem sameSpace_schedSelectIdleIfNeeded (o : Option ℕ) (σ : Sched) :
    SameSpace σ (σ.schedSelectIdleIfNeeded o).2 := by
  cases o with
  | none => exact sameSpace_setThread rfl
  | some t => exact .refl σ

theorem chosen_of_scheduling (h : σ.scheduling e = none) : σ.chosen fuel e = none := by
  rw [chosen, h]
  rfl

theorem switchesTo_of_ne (h : ∀ r, e ≠ .vmmSwitch (some r)) : switchesTo e = none := by
  cases e with
  | vmmSwitch region =>
    cases region with
    | none => rfl
    | some r => exact absurd rfl (h r)
  | _ => rfl

/-- A call that neither switches nor goes to the scheduler fits. -/
theorem spaceFits_of_none (hs : σ.scheduling e = none) (hne : ∀ r, e ≠ .vmmSwitch (some r)) :
    σ.SpaceFits fuel e := by
  refine ⟨fun t ht => ?_, fun r hr => ?_⟩
  · rw [chosen_of_scheduling hs] at ht
    exact absurd ht (by simp)
  · rw [switchesTo_of_ne hne] at hr
    exact absurd hr (by simp)

/-- **A call** from a state in which all agree. -/
theorem call_spacesAgree_iff (hσ : σ.SpacesAgree) (h : σ.call fuel e = some σ') :
    σ'.SpacesAgree ↔ σ.SpaceFits fuel e := by
  cases call_cases h with
  | nothing hat =>
    refine iff_of_true hσ (spaceFits_of_none hat.scheduling ?_)
    rintro r rfl
    exact absurd hat (by simp [ReturnsAtOnce])
  | @schedule _ τ _ hs hrun =>
    obtain ⟨⟨o, ρ⟩, hselect, hon⟩ := Option.bind_eq_some_iff.1 hrun
    have hsame := ((sameSpace_scheduling hs).trans (schedSelectNext_cases hselect).sameSpace).trans
      (sameSpace_schedSelectIdleIfNeeded o ρ)
    have hchosen : σ.chosen fuel e = some (ρ.schedSelectIdleIfNeeded o).1 := by
      rw [chosen, hs, Option.bind_some, hselect]
      rfl
    have hswitch : ∀ r ∈ switchesTo e, ∀ t ∈ σ.currentThread, ∀ p ∈ (σ.thread t).process,
        σ.spaceOf p = some (σ.vmm.region r).pgDir := by
      have hne : ∀ r, e ≠ .vmmSwitch (some r) := by
        rintro r rfl
        exact absurd hs (by simp [scheduling])
      exact fun r hr => absurd (switchesTo_of_ne hne ▸ hr) (by simp)
    unfold schedScheduleOn at hon
    dsimp only at hon
    split at hon
    · next hskip =>
      obtain rfl := Option.some.inj hon
      refine iff_of_true (hsame.spacesAgree.2 hσ) ⟨fun t ht hne => ?_, hswitch⟩
      obtain rfl := Option.some.inj (hchosen.symm.trans ht)
      exact absurd (hsame.currentThread.symm.trans hskip) hne
    · next hskip =>
      have hsame' : SameSpace σ ((ρ.schedSelectIdleIfNeeded o).2.schedPrepareThread
          (ρ.schedSelectIdleIfNeeded o).1) := hsame.trans (sameSpace_setThread rfl)
      rw [spacesAgree_switch hon]
      constructor
      · refine fun hfits => ⟨fun t ht _ p hp => ?_, hswitch⟩
        obtain rfl := Option.some.inj (hchosen.symm.trans ht)
        rw [← hsame'.currentSpace, ← hsame'.spaceOf]
        exact hfits p ((hsame'.process _).trans hp)
      · rintro ⟨hfits, -⟩ p hp
        rw [hsame'.currentSpace, hsame'.spaceOf]
        exact hfits _ hchosen (fun hcur => hskip (hsame.currentThread.trans hcur)) p
          ((hsame'.process _).symm.trans hp)
  | unblock hrun =>
    exact iff_of_true ((sameSpace_schedUnblock hrun).spacesAgree.2 hσ) (spaceFits_of_none rfl (by simp))
  | tick hrun =>
    have hticks : SameSpace σ { σ with ticks := u64 (σ.ticks + 1) } :=
      ⟨rfl, rfl, rfl, rfl, rfl, fun _ => rfl⟩
    exact iff_of_true ((hticks.trans (sameSpace_schedTickLoop hrun)).spacesAgree.2 hσ)
      (spaceFits_of_none rfl (by simp))
  | vmmSwitch r =>
    constructor
    · intro hagree
      refine ⟨fun t ht => ?_, fun q hq t ht p hp => ?_⟩
      · rw [chosen_of_scheduling rfl] at ht
        exact absurd ht (by simp)
      · obtain rfl := Option.some.inj hq
        exact (hagree t ht p hp).2.1
    · rintro ⟨-, hfits⟩ t ht p hp
      have hspace := hfits r rfl t ht p hp
      exact ⟨(hσ t ht p hp).1, hspace, hspace.symm⟩

/-- **The four records agree** in every state of a run exactly when every call of the run fits. -/
theorem spaces_agree {evs : List SchedCall} (hσ : σ.SpacesAgree)
    (hrun : evs.foldlM (fun s e => call fuel e s) σ = some σ') :
    EveryStep (call fuel) (fun s e => ∀ s', s.call fuel e = some s' → s'.SpacesAgree) σ evs ↔
      EveryStep (call fuel) (SpaceFits fuel) σ evs :=
  everyStep_iff hrun hσ fun _ _ _ hs h => call_spacesAgree_iff hs h

/-- Threads `1` of process `7` and `2` of process `8`, in the ready queue; the region of `7` is
`3`, that of `8` is `4`.  Thread `1` runs in the address space of `3`. -/
def twoSpaces : Sched :=
  { hostSched with
    thread := fun t => { hostSched.thread t with
      user := t ≠ 0, process := if t = 1 then some 7 else if t = 2 then some 8 else none }
    list := Function.update hostSched.list .readyQueue ⟨some 2, some 2, 1⟩
    currentProcess := some 7
    region := fun p => if p = 7 then some 3 else if p = 8 then some 4 else none
    vmm := { hostSched.vmm with
      currentPgDir := 0x3000
      currentRegion := some 3
      region := fun r => ⟨r * 0x1000, none, 0, 0, none⟩ } }

/-- Thread `1` goes on. -/
theorem spaces_agree_twoSpaces :
    EveryStep (call 2) (fun s e => ∀ s', s.call 2 e = some s' → s'.SpacesAgree) twoSpaces
      [.vmmSwitch (some 3), .unblock 5, .tick] := by
  obtain ⟨σ', hrun⟩ := Option.isSome_iff_exists.1 (show
    ([.vmmSwitch (some 3), .unblock 5, .tick].foldlM (fun s e => call 2 e s) twoSpaces).isSome = true by
      decide)
  exact (spaces_agree (by decide) hrun).2 (by decide)

/-- When `1` yields, `2` runs, and the region of process `7` is still the current one. -/
theorem not_spaces_agree :
    ¬ ∀ (fuel : ℕ) (σ σ' : Sched) (evs : List SchedCall), σ.SpacesAgree →
      evs.foldlM (fun s e => call fuel e s) σ = some σ' → σ'.SpacesAgree := by
  intro h
  obtain ⟨σ', hrun, hnot⟩ : ∃ σ', [SchedCall.yield].foldlM (fun s e => call 2 e s) twoSpaces =
      some σ' ∧ decide σ'.SpacesAgree = false :=
    Option.map_eq_some_iff.1 (show Option.map (fun σ' : Sched => decide σ'.SpacesAgree) _ = some false by
      decide)
  exact absurd (h 2 twoSpaces σ' _ (by decide) hrun) (decide_eq_false_iff_not.1 hnot)

end Sched

end Flopperating
