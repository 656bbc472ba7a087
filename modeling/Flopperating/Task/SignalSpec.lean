/-
# Signals that are lost, doubled and sent on

Calls of `signal_dispatch` that run together lose no signal (`no_signal_lost`): a pending bit is
only cleared by the call that goes on to handle it.  They can handle one twice, for a call works
through the word it read when it began: what is handled is paid for by what was sent as long as
every signal is still pending when its turn comes (`handler_runs_le_sends`).

One call on its own takes the default actions, which end in more signals:
`default_actions_settle` is about what is left for the next call.
-/

import Flopperating.Task.Signal

namespace Flopperating

open Transition

namespace SignalRun

open SignalProcess

variable {σ σ' : SignalRun} {e : SignalEvent} {d : ℕ}

/-- What a step of a call does. -/
inductive DispatchStep (d : ℕ) (σ : SignalRun) : SignalRun → Prop
  | nothing : σ.call d = .idle → σ.lock = none → σ.proc.sigPending = 0#32 →
      DispatchStep d σ { σ with call := Function.update σ.call d .returned }
  | start : σ.call d = .idle → σ.lock = none → σ.proc.sigPending ≠ 0#32 →
      DispatchStep d σ { σ with
        lock := some d
        call := Function.update σ.call d (.scanning σ.proc.sigPending 1) }
  | finish {pending : BitVec 32} {sig : ℕ} : σ.call d = .scanning pending sig →
      σ.lock = some d → sigMax ≤ sig →
      DispatchStep d σ { σ with lock := none, call := Function.update σ.call d .returned }
  | skip {pending : BitVec 32} {sig : ℕ} : σ.call d = .scanning pending sig → σ.lock = some d →
      sig < sigMax → σ.proc.SigSkips pending sig →
      DispatchStep d σ { σ with
        call := Function.update σ.call d (.scanning pending (sig + 1)) }
  | take {pending : BitVec 32} {sig : ℕ} : σ.call d = .scanning pending sig → σ.lock = some d →
      sig < sigMax → ¬ σ.proc.SigSkips pending sig →
      DispatchStep d σ { σ with
        proc := σ.proc.sigTake sig
        lock := none
        call := Function.update σ.call d (.handling pending sig (σ.proc.sigHandlers sig)) }
  | resume {pending : BitVec 32} {sig : ℕ} {handler : Option ℕ} :
      σ.call d = .handling pending sig handler → σ.lock = none →
      DispatchStep d σ { σ with
        lock := some d
        call := Function.update σ.call d (.scanning pending (sig + 1)) }

theorem dispatchStep_cases (h : σ.dispatchStep d = some σ') : DispatchStep d σ σ' := by
  unfold dispatchStep at h
  cases hcall : σ.call d with
  | idle =>
    simp only [hcall] at h
    split at h
    · exact absurd h (by simp)
    next hlock =>
    split at h
    · next h0 => exact Option.some.inj h ▸ .nothing hcall (not_not.1 hlock) h0
    · next h0 => exact Option.some.inj h ▸ .start hcall (not_not.1 hlock) h0
  | scanning pending sig =>
    simp only [hcall] at h
    split at h
    · exact absurd h (by simp)
    next hlock =>
    split at h
    · next hsig => exact Option.some.inj h ▸ .finish hcall (not_not.1 hlock) hsig
    next hsig =>
    split at h
    · next hskip =>
      exact Option.some.inj h ▸ .skip hcall (not_not.1 hlock) (Nat.lt_of_not_le hsig) hskip
    · next hskip =>
      exact Option.some.inj h ▸ .take hcall (not_not.1 hlock) (Nat.lt_of_not_le hsig) hskip
  | handling pending sig handler =>
    simp only [hcall] at h
    split at h
    · exact absurd h (by simp)
    · next hlock => exact Option.some.inj h ▸ .resume hcall (not_not.1 hlock)
  | returned =>
    simp only [hcall] at h
    exact absurd h (by simp)

/-- Nobody but the call itself moves it. -/
theorem step_call_of_ne (h : step e σ = some σ') (he : e ≠ .dispatch d) : σ'.call d = σ.call d := by
  cases e with
  | send sig =>
    rw [step] at h
    split at h
    · exact absurd h (by simp)
    · exact Option.some.inj h ▸ rfl
  | setHandler sig handler =>
    rw [step] at h
    split at h
    · exact absurd h (by simp)
    · exact Option.some.inj h ▸ rfl
  | setMask mask => exact Option.some.inj h ▸ rfl
  | dispatch d' =>
    have hd : d ≠ d' := fun hd => he (hd ▸ rfl)
    cases dispatchStep_cases h <;> exact Function.update_of_ne hd _ _

theorem taken_of_scanning {pending : BitVec 32} {sig : ℕ} (h : σ.call d = .scanning pending sig) :
    σ.taken (.dispatch d) =
      if sig < sigMax ∧ ¬ σ.proc.SigSkips pending sig then some (d, sig) else none := by
  rw [taken, h]

/-- **A pending bit** is cleared by the step that takes the signal and set by the one that sends
it, and by no other. -/
theorem step_pending (h : step e σ = some σ') {j : ℕ} (h0 : 0 < j) (hj : j < sigMax) :
    σ'.proc.sigPending.getLsbD j =
      (σ.proc.sigPending.getLsbD j && decide ((σ.taken e).map Prod.snd ≠ some j) ||
        decide (σ.Sends j e)) := by
  cases e with
  | send sig =>
    rw [step] at h
    split at h
    · exact absurd h (by simp)
    obtain rfl := Option.some.inj h
    have hsends : σ.Sends j (.send sig) ↔ sig = j := by rw [Sends, SignalEvent.send.injEq]
    rw [decide_eq_decide.2 hsends]
    simp only [taken, Option.map_none, ne_eq, reduceCtorEq, not_false_eq_true, decide_true,
      Bool.and_true]
    rw [signalSend]
    split
    · next hout =>
      have hne : sig ≠ j := by omega
      rw [decide_eq_false hne, Bool.or_false]
    · next hout =>
      have hlt : sig.toNat < sigMax := by omega
      have hiff : sig.toNat = j ↔ sig = j := by omega
      rw [or_sigBit_getLsbD hlt, decide_eq_decide.2 hiff]
  | setHandler sig handler =>
    rw [step] at h
    split at h
    · exact absurd h (by simp)
    obtain rfl := Option.some.inj h
    have hset : (σ.proc.signalSetHandler sig handler).2.sigPending = σ.proc.sigPending := by
      rw [signalSetHandler]
      split_ifs <;> rfl
    simp [taken, Sends, hset]
  | setMask mask =>
    obtain rfl := Option.some.inj h
    simp [taken, Sends]
  | dispatch d =>
    cases dispatchStep_cases h with
    | nothing hcall _ _ => simp [taken, Sends, hcall]
    | start hcall _ _ => simp [taken, Sends, hcall]
    | finish hcall _ hsig => simp [taken_of_scanning hcall, Sends, Nat.not_lt.2 hsig]
    | skip hcall _ _ hskip => simp [taken_of_scanning hcall, Sends, hskip]
    | take hcall _ hsig hskip =>
      rw [taken_of_scanning hcall, if_pos ⟨hsig, hskip⟩]
      simp [sigTake, clear_sigBit_getLsbD hsig, Sends]
    | resume hcall _ => simp [taken, Sends, hcall]

/-! ### No signal is lost -/

/-- The signal is masked. -/
def Masked (sig : ℕ) (σ : SignalRun) : Prop :=
  σ.proc.sigMask.getLsbD sig ∧ sig ≠ sigKill ∧ sig ≠ sigStop

instance (sig : ℕ) (σ : SignalRun) : Decidable (σ.Masked sig) := inferInstanceAs (Decidable (_ ∧ _))

/-- A signal that was pending when the call began, and whose turn is still to come. -/
def Ahead (d sig : ℕ) (pending : BitVec 32) (σ : SignalRun) : Prop :=
  (∃ k ≤ sig, σ.call d = .scanning pending k) ∨
    ∃ k < sig, ∃ handler, σ.call d = .handling pending k handler

/-- Its turn does not pass without the call taking it, unless it is masked. -/
theorem Ahead.step {sig : ℕ} {pending : BitVec 32} (h : σ.Ahead d sig pending)
    (hstep : step e σ = some σ') (hsig : sig < sigMax) (hbit : pending.getLsbD sig)
    (hmask : ¬ σ.Masked sig) : σ'.Ahead d sig pending ∨ σ.taken e = some (d, sig) := by
  by_cases he : e = .dispatch d
  · subst he
    cases dispatchStep_cases hstep with
    | nothing hcall _ _ =>
      rcases h with ⟨k, _, hk⟩ | ⟨k, _, _, hk⟩ <;> exact absurd (hcall.symm.trans hk) (by simp)
    | start hcall _ _ =>
      rcases h with ⟨k, _, hk⟩ | ⟨k, _, _, hk⟩ <;> exact absurd (hcall.symm.trans hk) (by simp)
    | finish hcall _ hmax =>
      rcases h with ⟨k, hle, hk⟩ | ⟨k, _, _, hk⟩
      · obtain ⟨-, rfl⟩ := DispatchCall.scanning.inj (hcall.symm.trans hk)
        omega
      · exact absurd (hcall.symm.trans hk) (by simp)
    | skip hcall _ hlt hskip =>
      rcases h with ⟨k, hle, hk⟩ | ⟨k, _, _, hk⟩
      · obtain ⟨rfl, rfl⟩ := DispatchCall.scanning.inj (hcall.symm.trans hk)
        refine .inl (.inl ⟨_, Nat.lt_of_le_of_ne hle fun heq => ?_, Function.update_self ..⟩)
        -- at its own turn the signal is in the word that was read, so it is masked
        subst heq
        rcases hskip with hclear | ⟨hset, hkill, hstop⟩
        · rw [and_sigBit_eq_zero hlt, hbit] at hclear
          exact absurd hclear (by simp)
        · rw [ne_eq, and_sigBit_eq_zero hlt, Bool.not_eq_false] at hset
          exact hmask ⟨hset, hkill, hstop⟩
      · exact absurd (hcall.symm.trans hk) (by simp)
    | take hcall _ hlt hskip =>
      rcases h with ⟨k, hle, hk⟩ | ⟨k, _, _, hk⟩
      · obtain ⟨rfl, rfl⟩ := DispatchCall.scanning.inj (hcall.symm.trans hk)
        rcases Nat.lt_or_eq_of_le hle with hlt' | rfl
        · exact .inl (.inr ⟨_, hlt', _, Function.update_self ..⟩)
        · exact .inr (by rw [taken_of_scanning hcall, if_pos ⟨hlt, hskip⟩])
      · exact absurd (hcall.symm.trans hk) (by simp)
    | resume hcall _ =>
      rcases h with ⟨k, _, hk⟩ | ⟨k, hlt, handler, hk⟩
      · exact absurd (hcall.symm.trans hk) (by simp)
      · obtain ⟨rfl, rfl, -⟩ := DispatchCall.handling.inj (hcall.symm.trans hk)
        exact .inl (.inl ⟨_, hlt, Function.update_self ..⟩)
  · have hcall := step_call_of_ne hstep he
    exact .inl (by rwa [Ahead, hcall])

/-- **No signal is lost.**  From any state and along any run: a signal that was sent is pending
still or was taken since; one that is masked when its turn comes is not taken and stays as it
is; and a call takes every signal that was pending when it began and is not masked meanwhile. -/
theorem no_signal_lost (σ : SignalRun) :
    (∀ (sig : ℕ) (evs : List SignalEvent) (τ ρ : SignalRun), 0 < sig → sig < sigMax →
      step (.send sig) σ = some τ → evs.foldlM (fun s e => step e s) τ = some ρ →
        ρ.proc.sigPending.getLsbD sig ∨
          SomeStep step (fun s e => (s.taken e).map Prod.snd = some sig) τ evs) ∧
    (∀ (d sig : ℕ) (pending : BitVec 32) (τ : SignalRun), σ.call d = .scanning pending sig →
      sig < sigMax → σ.Masked sig → step (.dispatch d) σ = some τ →
        σ.taken (.dispatch d) = none ∧
          τ.proc.sigPending.getLsbD sig = σ.proc.sigPending.getLsbD sig) ∧
    (∀ (d : ℕ) (evs : List SignalEvent) (τ ρ : SignalRun), σ.call d = .idle →
      step (.dispatch d) σ = some τ → evs.foldlM (fun s e => step e s) τ = some ρ →
      ρ.call d = .returned → ∀ sig, 0 < sig → sig < sigMax → σ.proc.sigPending.getLsbD sig →
      EveryStep step (fun s _ => ¬ s.Masked sig) τ evs →
        SomeStep step (fun s e => s.taken e = some (d, sig)) τ evs) := by
  refine ⟨fun sig evs τ ρ h0 hsig hsend hrun => ?_, fun d sig pending τ hcall hsig hmask hstep => ?_,
    fun d evs τ ρ hidle hstart hrun hret sig h0 hsig hbit hall => ?_⟩
  · have hset : τ.proc.sigPending.getLsbD sig = true := by
      rw [step_pending hsend h0 hsig, decide_eq_true (show σ.Sends sig (.send sig) from rfl),
        Bool.or_true]
    refine keeps_or_someStep (C := fun _ _ => True) (P := fun s => s.proc.sigPending.getLsbD sig = true)
      (everyStep_true _ _ _) hrun hset fun s e s' _ hs hstep => ?_
    by_cases htaken : (s.taken e).map Prod.snd = some sig
    · exact .inr htaken
    · exact .inl (by rw [step_pending hstep h0 hsig, hs, decide_eq_true htaken]; rfl)
  · have hskip : σ.proc.SigSkips pending sig := by
      refine .inr ⟨fun hclear => ?_, hmask.2⟩
      rw [and_sigBit_eq_zero hsig, hmask.1] at hclear
      exact absurd hclear (by simp)
    have hnone : σ.taken (.dispatch d) = none := by
      rw [taken_of_scanning hcall, if_neg fun h => h.2 hskip]
    refine ⟨hnone, ?_⟩
    cases dispatchStep_cases hstep with
    | take hcall' _ _ hskip' =>
      obtain ⟨rfl, rfl⟩ := DispatchCall.scanning.inj (hcall.symm.trans hcall')
      exact absurd hskip hskip'
    | _ => rfl
  · have hahead : τ.Ahead d sig σ.proc.sigPending := by
      cases dispatchStep_cases hstart with
      | nothing _ _ hzero =>
        rw [hzero] at hbit
        exact absurd hbit (by simp)
      | start _ _ _ => exact .inl ⟨1, h0, Function.update_self ..⟩
      | finish hcall _ _ => exact absurd (hidle.symm.trans hcall) (by simp)
      | skip hcall _ _ _ => exact absurd (hidle.symm.trans hcall) (by simp)
      | take hcall _ _ _ => exact absurd (hidle.symm.trans hcall) (by simp)
      | resume hcall _ => exact absurd (hidle.symm.trans hcall) (by simp)
    refine (keeps_or_someStep hall hrun hahead fun s e s' hC hs hstep =>
      hs.step hstep hsig hbit hC).resolve_left fun hend => ?_
    rcases hend with ⟨k, _, hk⟩ | ⟨k, _, _, hk⟩ <;> exact absurd (hret.symm.trans hk) (by simp)

/-- A process with a handler for each signal, before anything is sent or dispatched. -/
def quiet : SignalRun := ⟨⟨0#32, 0#32, fun _ => some 0, .running, 0⟩, none, fun _ => .idle⟩

/-- `SIGUSR1` is pending, and a call has begun. -/
def begun : SignalRun :=
  { quiet with
    proc := (quiet.proc.signalSend sigUsr1).2
    lock := some 0
    call := Function.update quiet.call 0 (.scanning (sigBit sigUsr1) 1) }

/-- One call, on its own, from its start to its end. -/
theorem no_signal_lost_begun :
    SomeStep step (fun s e => s.taken e = some (0, sigUsr1)) begun
      (List.replicate 33 (.dispatch 0)) := by
  obtain ⟨ρ, hrun, hret⟩ : ∃ ρ, (List.replicate 33 (.dispatch 0)).foldlM (fun s e => step e s)
      begun = some ρ ∧ ρ.call 0 = .returned :=
    Option.map_eq_some_iff.1 (show Option.map (fun ρ : SignalRun => ρ.call 0) _ = some .returned by
      decide)
  exact (no_signal_lost { quiet with proc := (quiet.proc.signalSend sigUsr1).2 }).2.2 0 _ begun ρ rfl
    rfl hrun hret sigUsr1 (by decide) (by decide) (by decide) (by decide)

/-! ### Signals handled twice -/

/-- What the step takes is still pending. -/
def TakesPending (σ : SignalRun) (e : SignalEvent) : Prop :=
  ∀ sig ∈ (σ.taken e).map Prod.snd, σ.proc.sigPending.getLsbD sig

instance (σ : SignalRun) (e : SignalEvent) : Decidable (σ.TakesPending e) :=
  inferInstanceAs (Decidable (∀ sig ∈ (σ.taken e).map Prod.snd, _))

theorem taken_lt {sig : ℕ} (h : σ.taken e = some (d, sig)) : sig < sigMax := by
  cases e with
  | dispatch d' =>
    rw [taken] at h
    split at h
    · split at h
      · next hsig =>
        obtain ⟨-, rfl⟩ := Prod.mk.inj (Option.some.inj h)
        exact hsig.1
      · exact absurd h (by simp)
    · exact absurd h (by simp)
  | _ => exact absurd h (by simp [taken])

/-- **Handled no more often than sent.**  As long as each call only takes what is still pending
when its turn comes, the handler of a signal has run no more often than the signal was sent. -/
theorem handler_runs_le_sends {sig : ℕ} (h0 : 0 < sig) {evs : List SignalEvent}
    (hfresh : σ.proc.sigPending = 0#32) (hall : EveryStep step TakesPending σ evs)
    (hrun : evs.foldlM (fun s e => step e s) σ = some σ') :
    tally step (RunsHandler sig) σ evs ≤ tally step (Sends sig) σ evs := by
  have hle := tally_le (fun s => (s.proc.sigPending.getLsbD sig).toNat) (Q := RunsHandler sig)
    (R := Sends sig) hall hrun fun s e s' hC hstep => ?_
  · rw [hfresh] at hle
    simp only [BitVec.getLsbD_zero, Bool.toNat_false] at hle
    omega
  by_cases hlt : sig < sigMax
  · rw [step_pending hstep h0 hlt]
    by_cases htaken : (s.taken e).map Prod.snd = some sig
    · -- the signal was pending, and the bit pays for the run of its handler
      have hsend : ¬ s.Sends sig e := by
        rintro rfl
        simp [taken] at htaken
      simp only [hC sig htaken, htaken, hsend, ne_eq, not_true, decide_false, Bool.and_false,
        Bool.or_false, Bool.toNat_false, Bool.toNat_true, if_false]
      split <;> omega
    · have hquiet : ¬ s.RunsHandler sig e := fun h => htaken h.1
      rw [if_neg hquiet, decide_eq_true htaken, Bool.and_true]
      by_cases hsend : s.Sends sig e
      · rw [if_pos hsend, decide_eq_true hsend, Bool.or_true, Bool.toNat_true]
        omega
      · rw [if_neg hsend, decide_eq_false hsend, Bool.or_false]
  · have hquiet : ¬ s.RunsHandler sig e := by
      rintro ⟨htaken, -⟩
      obtain ⟨⟨d, sig'⟩, hcall, rfl⟩ := Option.map_eq_some_iff.1 htaken
      exact hlt (taken_lt hcall)
    rw [if_neg hquiet, BitVec.getLsbD_of_ge _ _ (Nat.le_of_not_lt hlt),
      BitVec.getLsbD_of_ge _ _ (Nat.le_of_not_lt hlt)]
    simp

theorem handler_runs_le_sends_quiet :
    tally step (RunsHandler sigUsr1) quiet (.send sigUsr1 :: List.replicate 34 (.dispatch 0)) ≤
      tally step (Sends sigUsr1) quiet (.send sigUsr1 :: List.replicate 34 (.dispatch 0)) := by
  obtain ⟨ρ, hrun⟩ := Option.isSome_iff_exists.1 (show
    ((.send sigUsr1 :: List.replicate 34 (.dispatch 0)).foldlM (fun s e => step e s)
      quiet).isSome = true by decide)
  exact handler_runs_le_sends (by decide) rfl (by decide) hrun

/-- Two calls, the second begun while the first runs the handler of `SIGINT`. -/
def overlapping : List SignalEvent :=
  [.send sigInt, .send sigUsr1] ++ List.replicate 3 (.dispatch 0) ++
    List.replicate 17 (.dispatch 1) ++ List.replicate 15 (.dispatch 0)

/-- One `SIGUSR1`, two runs of its handler: the first call takes what the second has taken. -/
theorem not_handler_runs_le_sends :
    ¬ ∀ (sig : ℕ) (σ σ' : SignalRun) (evs : List SignalEvent), 0 < sig → σ.proc.sigPending = 0#32 →
      (∀ d, σ.call d = .idle) → evs.foldlM (fun s e => step e s) σ = some σ' →
        tally step (RunsHandler sig) σ evs ≤ tally step (Sends sig) σ evs := by
  intro h
  obtain ⟨ρ, hrun⟩ := Option.isSome_iff_exists.1 (show
    (overlapping.foldlM (fun s e => step e s) quiet).isSome = true by decide)
  exact absurd (h sigUsr1 quiet ρ overlapping (by decide) rfl (fun _ => rfl) hrun) (by decide)

end SignalRun

namespace SignalProcess

variable {p : SignalProcess} {sig j : ℕ}

/-! ### Default actions -/

/-- The signal is masked. -/
def Masked (sig : ℕ) (p : SignalProcess) : Prop :=
  p.sigMask.getLsbD sig ∧ sig ≠ sigKill ∧ sig ≠ sigStop

instance (sig : ℕ) (p : SignalProcess) : Decidable (p.Masked sig) :=
  inferInstanceAs (Decidable (_ ∧ _))

/-- The default action is what the process has for the signal. -/
def HasDefault (sig : ℕ) (p : SignalProcess) : Prop :=
  p.sigHandlers sig = none ∨ sig = sigKill ∨ sig = sigStop

instance (sig : ℕ) (p : SignalProcess) : Decidable (p.HasDefault sig) :=
  inferInstanceAs (Decidable (_ ∨ _))

/-- A call of `signal_dispatch` takes the default action for the signal. -/
def TakesDefault (sig : ℕ) (p : SignalProcess) : Prop :=
  0 < sig ∧ sig < sigMax ∧ p.sigPending.getLsbD sig ∧ ¬ p.Masked sig ∧ p.HasDefault sig

instance (sig : ℕ) (p : SignalProcess) : Decidable (p.TakesDefault sig) :=
  inferInstanceAs (Decidable (_ ∧ _))

/-- The default action is to end the process. -/
def Fatal (sig : ℕ) : Prop := defaultActions sig = .terminate ∨ defaultActions sig = .core

instance (sig : ℕ) : Decidable (Fatal sig) := inferInstanceAs (Decidable (_ ∨ _))

/-- The signal that a default action sends. -/
def defaultSends (sig : ℕ) : Option ℕ :=
  match defaultActions sig with
  | .terminate | .core => some sigTerm
  | .stop => some sigStop
  | .continue => some sigCont
  | .ignore | .handler => none

/-- The test that `proc_waitpid` makes of a child it is asked for. -/
def WaitpidReaps (p : SignalProcess) : Prop := p.state = .zombie

/-- The default actions that a call took for `p` have had their effect in `p'`. -/
def Settled (p p' : SignalProcess) : Prop :=
  (∀ sig, p.TakesDefault sig → Fatal sig →
    (p'.state = .zombie ∨ p'.state = .terminated) ∧
      (∃ s, p.TakesDefault s ∧ Fatal s ∧ p'.exitStatus = 128 + s) ∧ p'.WaitpidReaps) ∧
  ∀ sig, 0 < sig → sig < sigMax → p'.sigPending.getLsbD sig → p'.Masked sig

theorem defaultSends_cases (h : defaultSends sig = some j) :
    Fatal sig ∧ j = sigTerm ∨ sig = sigStop ∧ j = sigStop ∨ sig = sigCont ∧ j = sigCont := by
  unfold defaultSends at h
  unfold Fatal
  unfold defaultActions at h ⊢
  split_ifs at h ⊢ <;> simp_all

theorem fatal_le (h : Fatal sig) : sig ≤ sigTerm := by
  unfold Fatal defaultActions at h
  split_ifs at h with h₁ h₂ h₃ h₄ h₅ h₆
  · exact h₁.trans_le (by decide)
  · exact h₂.trans_le (by decide)
  · exact h₃.trans_le (by decide)
  · exact h₄.le
  · simp at h
  · simp at h
  · simp at h

/-- No default action sends a signal whose turn has passed. -/
theorem defaultSends_ge (h : defaultSends sig = some j) : sig ≤ j := by
  rcases defaultSends_cases h with ⟨hfatal, rfl⟩ | ⟨rfl, rfl⟩ | ⟨rfl, rfl⟩
  · exact fatal_le hfatal
  · exact le_rfl
  · exact le_rfl

theorem defaultActions_ne_handler (sig : ℕ) : defaultActions sig ≠ .handler := by
  unfold defaultActions
  split_ifs <;> simp

theorem sigSkips_iff (hsig : sig < sigMax) {pending : BitVec 32} :
    p.SigSkips pending sig ↔ pending.getLsbD sig = false ∨ p.Masked sig := by
  rw [SigSkips, Masked, ne_eq, and_sigBit_eq_zero hsig, and_sigBit_eq_zero hsig, Bool.not_eq_false]

/-! ### One round -/

section Round

variable {call : ℕ → ℕ → SignalProcess → SignalProcess}

theorem signalSend_of_lt (h0 : 0 < sig) (hsig : sig < sigMax) (p : SignalProcess) :
    p.signalSend sig = (0, { p with sigPending := p.sigPending ||| sigBit sig }) := by
  have hin : ¬ ((sig : ℤ) ≤ 0 ∨ (sigMax : ℤ) ≤ sig) := by omega
  rw [signalSend, if_neg hin, Int.toNat_natCast]

/-- What a default action does. -/
theorem signalDefaultAction_spec (sig : ℕ) (p : SignalProcess) :
    (∀ j, (p.signalDefaultAction sig).sigPending.getLsbD j =
      (p.sigPending.getLsbD j || decide (defaultSends sig = some j))) ∧
    (p.signalDefaultAction sig).sigMask = p.sigMask ∧
    (p.signalDefaultAction sig).sigHandlers = p.sigHandlers ∧
    (p.signalDefaultAction sig).state = p.state ∧
    (p.signalDefaultAction sig).exitStatus =
      if Fatal sig then 128 + (sig : ℤ) else p.exitStatus := by
  have hor : ∀ (word : BitVec 32) (s j : ℕ), s < sigMax →
      (word ||| sigBit s).getLsbD j = (word.getLsbD j || decide (some s = some j)) := by
    intro word s j hs
    rw [or_sigBit_getLsbD hs, decide_eq_decide.2 Option.some_inj]
  cases haction : defaultActions sig <;>
    simp only [signalDefaultAction, defaultSends, Fatal, haction, procExit, procStop, procContinue,
      signalSend_of_lt (show 0 < sigTerm by decide) (by decide),
      signalSend_of_lt (show 0 < sigStop by decide) (by decide),
      signalSend_of_lt (show 0 < sigCont by decide) (by decide), reduceCtorEq, or_true,
      or_false, if_true, if_false, decide_false, Bool.or_false, implies_true, and_self, and_true]
  · exact fun j => hor _ _ _ (by decide)
  · exact fun j => hor _ _ _ (by decide)
  · exact fun j => hor _ _ _ (by decide)
  · exact fun j => hor _ _ _ (by decide)

/-- What a call does not change when its handlers leave the process alone. -/
def Same (p₀ p : SignalProcess) : Prop :=
  p.sigMask = p₀.sigMask ∧ p.sigHandlers = p₀.sigHandlers ∧ p.state = p₀.state

theorem Same.masked {p₀ : SignalProcess} (h : p₀.Same p) : p.Masked sig ↔ p₀.Masked sig := by
  rw [Masked, h.1, Masked]

theorem Same.hasDefault {p₀ : SignalProcess} (h : p₀.Same p) :
    p.HasDefault sig ↔ p₀.HasDefault sig := by
  rw [HasDefault, h.2.1, HasDefault]

/-- What is done with a signal that was taken, when handlers leave the process alone. -/
theorem sigHandle_quiet (hcall : ∀ h s p, call h s p = p) (p : SignalProcess) :
    p.sigHandle call sig (p.sigHandlers sig) =
      if p.HasDefault sig then p.signalDefaultAction sig else p := by
  by_cases hd : p.HasDefault sig
  · rw [if_pos hd]
    unfold sigHandle
    split
    · next h hhandler =>
      have hsig := hd.resolve_left (by simp [hhandler])
      rw [if_neg fun hne => hsig.elim hne.1 hne.2, if_pos (defaultActions_ne_handler sig)]
    · rw [if_pos (defaultActions_ne_handler sig)]
  · rw [if_neg hd]
    obtain ⟨hhandler, hsig⟩ := not_or.1 hd
    obtain ⟨h, hhandler⟩ := Option.ne_none_iff_exists'.1 hhandler
    unfold sigHandle
    rw [hhandler]
    dsimp only
    rw [if_pos (not_or.1 hsig), hcall]

/-- **One round.**  The signal is no longer pending if it was taken, and what its default action
sends is. -/
theorem sigRound_quiet (hcall : ∀ h s p, call h s p = p) {p₀ : SignalProcess} (hsame : p₀.Same p)
    (h0 : 0 < sig) (hsig : sig < sigMax) :
    p₀.Same (p.sigRound call p₀.sigPending sig) ∧
    (∀ j, (p.sigRound call p₀.sigPending sig).sigPending.getLsbD j ↔
      p.sigPending.getLsbD j ∧ ¬ (sig = j ∧ p₀.sigPending.getLsbD sig ∧ ¬ p₀.Masked sig) ∨
        p₀.TakesDefault sig ∧ defaultSends sig = some j) ∧
    (p.sigRound call p₀.sigPending sig).exitStatus =
      if p₀.TakesDefault sig ∧ Fatal sig then 128 + (sig : ℤ) else p.exitStatus := by
  have hskips : p.SigSkips p₀.sigPending sig ↔ ¬ (p₀.sigPending.getLsbD sig ∧ ¬ p₀.Masked sig) := by
    rw [sigSkips_iff hsig, hsame.masked, not_and_or, not_not, Bool.not_eq_true]
  unfold sigRound
  by_cases hskip : p.SigSkips p₀.sigPending sig
  · have hnot : ¬ p₀.TakesDefault sig := fun h => hskips.1 hskip ⟨h.2.2.1, h.2.2.2.1⟩
    have hnot' := hskips.1 hskip
    rw [if_pos hskip, if_neg fun h => hnot h.1]
    refine ⟨hsame, fun j => ?_, rfl⟩
    simp only [hnot, hnot', and_false, false_and, not_false_eq_true, and_true, or_false]
  · have htaken := not_not.1 (mt hskips.2 hskip)
    have hsame' : p₀.Same (p.sigTake sig) := hsame
    have hdefault : p₀.TakesDefault sig ↔ (p.sigTake sig).HasDefault sig := by
      rw [hsame'.hasDefault, TakesDefault]
      simp only [h0, hsig, htaken.1, htaken.2, not_false_eq_true, true_and]
    have hclear : ∀ j, (p.sigTake sig).sigPending.getLsbD j ↔ p.sigPending.getLsbD j ∧ sig ≠ j := by
      intro j
      rw [sigTake, clear_sigBit_getLsbD hsig, Bool.and_eq_true, decide_eq_true_iff]
    rw [if_neg hskip, show p.sigHandlers sig = (p.sigTake sig).sigHandlers sig from rfl,
      sigHandle_quiet hcall]
    simp only [htaken.1, htaken.2, not_false_eq_true, and_true]
    by_cases hd : (p.sigTake sig).HasDefault sig
    · obtain ⟨hpending, hmask, hhandlers, hstate, hexit⟩ :=
        signalDefaultAction_spec sig (p.sigTake sig)
      rw [if_pos hd, hexit]
      refine ⟨⟨hmask.trans hsame.1, hhandlers.trans hsame.2.1, hstate.trans hsame.2.2⟩,
        fun j => ?_, ?_⟩
      · rw [hpending, Bool.or_eq_true, hclear, decide_eq_true_iff]
        simp only [hdefault.2 hd, true_and, ne_eq]
      · simp only [hdefault.2 hd, true_and]
        rfl
    · have hnot : ¬ p₀.TakesDefault sig := mt hdefault.1 hd
      rw [if_neg hd, if_neg fun h => hnot h.1]
      refine ⟨hsame', fun j => ?_, rfl⟩
      rw [hclear]
      simp only [hnot, false_and, or_false, ne_eq]

/-- **The rounds** of some signals. -/
theorem rounds_quiet (hcall : ∀ h s p, call h s p = p) {p₀ : SignalProcess} {l : List ℕ}
    (hl : ∀ s ∈ l, 0 < s ∧ s < sigMax) (hsame : p₀.Same p) :
    p₀.Same (l.foldl (sigRound call p₀.sigPending) p) ∧
    (∀ j ∉ l, (l.foldl (sigRound call p₀.sigPending) p).sigPending.getLsbD j ↔
      p.sigPending.getLsbD j ∨ ∃ s ∈ l, p₀.TakesDefault s ∧ defaultSends s = some j) ∧
    ((∃ s ∈ l, p₀.TakesDefault s ∧ Fatal s) → ∃ s, p₀.TakesDefault s ∧ Fatal s ∧
      (l.foldl (sigRound call p₀.sigPending) p).exitStatus = 128 + s) := by
  induction l using List.reverseRecOn with
  | nil => exact ⟨hsame, fun j _ => by simp, fun ⟨_, hs, _⟩ => absurd hs List.not_mem_nil⟩
  | append_singleton l sig ih =>
    obtain ⟨hmid, hbits, hexit⟩ := ih fun s hs => hl s (List.mem_append_left _ hs)
    obtain ⟨h0, hsig⟩ := hl sig (List.mem_append_right _ List.mem_cons_self)
    obtain ⟨hend, hbits', hexit'⟩ := sigRound_quiet hcall hmid h0 hsig
    rw [List.foldl_append, List.foldl_cons, List.foldl_nil]
    refine ⟨hend, fun j hj => ?_, fun ⟨s, hs, htakes, hfatal⟩ => ?_⟩
    · obtain ⟨hjl, hj⟩ := not_or.1 (mt List.mem_append.2 hj)
      have hne : sig ≠ j := fun h => hj (h ▸ List.mem_cons_self)
      rw [hbits', hbits j hjl]
      simp only [hne, false_and, not_false_eq_true, and_true, List.mem_append, List.mem_singleton,
        or_and_right, exists_or, exists_eq_left, or_assoc]
    · rw [hexit']
      split
      · next hlast => exact ⟨sig, hlast.1, hlast.2, rfl⟩
      · next hlast =>
        refine hexit ⟨s, (List.mem_append.1 hs).resolve_right fun hs => ?_, htakes, hfatal⟩
        exact hlast (List.mem_singleton.1 hs ▸ ⟨htakes, hfatal⟩)

end Round

/-! ### A whole call -/

section Dispatch

variable {call : ℕ → ℕ → SignalProcess → SignalProcess}

theorem mem_sigs : sig ∈ List.range' 1 (sigMax - 1) ↔ 0 < sig ∧ sig < sigMax := by
  rw [List.mem_range'_1]
  omega

theorem sigs_split (h0 : 0 < j) (hj : j < sigMax) :
    List.range' 1 (sigMax - 1) =
      List.range' 1 (j - 1) ++ j :: List.range' (j + 1) (sigMax - 1 - j) := by
  obtain ⟨i, rfl⟩ : ∃ i, j = 1 + i := ⟨j - 1, by omega⟩
  rw [show 1 + i - 1 = i by omega, ← List.range'_succ, List.range'_append_1]
  congr 1
  omega

/-- **What is pending after a call**: what was passed over, and what the default actions sent
that the call did not come to any more. -/
theorem signalDispatch_pending (hcall : ∀ h s p, call h s p = p) (h0 : 0 < j) (hj : j < sigMax) :
    (p.signalDispatch call).sigPending.getLsbD j ↔
      p.sigPending.getLsbD j ∧ p.Masked j ∨ ∃ sig, p.TakesDefault sig ∧ defaultSends sig = some j ∧
        (p.Masked j ∨ j = sig ∨ ¬ p.sigPending.getLsbD j) := by
  have hsends : ∀ sig, p.TakesDefault sig → defaultSends sig = some j → 0 < sig ∧ sig ≤ j :=
    fun sig htakes hsend => ⟨htakes.1, defaultSends_ge hsend⟩
  unfold signalDispatch
  split
  · next hzero =>
    have hbit : ∀ sig, ¬ p.sigPending.getLsbD sig := by simp [hzero]
    exact iff_of_false (hbit j) fun h => h.elim (fun h => hbit j h.1)
      fun ⟨sig, htakes, _⟩ => hbit sig htakes.2.2.1
  have hin : ∀ l, List.Sublist l (List.range' 1 (sigMax - 1)) → ∀ s ∈ l, 0 < s ∧ s < sigMax :=
    fun l hl s hs => mem_sigs.1 (hl.subset hs)
  rw [sigs_split h0 hj, List.foldl_append, List.foldl_cons]
  have hsplit := sigs_split h0 hj
  -- the signals before it, its own round, and the signals after it
  obtain ⟨hbefore, hbits, -⟩ := rounds_quiet hcall
    (hin _ (hsplit ▸ List.sublist_append_left ..)) (show p.Same p from ⟨rfl, rfl, rfl⟩)
  obtain ⟨hown, hbits', -⟩ := sigRound_quiet hcall hbefore h0 hj
  obtain ⟨-, hbits'', -⟩ := rounds_quiet hcall (hin _ (hsplit ▸
    ((List.sublist_cons_self _ _).trans (List.sublist_append_right ..)))) hown
  have hafter : j ∉ List.range' (j + 1) (sigMax - 1 - j) := by
    rw [List.mem_range'_1]
    omega
  have hfirst : j ∉ List.range' 1 (j - 1) := by
    rw [List.mem_range'_1]
    omega
  rw [hbits'' j hafter, hbits' j, hbits j hfirst]
  have hnone : ¬ ∃ s ∈ List.range' (j + 1) (sigMax - 1 - j),
      p.TakesDefault s ∧ defaultSends s = some j := by
    rintro ⟨s, hs, htakes, hsend⟩
    have := (hsends s htakes hsend).2
    rw [List.mem_range'_1] at hs
    omega
  have hsome : (∃ s ∈ List.range' 1 (j - 1), p.TakesDefault s ∧ defaultSends s = some j) ↔
      ∃ s, p.TakesDefault s ∧ defaultSends s = some j ∧ j ≠ s := by
    constructor
    · rintro ⟨s, hs, htakes, hsend⟩
      rw [List.mem_range'_1] at hs
      exact ⟨s, htakes, hsend, by omega⟩
    · rintro ⟨s, htakes, hsend, hne⟩
      have := hsends s htakes hsend
      exact ⟨s, List.mem_range'_1.2 (by omega), htakes, hsend⟩
  rw [or_iff_left hnone, hsome]
  constructor
  · rintro (⟨hbit | ⟨s, htakes, hsend, hne⟩, hkept⟩ | ⟨htakes, hsend⟩)
    · exact .inl ⟨hbit, not_not.1 fun h => hkept ⟨rfl, hbit, h⟩⟩
    · refine .inr ⟨s, htakes, hsend, ?_⟩
      by_cases hmask : p.Masked j
      · exact .inl hmask
      · exact .inr (.inr fun hbit => hkept ⟨rfl, hbit, hmask⟩)
    · exact .inr ⟨j, htakes, hsend, .inr (.inl rfl)⟩
  · rintro (⟨hbit, hmask⟩ | ⟨s, htakes, hsend, hleft⟩)
    · exact .inl ⟨.inl hbit, fun h => h.2.2 hmask⟩
    · by_cases hne : j = s
      · subst hne
        exact .inr ⟨htakes, hsend⟩
      · refine .inl ⟨.inr ⟨s, htakes, hsend, hne⟩, fun h => ?_⟩
        rcases hleft with hmask | heq | hbit
        · exact h.2.2 hmask
        · exact hne heq
        · exact hbit h.2.1

/-- **Default actions take effect** exactly when the signals they send are the last of it.  With
handlers that leave the process alone, a call has done what its default actions are for, and a
second one finds nothing to do, if and only if no default action of a fatal signal is taken
unless the process is a zombie already, and each signal that a default action sends is masked,
or is pending already and its turn is still to come. -/
theorem default_actions_settle (hcall : ∀ h s p, call h s p = p) (p : SignalProcess) :
    p.Settled (p.signalDispatch call) ↔
      (∀ sig, p.TakesDefault sig → Fatal sig → p.state = .zombie) ∧
      ∀ sig j, p.TakesDefault sig → defaultSends sig = some j →
        p.Masked j ∨ j ≠ sig ∧ p.sigPending.getLsbD j := by
  have hend : p.Same (p.signalDispatch call) ∧
      ((∃ s, p.TakesDefault s ∧ Fatal s) → ∃ s, p.TakesDefault s ∧ Fatal s ∧
        (p.signalDispatch call).exitStatus = 128 + s) := by
    unfold signalDispatch
    split
    · next hzero =>
      refine ⟨⟨rfl, rfl, rfl⟩, fun ⟨s, htakes, _⟩ => absurd htakes.2.2.1 ?_⟩
      simp [hzero]
    · obtain ⟨hsame, -, hexit⟩ := rounds_quiet hcall (fun s hs => mem_sigs.1 hs)
        (show p.Same p from ⟨rfl, rfl, rfl⟩)
      exact ⟨hsame, fun ⟨s, htakes, hfatal⟩ =>
        hexit ⟨s, mem_sigs.2 ⟨htakes.1, htakes.2.1⟩, htakes, hfatal⟩⟩
  obtain ⟨hsame, hexit⟩ := hend
  have hrange : ∀ sig j, defaultSends sig = some j → 0 < j ∧ j < sigMax := by
    intro sig j hsend
    rcases defaultSends_cases hsend with ⟨-, rfl⟩ | ⟨-, rfl⟩ | ⟨-, rfl⟩ <;> decide
  refine and_congr ⟨fun h sig htakes hfatal => ?_, fun h sig htakes hfatal => ?_⟩
    ⟨fun h sig j htakes hsend => ?_, fun h j h0 hj hbit => ?_⟩
  · exact hsame.2.2 ▸ (h sig htakes hfatal).2.2
  · have hzombie := hsame.2.2.trans (h sig htakes hfatal)
    exact ⟨.inl hzombie, hexit ⟨sig, htakes, hfatal⟩, hzombie⟩
  · obtain ⟨h0, hj⟩ := hrange sig j hsend
    by_contra hcon
    obtain ⟨hmask, hlater⟩ := not_or.1 hcon
    refine hmask (hsame.masked.1 (h j h0 hj ?_))
    rw [signalDispatch_pending hcall h0 hj]
    refine .inr ⟨sig, htakes, hsend, .inr ?_⟩
    by_cases hne : j = sig
    · exact .inl hne
    · exact .inr fun hbit => hlater ⟨hne, hbit⟩
  · rw [hsame.masked]
    rcases (signalDispatch_pending hcall h0 hj).1 hbit with ⟨-, hmask⟩ | ⟨sig, htakes, hsend, hleft⟩
    · exact hmask
    · rcases h sig j htakes hsend with hmask | ⟨hne, hpending⟩
      · exact hmask
      · exact hleft.resolve_right fun hor => hor.elim hne fun hnot => hnot hpending

/-- A zombie that is killed once more, with `SIGTERM` masked. -/
def killedZombie : SignalProcess := ⟨sigBit sigKill, sigBit sigTerm, fun _ => none, .zombie, 0⟩

theorem default_actions_settle_killedZombie :
    killedZombie.Settled (killedZombie.signalDispatch fun _ _ p => p) := by
  have honly : ∀ sig < sigMax, killedZombie.TakesDefault sig → sig = sigKill := by decide
  refine (default_actions_settle (fun _ _ _ => rfl) killedZombie).2
    ⟨fun _ _ _ => rfl, fun sig j htakes hsend => ?_⟩
  obtain rfl := honly sig htakes.2.1 htakes
  obtain rfl : sigTerm = j := Option.some.inj hsend
  exact .inl (by decide)

/-- `SIGKILL` leaves a running process running. -/
theorem not_default_actions_settle :
    ¬ ∀ p : SignalProcess, p.Settled (p.signalDispatch fun _ _ p => p) := by
  intro h
  have hkilled := ((h ⟨sigBit sigKill, 0#32, fun _ => none, .running, 0⟩).1 sigKill (by decide)
    (by decide)).1
  exact absurd hkilled (by decide)

end Dispatch

end SignalProcess

end Flopperating
