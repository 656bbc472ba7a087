/-
# Signals

`src/task/ipc/signal.c`, and `proc_exit`, `proc_stop` and `proc_continue` of
`src/task/process.c`, which send signals.

A call of `signal_dispatch` gives up `sig_lock` while a handler runs.  `signalDispatch` is such a
call with nothing else going on: what a handler does is a parameter.  `SignalRun` is any number
of calls, on any number of threads or nested in one another, one step at a time: a look at one
signal is a step, a handler may send, change the mask and dispatch, and everybody else may send
and change handlers whenever the lock is free.
-/

import Flopperating.Data.Transition
import Flopperating.Task.Process
import Mathlib.Data.BitVec

namespace Flopperating

open Transition

deriving instance DecidableEq for ProcessState

abbrev sigInt : ℕ := 2
abbrev sigKill : ℕ := 9
abbrev sigSegv : ℕ := 11
abbrev sigTerm : ℕ := 15
abbrev sigUsr1 : ℕ := 16
abbrev sigUsr2 : ℕ := 17
abbrev sigCont : ℕ := 18
abbrev sigStop : ℕ := 19
abbrev sigMax : ℕ := 32

/-- `signal_action_t`. -/
inductive SignalAction
  | ignore
  | terminate
  | core
  | stop
  | continue
  | handler
  deriving DecidableEq

/-- `default_actions`; what the initialiser leaves out is `SIGACT_IGNORE`, the first. -/
def defaultActions (sig : ℕ) : SignalAction :=
  if sig = sigInt then .terminate
  else if sig = sigKill then .terminate
  else if sig = sigSegv then .core
  else if sig = sigTerm then .terminate
  else if sig = sigStop then .stop
  else if sig = sigCont then .continue
  else .ignore

/-- `process_t`, as far as signals go. -/
structure SignalProcess where
  sigPending : BitVec 32
  sigMask : BitVec 32
  sigHandlers : ℕ → Option ℕ
  state : ProcessState
  exitStatus : ℤ

/-- `1u << sig`. -/
abbrev sigBit (sig : ℕ) : BitVec 32 := BitVec.twoPow 32 sig

theorem and_sigBit_eq_zero {word : BitVec 32} {sig : ℕ} (h : sig < sigMax) :
    word &&& sigBit sig = 0#32 ↔ word.getLsbD sig = false := by
  rw [BitVec.and_twoPow]
  split
  · next hbit =>
    rw [hbit]
    refine iff_of_false (fun h0 => ?_) (by decide)
    have := congrArg (fun w => w.getLsbD sig) h0
    simp [h] at this
  · next hbit => exact iff_of_true rfl (Bool.eq_false_iff.2 hbit)

theorem or_sigBit_getLsbD {word : BitVec 32} {sig j : ℕ} (h : sig < sigMax) :
    (word ||| sigBit sig).getLsbD j = (word.getLsbD j || decide (sig = j)) := by
  rw [BitVec.getLsbD_or, BitVec.getLsbD_twoPow, decide_eq_true h, Bool.true_and]

theorem clear_sigBit_getLsbD {word : BitVec 32} {sig j : ℕ} (h : sig < sigMax) :
    (word &&& ~~~ sigBit sig).getLsbD j = (word.getLsbD j && decide (sig ≠ j)) := by
  rw [BitVec.getLsbD_and, BitVec.getLsbD_not, BitVec.getLsbD_twoPow, decide_eq_true h,
    Bool.true_and, ← decide_not]
  by_cases hj : j < 32
  · rw [decide_eq_true hj, Bool.true_and]
  · rw [BitVec.getLsbD_of_ge _ _ (Nat.le_of_not_lt hj), Bool.false_and, Bool.false_and]

namespace SignalProcess

/-! ### The functions of the source -/

/-- `signal_set_handler`. -/
def signalSetHandler (sig : ℤ) (handler : Option ℕ) (p : SignalProcess) : ℤ × SignalProcess :=
  if sig ≤ 0 ∨ (sigMax : ℤ) ≤ sig then (-1, p)
  else if sig = sigKill ∨ sig = sigStop then (-1, p)
  else (0, { p with sigHandlers := Function.update p.sigHandlers sig.toNat handler })

/-- `signal_send`. -/
def signalSend (sig : ℤ) (p : SignalProcess) : ℤ × SignalProcess :=
  if sig ≤ 0 ∨ (sigMax : ℤ) ≤ sig then (-1, p)
  else (0, { p with sigPending := p.sigPending ||| sigBit sig.toNat })

/-- `proc_exit`. -/
def procExit (status : ℤ) (p : SignalProcess) : ℤ × SignalProcess :=
  signalSend sigTerm { p with exitStatus := status }

/-- `proc_stop`. -/
def procStop (p : SignalProcess) : ℤ × SignalProcess := signalSend sigStop p

/-- `proc_continue`. -/
def procContinue (p : SignalProcess) : ℤ × SignalProcess := signalSend sigCont p

/-- `signal_default_action`. -/
def signalDefaultAction (sig : ℕ) (p : SignalProcess) : SignalProcess :=
  match defaultActions sig with
  | .ignore => p
  | .terminate | .core => (p.procExit (128 + sig)).2
  | .stop => p.procStop.2
  | .continue => p.procContinue.2
  | .handler => p

/-- `signal_dispatch` goes on to the next signal: not pending when the call began, or masked. -/
def SigSkips (pending : BitVec 32) (sig : ℕ) (p : SignalProcess) : Prop :=
  pending &&& sigBit sig = 0#32 ∨
    p.sigMask &&& sigBit sig ≠ 0#32 ∧ sig ≠ sigKill ∧ sig ≠ sigStop

instance (pending : BitVec 32) (sig : ℕ) (p : SignalProcess) : Decidable (p.SigSkips pending sig) :=
  inferInstanceAs (Decidable (_ ∨ _))

/-- `process->sig_pending &= ~bit`. -/
def sigTake (sig : ℕ) (p : SignalProcess) : SignalProcess :=
  { p with sigPending := p.sigPending &&& ~~~ sigBit sig }

/-- What is done with a signal that was taken, where `call` is what a handler does. -/
def sigHandle (call : ℕ → ℕ → SignalProcess → SignalProcess) (sig : ℕ) (handler : Option ℕ)
    (p : SignalProcess) : SignalProcess :=
  match handler with
  | some h =>
    if sig ≠ sigKill ∧ sig ≠ sigStop then call h sig p
    else if defaultActions sig ≠ .handler then p.signalDefaultAction sig
    else p
  | none => if defaultActions sig ≠ .handler then p.signalDefaultAction sig else p

/-- One round of the loop of `signal_dispatch`. -/
def sigRound (call : ℕ → ℕ → SignalProcess → SignalProcess) (pending : BitVec 32)
    (p : SignalProcess) (sig : ℕ) : SignalProcess :=
  if p.SigSkips pending sig then p else (p.sigTake sig).sigHandle call sig (p.sigHandlers sig)

/-- `signal_dispatch`. -/
def signalDispatch (call : ℕ → ℕ → SignalProcess → SignalProcess) (p : SignalProcess) :
    SignalProcess :=
  if p.sigPending = 0#32 then p
  else (List.range' 1 (sigMax - 1)).foldl (sigRound call p.sigPending) p

end SignalProcess

/-! ### Calls of `signal_dispatch` that run together -/

/-- Where a call of `signal_dispatch` is. -/
inductive DispatchCall
  /-- Not made yet. -/
  | idle
  /-- At the head of the loop, with `sig_lock`. -/
  | scanning (pending : BitVec 32) (sig : ℕ)
  /-- Has taken a signal and given up the lock. -/
  | handling (pending : BitVec 32) (sig : ℕ) (handler : Option ℕ)
  | returned
  deriving DecidableEq

structure SignalRun where
  proc : SignalProcess
  /-- The call that holds `sig_lock` over more than one step. -/
  lock : Option ℕ
  call : ℕ → DispatchCall

inductive SignalEvent
  | send (sig : ℤ)
  | setHandler (sig : ℤ) (handler : Option ℕ)
  /-- `process->sig_mask = mask`, for which nobody takes the lock. -/
  | setMask (mask : BitVec 32)
  | dispatch (d : ℕ)
  deriving DecidableEq

namespace SignalRun

open SignalProcess

/-- The step of a call that has the lock, or finds it free. -/
def dispatchStep (d : ℕ) (σ : SignalRun) : Option SignalRun :=
  match σ.call d with
  | .idle =>
    if σ.lock ≠ none then none
    else if σ.proc.sigPending = 0#32 then some { σ with call := Function.update σ.call d .returned }
    else some { σ with
      lock := some d
      call := Function.update σ.call d (.scanning σ.proc.sigPending 1) }
  | .scanning pending sig =>
    if σ.lock ≠ some d then none
    else if sigMax ≤ sig then some { σ with
      lock := none
      call := Function.update σ.call d .returned }
    else if σ.proc.SigSkips pending sig then some { σ with
      call := Function.update σ.call d (.scanning pending (sig + 1)) }
    else some { σ with
      proc := σ.proc.sigTake sig
      lock := none
      call := Function.update σ.call d (.handling pending sig (σ.proc.sigHandlers sig)) }
  | .handling pending sig _ =>
    if σ.lock ≠ none then none
    else some { σ with
      lock := some d
      call := Function.update σ.call d (.scanning pending (sig + 1)) }
  | .returned => none

/-- One step; `none` when it has to wait for the lock. -/
def step (e : SignalEvent) (σ : SignalRun) : Option SignalRun :=
  match e with
  | .send sig => if σ.lock ≠ none then none else some { σ with proc := (σ.proc.signalSend sig).2 }
  | .setHandler sig handler =>
    if σ.lock ≠ none then none else some { σ with proc := (σ.proc.signalSetHandler sig handler).2 }
  | .setMask mask => some { σ with proc := { σ.proc with sigMask := mask } }
  | .dispatch d => σ.dispatchStep d

/-- The call and the signal, when the step takes one. -/
def taken (σ : SignalRun) (e : SignalEvent) : Option (ℕ × ℕ) :=
  match e with
  | .dispatch d =>
    match σ.call d with
    | .scanning pending sig =>
      if sig < sigMax ∧ ¬ σ.proc.SigSkips pending sig then some (d, sig) else none
    | _ => none
  | _ => none

/-- The step takes a signal whose user handler runs next. -/
def RunsHandler (sig : ℕ) (σ : SignalRun) (e : SignalEvent) : Prop :=
  (σ.taken e).map Prod.snd = some sig ∧ sig ≠ sigKill ∧ sig ≠ sigStop ∧
    (σ.proc.sigHandlers sig).isSome

instance (sig : ℕ) (σ : SignalRun) (e : SignalEvent) : Decidable (σ.RunsHandler sig e) :=
  inferInstanceAs (Decidable (_ ∧ _))

/-- `signal_send` of this signal. -/
def Sends (sig : ℕ) (_ : SignalRun) (e : SignalEvent) : Prop := e = .send sig

instance (sig : ℕ) (σ : SignalRun) (e : SignalEvent) : Decidable (σ.Sends sig e) :=
  inferInstanceAs (Decidable (_ = _))

end SignalRun

end Flopperating
