/-
# Switching between threads

`context_switch` of `src/task/ctx.asm`, which `sched_determine_and_switch` of `src/task/sched.c` calls with
the contexts of the thread that runs and of the next one, and what `sched_internal_init_thread` stores in a
context.

| source | here |
| --- | --- |
| `cpu_ctx_t` | `CpuCtx`: five words |
| `&prev->context`, `&next->context` | the two words above the return address |
| a thread | an index, with the address of its context |

The registers of the old thread are pushed on its stack, but the stack pointer is not stored: it goes to
`eax`.  Nothing is saved in the old context.  The new stack pointer is the address of the new context and
not a word of it: the registers and the return address come from the context itself.  So a thread does not
go on where it has been left, but where its context says, which no switch has changed
(`contextSwitch_restarts`), and its stack pointer is left behind the context, in the middle of its
`thread_t`.
-/

import Flopperating.Data.Transition
import Flopperating.Task.UserMode

namespace Flopperating

open X86 Transition

/-- `context_switch`. -/
def contextSwitch : List Instr :=
  [.load .eax .esp 4, .load .edx .esp 8, .push .ebp, .push .ebx, .push .esi, .push .edi, .mov .eax .esp, .mov .esp .edx,
    .pop .edi, .pop .esi, .pop .ebx, .pop .ebp, .ret]

/-- `cpu_ctx_t`. -/
@[ext]
structure CpuCtx where
  edi : Word
  esi : Word
  ebx : Word
  ebp : Word
  eip : Word
  deriving DecidableEq

/-- The context at an address. -/
def ctxAt (m : Word → Word) (p : Word) : CpuCtx := ⟨m p, m (p + 4), m (p + 8), m (p + 12), m (p + 16)⟩

/-- The registers that a context is for. -/
def loaded (s : State) : CpuCtx := ⟨s.reg .edi, s.reg .esi, s.reg .ebx, s.reg .ebp, s.eip⟩

/-- The context that `sched_internal_init_thread` gives to a thread. -/
def initCtx (entry : Word) : CpuCtx := ⟨0, 0, 0, 0, entry⟩

/-! ### One switch -/

section Switch

variable {s : State} {p sp : Word} {m m' : Word → Word}

/-- A context that is not in the four words in front of the stack pointer. -/
def ApartFrom (p sp : Word) : Prop :=
  ∀ j < 5, ∀ k ≤ 4, 0 < k → p + BitVec.ofNat 32 (4 * j) + BitVec.ofNat 32 (4 * k) ≠ sp

theorem ctxAt_kept (h : ∀ x, (∀ k, 0 < k → k ≤ 4 → x + BitVec.ofNat 32 (4 * k) ≠ sp) → m' x = m x)
    (hp : ApartFrom p sp) : ctxAt m' p = ctxAt m p := by
  have hword : ∀ j < 5, m' (p + BitVec.ofNat 32 (4 * j)) = m (p + BitVec.ofNat 32 (4 * j)) := fun j hj =>
    h _ fun k hk hk4 => hp j hj k hk4 hk
  have h0 := hword 0 (by decide)
  rw [Nat.mul_zero, BitVec.add_zero] at h0
  exact CpuCtx.ext h0 (hword 1 (by decide)) (hword 2 (by decide)) (hword 3 (by decide)) (hword 4 (by decide))

/-- The word of the address. -/
theorem ctxAt_update {w : Word} : ctxAt (Function.update m (p + 16) w) p = { ctxAt m p with eip := w } := by
  refine CpuCtx.ext ?_ ?_ ?_ ?_ (Function.update_self ..)
  all_goals exact Function.update_of_ne (by bv_omega) ..

/-- The registers after `ret`. -/
theorem loaded_ret (hedi : s.drop.reg .edi = m p) (hesi : s.drop.reg .esi = m (p + 4))
    (hebx : s.drop.reg .ebx = m (p + 8)) (hebp : s.drop.reg .ebp = m (p + 12)) (heip : s.top = m (p + 16)) :
    loaded { s.drop with eip := s.top } = ctxAt m p :=
  CpuCtx.ext hedi hesi hebx hebp heip

/-- **What a switch does.**  The registers are those of the new context, the stack pointer is behind it, and
nothing is written but the four words in front of the stack pointer. -/
theorem contextSwitch_run (s : State) :
    ∃ t, run s contextSwitch = .ok t ∧ loaded t = ctxAt t.mem (s.mem (s.reg .esp + 8)) ∧
      t.reg .esp = s.mem (s.reg .esp + 8) + 20 ∧ t.seg = s.seg ∧ t.eflags = s.eflags ∧
      ∀ x, (∀ k, 0 < k → k ≤ 4 → x + BitVec.ofNat 32 (4 * k) ≠ s.reg .esp) → t.mem x = s.mem x := by
  let s1 := (s.set .eax (s.mem (s.reg .esp + 4))).set .edx (s.mem (s.reg .esp + 8))
  let s2 := (((s1.push (s.reg .ebp)).push (s.reg .ebx)).push (s.reg .esi)).push (s.reg .edi)
  let s3 := (s2.set .eax (s2.reg .esp)).set .esp (s.mem (s.reg .esp + 8))
  let s4 := s3.pop .edi
  let s5 := s4.pop .esi
  let s6 := s5.pop .ebx
  let s7 := s6.pop .ebp
  have hrun : run s contextSwitch = .ok { s7.drop with eip := s7.top } := rfl
  have h1 : Stacked s.mem (s.reg .esp) 4 s1 [] := (stacked_nil (by decide)).congr rfl rfl
  have h2 : Stacked s.mem (s.reg .esp) 4 s2 [s.reg .edi, s.reg .esi, s.reg .ebx, s.reg .ebp] :=
    (((h1.push (show 0 < 4 by decide)).push (show 1 < 4 by decide)).push (show 2 < 4 by decide)).push
      (show 3 < 4 by decide)
  -- where the stack pointer is in the new context
  have h3 : s3.reg .esp = s.mem (s.reg .esp + 8) := rfl
  have h4 : s4.reg .esp = s.mem (s.reg .esp + 8) + 4 := pop_esp (by decide)
  have h5 : s5.reg .esp = s.mem (s.reg .esp + 8) + 8 := by
    rw [pop_esp (by decide), h4, BitVec.add_assoc]
    rfl
  have h6 : s6.reg .esp = s.mem (s.reg .esp + 8) + 12 := by
    rw [pop_esp (by decide), h5, BitVec.add_assoc]
    rfl
  have h7 : s7.reg .esp = s.mem (s.reg .esp + 8) + 16 := by
    rw [pop_esp (by decide), h6, BitVec.add_assoc]
    rfl
  have hedi : s7.drop.reg .edi = s2.mem (s.mem (s.reg .esp + 8)) := by
    rw [drop_reg (by decide), pop_reg (by decide) (by decide), pop_reg (by decide) (by decide),
      pop_reg (by decide) (by decide), pop_self, State.top, h3]
    rfl
  have hesi : s7.drop.reg .esi = s2.mem (s.mem (s.reg .esp + 8) + 4) := by
    rw [drop_reg (by decide), pop_reg (by decide) (by decide), pop_reg (by decide) (by decide), pop_self, State.top, h4]
    rfl
  have hebx : s7.drop.reg .ebx = s2.mem (s.mem (s.reg .esp + 8) + 8) := by
    rw [drop_reg (by decide), pop_reg (by decide) (by decide), pop_self, State.top, h5]
    rfl
  have hebp : s7.drop.reg .ebp = s2.mem (s.mem (s.reg .esp + 8) + 12) := by
    rw [drop_reg (by decide), pop_self, State.top, h6]
    rfl
  have heip : s7.top = s2.mem (s.mem (s.reg .esp + 8) + 16) := by
    rw [State.top, h7]
    rfl
  have hmem : s7.drop.mem = s2.mem := rfl
  have hesp : s7.drop.reg .esp = s.mem (s.reg .esp + 8) + 20 := by
    rw [drop_esp, h7, BitVec.add_assoc]
    rfl
  have hkept := h2.kept
  have hloaded := loaded_ret hedi hesi hebx hebp heip
  rw [← hmem] at hkept hloaded
  exact ⟨_, hrun, hloaded, hesp, rfl, rfl, hkept⟩

end Switch

/-! ### Threads -/

section Threads

variable {ι : Type} {ctx : ι → Word}

/-- The thread that runs, and the processor. -/
structure Scheduled (ι : Type) where
  current : ι
  cpu : State

/-- What happens. -/
inductive SwitchAction (ι : Type)
  | program
  | switch (next : ι)

/-- Programs compute as they like, but write to no context except that of their thread.
`sched_determine_and_switch` calls `context_switch` with the two contexts, from a stack that is apart from all of
them. -/
def SwitchStep (ctx : ι → Word) (s : Scheduled ι) : SwitchAction ι → Scheduled ι → Prop
  | .program, s' => s'.current = s.current ∧
      ∀ i, i ≠ s.current → ctxAt s'.cpu.mem (ctx i) = ctxAt s.cpu.mem (ctx i)
  | .switch next, s' => s.cpu.mem (s.cpu.reg .esp + 4) = ctx s.current ∧ s.cpu.mem (s.cpu.reg .esp + 8) = ctx next ∧
      (∀ i, ApartFrom (ctx i) (s.cpu.reg .esp)) ∧ s'.current = next ∧ run s.cpu contextSwitch = .ok s'.cpu

/-- The steps while another thread runs. -/
def AwayStep (ctx : ι → Word) (i : ι) (s : Scheduled ι) (a : SwitchAction ι) (s' : Scheduled ι) : Prop :=
  s.current ≠ i ∧ SwitchStep ctx s a s'

variable {s s' s₀ s₁ : Scheduled ι} {next i : ι}

/-- A switch saves nothing. -/
theorem SwitchStep.kept (h : SwitchStep ctx s (.switch next) s') :
    ctxAt s'.cpu.mem (ctx i) = ctxAt s.cpu.mem (ctx i) := by
  obtain ⟨-, -, hapart, -, hrun⟩ := h
  obtain ⟨t, ht, -, -, -, -, hkept⟩ := contextSwitch_run s.cpu
  obtain rfl := Except.ok.inj (ht.symm.trans hrun)
  exact ctxAt_kept hkept (hapart i)

/-- What one step preserves. -/
theorem AwayStep.kept {a : SwitchAction ι} (h : AwayStep ctx i s a s') :
    ctxAt s'.cpu.mem (ctx i) = ctxAt s.cpu.mem (ctx i) := by
  cases a with
  | program => exact h.2.2 i h.1.symm
  | switch next => exact h.2.kept

/-- **A thread never goes on where it was.**  From a switch on, other threads run and are switched to, in any order,
until a thread is switched to that has not run since.  What it gets is what its context was before the first
switch; nothing of its registers is there, even if it was the thread that ran.  And the first word that it pushes
goes to its own context, in place of the address it starts at. -/
theorem contextSwitch_restarts (h₀ : SwitchStep ctx s₀ (.switch next) s₁) (hr : Reach (· = s₁) (AwayStep ctx i) s)
    (h : SwitchStep ctx s (.switch i) s') :
    loaded s'.cpu = ctxAt s₀.cpu.mem (ctx i) ∧ s'.cpu.reg .esp = ctx i + 20 ∧
      ∀ w, ctxAt (s'.cpu.push w).mem (ctx i) = { ctxAt s₀.cpu.mem (ctx i) with eip := w } := by
  have hsame : ctxAt s.cpu.mem (ctx i) = ctxAt s₀.cpu.mem (ctx i) := by
    refine hr.invariant (P := fun s => ctxAt s.cpu.mem (ctx i) = ctxAt s₀.cpu.mem (ctx i)) ?_
      fun _ _ _ _ hs hstep => hstep.kept.trans hs
    rintro _ rfl
    exact h₀.kept
  have hsame' : ctxAt s'.cpu.mem (ctx i) = ctxAt s₀.cpu.mem (ctx i) := h.kept.trans hsame
  obtain ⟨-, hnext, -, -, hrun⟩ := h
  obtain ⟨t, ht, hloaded, hesp, -⟩ := contextSwitch_run s.cpu
  obtain rfl := Except.ok.inj (ht.symm.trans hrun)
  rw [hnext] at hloaded hesp
  have hpush : s'.cpu.reg .esp - 4 = ctx i + 16 := by
    rw [hesp]
    bv_omega
  refine ⟨hloaded.trans hsame', hesp, fun w => ?_⟩
  rw [push_mem, hpush, ctxAt_update, hsame']

end Threads

/-- Where two threads have their contexts. -/
def twoCtx (i : Bool) : Word := if i then 0x80001000 else 0x00001000

/-- Memory with these contexts, as they have been made, and the arguments of a switch. -/
def twoContexts (prev next : Word) (x : Word) : Word :=
  if x = 0x00300004 then prev else if x = 0x00300008 then next else if x = 0x00001010 then 0x00100100
  else if x = 0x80001010 then 0x00100200 else 0

/-- One of them runs and calls `context_switch`. -/
def twoThreads (i : Bool) : Scheduled Bool where
  current := i
  cpu :=
    { bootState with
      reg := fun _ => 0x00300000
      mem := twoContexts (twoCtx i) (twoCtx !i) }

/-- The first thread is switched away from and, later, back to. -/
theorem contextSwitch_restarts_two :
    ∃ s', SwitchStep twoCtx (twoThreads true) (.switch false) s' ∧
      loaded s'.cpu = initCtx 0x00100100 := by
  obtain ⟨t, ht, -⟩ := contextSwitch_run (twoThreads false).cpu
  obtain ⟨u, hu, -⟩ := contextSwitch_run (twoThreads true).cpu
  have hapart : ∀ i b, ApartFrom (twoCtx i) ((twoThreads b).cpu.reg .esp) := by
    unfold ApartFrom
    decide
  have haway : SwitchStep twoCtx (twoThreads false) (.switch true) ⟨true, t⟩ :=
    ⟨rfl, rfl, fun i => hapart i false, rfl, ht⟩
  have hback : SwitchStep twoCtx (twoThreads true) (.switch false) ⟨false, u⟩ :=
    ⟨rfl, rfl, fun i => hapart i true, rfl, hu⟩
  have hprogram : SwitchStep twoCtx ⟨true, t⟩ .program (twoThreads true) := by
    refine ⟨rfl, fun i hi => Eq.trans ?_ haway.kept.symm⟩
    obtain rfl : i = false := by simpa using hi
    rfl
  have hreach : Reach (· = ⟨true, t⟩) (AwayStep twoCtx false) (twoThreads true) :=
    .step .program (.init rfl) ⟨Bool.noConfusion, hprogram⟩
  exact ⟨_, hback, (contextSwitch_restarts haway hreach hback).1⟩

end Flopperating
