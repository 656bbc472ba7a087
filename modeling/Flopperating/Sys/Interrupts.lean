/-
# Interrupts

`isr_dispatch`, `pic_eoi`, `idt_set_entry` and `idt_set_stubs` of `src/interrupts/interrupts.c`, the stubs of
`src/interrupts/interrupts_asm.asm`, and `syscall` of `src/sys/syscall.c`.

| source | here |
| --- | --- |
| `int_frame_t` | the words on the stack, from the pointer that `isr_common` pushes on |
| the two interrupt controllers | the lines in service; only lines `0` and `1` are not masked |
| what is echoed | a list of `LogCall`s, `none` once the keyboard driver has read past its table |
| `c_syscall_routine` | a function of the rest of the kernel, for a call that returns |
| `hlt` with `IF` clear | `halted`: nothing is accepted any more |

The stack that the compiled code of `isr_dispatch` uses below the frame is not followed.
-/

import Flopperating.Drivers.Keyboard
import Flopperating.Task.UserMode

namespace Flopperating

open X86

/-! ### The table -/

/-- `idt_entry_t`. -/
structure IdtEntry where
  baseLow : BitVec 16
  sel : BitVec 16
  always0 : BitVec 8
  flags : BitVec 8
  baseHigh : BitVec 16
  deriving DecidableEq

/-- `idt_set_entry`. -/
def idtSetEntry (base : Word) : IdtEntry where
  baseLow := (base &&& 0xFFFF).setWidth 16
  baseHigh := ((base >>> 16) &&& 0xFFFF).setWidth 16
  sel := 0x08
  always0 := 0
  flags := 0x8E

/-- What the processor takes an entry for. -/
def IdtEntry.gate (e : IdtEntry) : Gate := ⟨e.baseHigh ++ e.baseLow, e.sel, e.flags⟩

/-- `idt_set_stubs`: the gate of each interrupt. -/
def idt (isrStubTable : ℕ → Word) (n : ℕ) : Gate := (idtSetEntry (isrStubTable n)).gate

/-! ### The stubs -/

/-- The stubs with `ISR_ERR`. -/
def isrErr : List ℕ := [8, 10, 11, 12, 13, 14, 17]

/-- The stub of an interrupt. -/
def isrStub (n : ℕ) : List Instr :=
  if n ∈ isrErr then [.pushImm (.ofNat 32 n)] else [.pushImm 0, .pushImm (.ofNat 32 n)]

/-- `isr_common`, up to the call. -/
def isrSave : List Instr :=
  [.cld, .pusha, .pushSeg .ds, .pushSeg .es, .pushSeg .fs, .pushSeg .gs, .movLow .eax 0x10, .movSeg .ds .eax,
    .movSeg .es .eax, .movSeg .fs .eax, .movSeg .gs .eax, .push .esp]

/-- And behind it. -/
def isrRestore : List Instr :=
  [.addEsp 4, .popSeg .gs, .popSeg .fs, .popSeg .es, .popSeg .ds, .popa, .addEsp 8, .iretd]

/-! ### The controllers -/

/-- The lines in service at the two controllers. -/
structure Pic where
  master : List ℕ
  slave : List ℕ
  deriving DecidableEq

namespace Pic

/-- An end of interrupt is for the line of the highest priority. -/
def endOf (inService : List ℕ) : List ℕ := inService.erase (inService.min?.getD 0)

/-- `pic_eoi`. -/
def eoi (p : Pic) (irq : ℕ) : Pic := ⟨endOf p.master, if irq ≥ 8 then endOf p.slave else p.slave⟩

/-- `PIC1_MASK` and `PIC2_MASK`. -/
def masked (line : ℕ) : Bool := if line < 8 then Nat.testBit 0xFC line else Nat.testBit 0xFF (line - 8)

/-- A line interrupts if it is not masked, and nothing of its priority is in service. -/
def accepts (p : Pic) (line : ℕ) : Bool := line < 16 && !masked line && p.master.all (line < ·)

/-- The line goes in service. -/
def serve (p : Pic) (line : ℕ) : Pic :=
  if line < 8 then { p with master := line :: p.master } else ⟨2 :: p.master, line :: p.slave⟩

/-- `PIC1_V_OFFSET` and `PIC2_V_OFFSET`. -/
def vector (line : ℕ) : ℕ := if line < 8 then 0x20 + line else 0x28 + (line - 8)

end Pic

/-! ### The computer -/

/-- What interrupts work on. -/
structure Computer (σ : Type) where
  cpu : State
  globalTickCount : Word
  keys : Keys
  screen : Option (List LogCall)
  pic : Pic
  rest : σ
  halted : Bool

/-- `c_syscall_routine`: the number and five arguments. -/
abbrev Routine (σ : Type) := Word → Word → Word → Word → Word → Word → σ → Word × σ

namespace Computer

variable {σ : Type}

/-- A word of the frame. -/
def frame (k : Computer σ) (p : Word) (i : ℕ) : Word := k.cpu.mem (p + BitVec.ofNat 32 (4 * i))

/-- Something is echoed. -/
def echoed (k : Computer σ) (calls : Option (List LogCall)) : Computer σ :=
  { k with screen := k.screen.bind fun old => calls.map (old ++ ·) }

/-- `SYSCALL_ISR_DISPATCH`. -/
def syscallIsrDispatch (routine : Routine σ) (k : Computer σ) (p : Word) : Computer σ :=
  let (ret, rest) := routine (k.frame p 11) (k.frame p 8) (k.frame p 10) (k.frame p 9) (k.frame p 5) (k.frame p 4) k.rest
  { k with cpu := k.cpu.store (p + BitVec.ofNat 32 (4 * 11)) ret, rest := rest }

/-- What is logged of an interrupt that is not handled. -/
def report (cr2 : UInt32) (intNo errCode : Word) : List LogCall :=
  if intNo = 0 then [.log (ascii "isr0: divide by zero\n") red]
  else if intNo = 6 then [.log (ascii "isr6: invalid opcode\n") red]
  else if intNo = 13 then [.log (ascii "isr13: GPF\n") red]
  else if intNo = 14 then
    [.log (ascii "isr14: page fault\n") red, .logUint (ascii "CR2: ") cr2,
      .logUint (ascii "err code: ") (.ofBitVec errCode)]
  else [.logUint (ascii "Unhandled interrupt :( ") (.ofBitVec intNo)]

/-- `isr_dispatch`, with the byte at port `0x60` and `cr2`.  After `hlt` it goes on only if an interrupt can come. -/
def isrDispatch (routine : Routine σ) (port : UInt8) (cr2 : UInt32) (k : Computer σ) (p : Word) : Computer σ :=
  let intNo := k.frame p 12
  if intNo = 32 then { k with globalTickCount := k.globalTickCount + 1, pic := k.pic.eoi 0 }
  else if intNo = 33 then
    let (calls, keys) := keyboardHandler k.keys port
    { k.echoed calls with keys := keys, pic := k.pic.eoi 1 }
  else if intNo = 80 then k.syscallIsrDispatch routine p
  else
    { k.echoed (some (report cr2 intNo (k.frame p 13))) with
      pic := if intNo.toNat ≥ 32 then k.pic.eoi (intNo.toNat - 32) else k.pic
      halted := k.cpu.eflags &&& flagIF = 0 }

/-- The stack for interrupts of user programs, `tss_init(3, 0x10, 0x0)`. -/
def inner : Word × BitVec 16 := (0, 0x10)

/-- An interrupt is delivered. -/
def deliver (routine : Routine σ) (stubs : ℕ → Word) (port : UInt8) (cr2 : UInt32) (k : Computer σ) (n : ℕ)
    (err : Option Word) : Except Fault (Computer σ) := do
  let s ← run (k.cpu.enter (idt stubs n) inner err) (isrStub n ++ isrSave)
  let k := isrDispatch routine port cr2 { k with cpu := s } s.top
  if k.halted then return k
  else do
    let s ← run k.cpu isrRestore
    return { k with cpu := s }

/-- What happens. -/
inductive Event
  | program (cpu : State)
  | irq (line : ℕ) (port : UInt8)
  | int (n : ℕ) (port : UInt8)
  | exception (n : ℕ) (err : Word) (cr2 : UInt32)

/-- A program computes and does not touch the segments; a line interrupts where `IF` is set and the controllers
accept it; `int` is for programs of the level of its gate. -/
def step (routine : Routine σ) (stubs : ℕ → Word) (k : Computer σ) (e : Event) : Except Fault (Computer σ) :=
  if k.halted then .ok k
  else match e with
    | .program cpu => .ok { k with cpu := { cpu with seg := k.cpu.seg, gdt := k.cpu.gdt } }
    | .irq line port =>
      if k.cpu.eflags &&& flagIF ≠ 0 ∧ k.pic.accepts line then
        deliver routine stubs port 0 { k with pic := k.pic.serve line } (Pic.vector line) none
      else .ok k
    | .int n port =>
      if k.cpu.cpl ≤ (idt stubs n).dpl then deliver routine stubs port 0 k n none
      else deliver routine stubs port 0 k 13 (some (.ofNat 32 (n * 8 + 2)))
    | .exception n err cr2 => deliver routine stubs 0 cr2 k n (if n ∈ isrErr then some err else none)

end Computer

section Stubs

variable {stubs : ℕ → Word} {n N : ℕ} {s t : State} {m : Word → Word} {base p : Word} {l : List Word}

/-- **A gate leads to its stub**, for programs of ring 0 only, and clears `IF`. -/
theorem idt_gate : idt stubs n = ⟨stubs n, 0x08, 0x8E⟩ := by
  have hoffset : (idtSetEntry (stubs n)).baseHigh ++ (idtSetEntry (stubs n)).baseLow = stubs n := by
    have hmask : (0xFFFF : Word) = BitVec.ofNat 32 (2 ^ 16 - 1) := rfl
    refine BitVec.eq_of_getLsbD_eq fun i hi => ?_
    rw [BitVec.getLsbD_append]
    simp only [idtSetEntry, BitVec.getLsbD_setWidth, BitVec.getLsbD_and, BitVec.getLsbD_ushiftRight, hmask, getLsbD_mask]
    grind
  exact congrArg (Gate.mk · _ _) hoffset

/-- What `isr_common` saves. -/
def saved (s : State) : List Word :=
  [.gs, .fs, .es, .ds].map (fun g => (s.seg g).setWidth 32) ++ pushed s

/-- The kernel's data segment, and the pointer to the frame. -/
theorem isrSegments_run (h : Stacked m base N s l) (hl : l.length < N) (hdata : dataOk s.gdt s.cpl 0x10 = true) :
    ∃ t, run s (.movLow .eax 0x10 :: ([.ds, .es, .fs, .gs].map (.movSeg · .eax) ++ [.push .esp])) = .ok t ∧
      Stacked m base N t ((t.reg .esp + 4) :: l) ∧ t.seg .cs = s.seg .cs ∧ t.seg .ss = s.seg .ss ∧ t.gdt = s.gdt ∧
      t.eflags = s.eflags := by
  let s1 := s.set .eax (s.reg .eax &&& 0xFFFF0000 ||| (0x10 : BitVec 16).setWidth 32)
  let s2 : State := { s1 with seg := fun g => if g ∈ [.ds, .es, .fs, .gs] then 0x10 else s1.seg g }
  have heax : (s1.reg .eax).setWidth 16 = (0x10 : BitVec 16) := by
    rw [set_reg, Function.update_self]
    exact setWidth_movLow
  have hsegs : run s1 ([.ds, .es, .fs, .gs].map (.movSeg · .eax)) = .ok s2 := run_movSegs heax hdata (by decide)
  have hesp : s1.reg .esp = s.reg .esp := set_reg_of_ne (by decide)
  have hstack : Stacked m base N s2 l := h.congr rfl hesp
  have hpush := hstack.push (w := s2.reg .esp) hl
  have hback : (s2.push (s2.reg .esp)).reg .esp + 4 = s2.reg .esp := by
    rw [push_esp]
    exact BitVec.sub_add_cancel _ _
  refine ⟨s2.push (s2.reg .esp), ?_, by rwa [hback], rfl, rfl, rfl, rfl⟩
  exact (run_cons rfl).trans ((run_append hsegs).trans run_singleton)

/-- **What the stubs do on the way in.** -/
theorem isrSave_run (h : Stacked m base N s l) (hl : l.length + 13 ≤ N) (hdata : dataOk s.gdt s.cpl 0x10 = true) :
    ∃ t, run s isrSave = .ok t ∧ Stacked m base N t ((t.reg .esp + 4) :: (saved s ++ l)) ∧ t.seg .cs = s.seg .cs ∧
      t.seg .ss = s.seg .ss ∧ t.gdt = s.gdt ∧ t.eflags = s.eflags &&& ~~~flagDF := by
  let s1 : State := { s with eflags := s.eflags &&& ~~~flagDF }
  let s2 := ((((s1.pusha.push ((s.seg .ds).setWidth 32)).push ((s.seg .es).setWidth 32)).push
    ((s.seg .fs).setWidth 32)).push ((s.seg .gs).setWidth 32))
  have h1 : Stacked m base N s1 l := h.congr rfl rfl
  have hpusha : Stacked m base N s1.pusha (pushed s ++ l) := h1.pusha (by omega)
  have h2 : Stacked m base N s2 (saved s ++ l) :=
    (((hpusha.push (show l.length + 8 < N by omega)).push (show l.length + 9 < N by omega)).push
      (show l.length + 10 < N by omega)).push (show l.length + 11 < N by omega)
  obtain ⟨t, hrun, hstack, hcs, hss, hgdt, hflags⟩ := isrSegments_run h2 (show l.length + 12 < N by omega) hdata
  refine ⟨t, ?_, hstack, hcs, hss, hgdt, hflags⟩
  exact (run_cons rfl).trans ((run_cons rfl).trans ((run_cons rfl).trans ((run_cons rfl).trans ((run_cons rfl).trans
    ((run_cons rfl).trans hrun)))))

/-- **And on the way out**: the registers are those of the frame. -/
theorem isrRestore_run {sel : Seg → BitVec 16} {edi esi ebp esp ebx edx ecx eax intNo errCode eip cs eflags : Word}
    (h : Stacked m base N t (p :: ([.gs, .fs, .es, .ds].map (fun g => (sel g).setWidth 32) ++
      ([edi, esi, ebp, esp, ebx, edx, ecx, eax] ++ (intNo :: errCode :: eip :: cs :: eflags :: l)))))
    (hdata : ∀ g ∈ [.gs, .fs, .es, .ds], dataOk t.gdt t.cpl (sel g) = true)
    (hcode : codeOk t.gdt t.cpl (cs.setWidth 16) = true) (hrpl : rpl (cs.setWidth 16) = t.cpl) :
    ∃ u, run t isrRestore = .ok u ∧ Stacked m base N u l ∧ u.eip = eip ∧ u.eflags = eflags ∧
      u.seg = Function.update (fun g => if g ∈ [.gs, .fs, .es, .ds] then sel g else t.seg g) .cs (cs.setWidth 16) ∧
      u.gdt = t.gdt ∧ u.reg .edi = edi ∧ u.reg .esi = esi ∧ u.reg .ebp = ebp ∧ u.reg .ebx = ebx ∧ u.reg .edx = edx ∧
      u.reg .ecx = ecx ∧ u.reg .eax = eax := by
  obtain ⟨t1, hpops, h1, hseg1, -, -, hgdt1⟩ := h.drop.run_popSegs (by decide) hdata
  obtain ⟨h2, hedi, hesi, hebp, hebx, hedx, hecx, heax⟩ := h1.popa
  have h3 : Stacked m base N t1.popa.drop.drop (eip :: cs :: eflags :: l) := h2.drop.drop
  have hgdt3 : t1.popa.drop.drop.gdt = t.gdt := hgdt1
  have hcpl3 : t1.popa.drop.drop.cpl = t.cpl := congrArg rpl (congrFun hseg1 .cs)
  obtain ⟨u, hret, heip, hflags, hseg, hgdt, hreg, hstack⟩ :=
    h3.iretd_same (by rwa [hgdt3, hcpl3]) (hrpl.trans hcpl3.symm)
  have hkeep : ∀ r, r ≠ .esp → u.reg r = t1.popa.reg r := fun r hr =>
    (hreg r hr).trans ((drop_reg hr).trans (drop_reg hr))
  refine ⟨u, ?_, hstack, heip, hflags, ?_, hgdt.trans hgdt3, ?_⟩
  · calc run t isrRestore
        = run t.drop ([.gs, .fs, .es, .ds].map .popSeg ++ [.popa, .addEsp 8, .iretd]) := run_cons rfl
      _ = run t1.popa [.addEsp 8, .iretd] := (run_append hpops).trans (run_cons rfl)
      _ = .ok u := (run_cons exec_addEsp8).trans (run_singleton.trans hret)
  · exact hseg.trans (congrArg (Function.update · Seg.cs _) hseg1)
  · exact ⟨(hkeep _ (by decide)).trans hedi, (hkeep _ (by decide)).trans hesi, (hkeep _ (by decide)).trans hebp,
      (hkeep _ (by decide)).trans hebx, (hkeep _ (by decide)).trans hedx, (hkeep _ (by decide)).trans hecx,
      (hkeep _ (by decide)).trans heax⟩

/-- The kernel's programs: they use the table of `gdt_init`, the code segment of the kernel, and data segments that
can be loaded. -/
structure Ready (tss : Word) (c : State) : Prop where
  gdt : c.gdt = gdtInit tss
  code : c.seg .cs = 0x08
  data : ∀ g ∈ [.gs, .fs, .es, .ds], dataOk c.gdt 0 (c.seg g) = true

variable {tss : Word} {c : State} {err : Option Word}

theorem Ready.cpl (h : Ready tss c) : c.cpl = 0 := by
  rw [State.cpl, h.code]
  rfl

/-- The words that the processor and the stub push. -/
def entered (c : State) (n : ℕ) (err : Option Word) : List Word :=
  .ofNat 32 n :: ((if n ∈ isrErr then [] else [0]) ++ err.toList ++ [c.eip, (c.seg .cs).setWidth 32, c.eflags])

/-- The frame of `isr_dispatch`. -/
def intFrame (c : State) (esp eax : Word) (l : List Word) : List Word :=
  [.gs, .fs, .es, .ds].map (fun g => (c.seg g).setWidth 32) ++
    ([c.reg .edi, c.reg .esi, c.reg .ebp, esp, c.reg .ebx, c.reg .edx, c.reg .ecx, eax] ++ l)

/-- A state in which a handler has been entered from `c`: only its stack is not that of `c`, and `IF` is clear. -/
structure Inside (c : State) (N : ℕ) (l : List Word) (s : State) : Prop where
  stack : Stacked c.mem (c.reg .esp) N s l
  reg : ∀ r, r ≠ .esp → s.reg r = c.reg r
  seg : s.seg = c.seg
  gdt : s.gdt = c.gdt
  flags : s.eflags = c.eflags &&& ~~~flagIF

theorem Inside.push {w : Word} (h : Inside c N l s) (hl : l.length < N) : Inside c N (w :: l) (s.push w) where
  stack := h.stack.push hl
  reg r hr := (push_reg hr).trans (h.reg r hr)
  seg := h.seg
  gdt := h.gdt
  flags := h.flags

/-- What the processor does. -/
theorem enter_inside (stubs : ℕ → Word) (n : ℕ) (hc : Ready tss c) (hN : 3 + err.toList.length ≤ N) (hN' : N < 2 ^ 30) :
    Inside c N (err.toList ++ [c.eip, (c.seg .cs).setWidth 32, c.eflags]) (c.enter (idt stubs n) Computer.inner err) := by
  have hseg : ∀ s : State, s.seg = c.seg → (s.setSeg .cs 0x08).seg = c.seg := fun s hs => by
    rw [State.setSeg, hs, ← hc.code]
    exact Function.update_eq_self ..
  have h0 : Stacked c.mem (c.reg .esp) N c [] := stacked_nil hN'
  have h3 : Stacked c.mem (c.reg .esp) N (((c.push c.eflags).push ((c.seg .cs).setWidth 32)).push c.eip)
      [c.eip, (c.seg .cs).setWidth 32, c.eflags] :=
    ((h0.push (show 0 < N by omega)).push (show 1 < N by omega)).push (show 2 < N by omega)
  have hreg : ∀ r, r ≠ .esp → (((c.push c.eflags).push ((c.seg .cs).setWidth 32)).push c.eip).reg r = c.reg r := by
    intro r hr
    rw [push_reg hr, push_reg hr, push_reg hr]
  have hgate : (⟨stubs n, 0x08, 0x8E⟩ : Gate).isInterrupt = true :=
    decide_eq_true (by decide : (0x8E : BitVec 8).extractLsb' 0 4 = 0xE)
  simp only [State.enter, if_pos hc.cpl, idt_gate, if_pos hgate]
  cases err with
  | none => exact ⟨h3.congr rfl rfl, hreg, hseg _ rfl, rfl, rfl⟩
  | some e =>
    have h4 := h3.push (w := e) (show 3 < N from hN)
    exact ⟨h4.congr rfl rfl, fun r hr => (push_reg hr).trans (hreg r hr), hseg _ rfl, rfl, rfl⟩

/-- And the stub. -/
theorem isrStub_inside (n : ℕ) (h : Inside c N l s) (hl : l.length + 2 ≤ N) :
    ∃ t, run s (isrStub n) = .ok t ∧ Inside c N (.ofNat 32 n :: ((if n ∈ isrErr then [] else [0]) ++ l)) t := by
  unfold isrStub
  split_ifs with hn
  · exact ⟨s.push (.ofNat 32 n), run_singleton, h.push (by omega)⟩
  · have hzero : Inside c N (0 :: l) (s.push 0) := h.push (by omega)
    exact ⟨(s.push 0).push (.ofNat 32 n), (run_cons rfl).trans run_singleton, hzero.push (by rw [List.length_cons]; omega)⟩

/-- **The frame is that of the program**, and `IF` is clear. -/
theorem entered_run (stubs : ℕ → Word) (n : ℕ) (err : Option Word) (hc : Ready tss c) (hN : 18 + err.toList.length ≤ N) (hN' : N < 2 ^ 30) :
    ∃ t esp, run (c.enter (idt stubs n) Computer.inner err) (isrStub n ++ isrSave) = .ok t ∧
      Stacked c.mem (c.reg .esp) N t ((t.reg .esp + 4) :: intFrame c esp (c.reg .eax) (entered c n err)) ∧
      t.seg .cs = 0x08 ∧ t.seg .ss = c.seg .ss ∧ t.gdt = gdtInit tss ∧ t.eflags &&& flagIF = 0 := by
  have henter := enter_inside stubs n hc (show 3 + err.toList.length ≤ N by omega) hN'
  obtain ⟨s, hstub, hs⟩ := isrStub_inside n henter (by
    simp only [List.length_append, List.length_cons, List.length_nil]
    omega)
  have hlen : (entered c n err).length + 13 ≤ N := by
    unfold entered
    split_ifs <;> simp only [List.length_append, List.length_cons, List.length_nil] <;> omega
  have hcpl : s.cpl = 0 := (congrArg rpl (congrFun hs.seg .cs)).trans hc.cpl
  have hdata : dataOk s.gdt s.cpl 0x10 = true := by
    rw [hs.gdt, hc.gdt, hcpl]
    rfl
  have hstack : Stacked c.mem (c.reg .esp) N s (entered c n err) := by
    rw [entered, List.append_assoc]
    exact hs.stack
  obtain ⟨t, hsave, hframe, hcs, hss, hgdt, hflags⟩ := isrSave_run hstack hlen hdata
  refine ⟨t, s.reg .esp, (run_append hstub).trans hsave, ?_, ?_, ?_, ?_, ?_⟩
  · have hsaved : saved s ++ entered c n err = intFrame c (s.reg .esp) (c.reg .eax) (entered c n err) := by
      rw [saved, pushed, hs.seg, intFrame, List.append_assoc, hs.reg .edi (by decide), hs.reg .esi (by decide),
        hs.reg .ebp (by decide), hs.reg .ebx (by decide), hs.reg .edx (by decide), hs.reg .ecx (by decide),
        hs.reg .eax (by decide)]
    exact hsaved ▸ hframe
  · rw [hcs, hs.seg, hc.code]
  · rw [hss, hs.seg]
  · rw [hgdt, hs.gdt, hc.gdt]
  · have hdf : ~~~flagDF &&& flagIF = flagIF := by decide
    have hif : ~~~flagIF &&& flagIF = 0 := by decide
    rw [hflags, hs.flags, BitVec.and_assoc, hdf, BitVec.and_assoc, hif]
    exact BitVec.and_zero

/-- The program goes on where it was, with `v` in `eax`; only the stack in front of its own has been used. -/
structure Resumed (c : State) (v : Word) (u : State) : Prop where
  reg : u.reg = Function.update c.reg .eax v
  seg : u.seg = c.seg
  eip : u.eip = c.eip
  eflags : u.eflags = c.eflags
  gdt : u.gdt = c.gdt
  mem : ∀ x, (∀ k, 0 < k → k ≤ 18 → x + BitVec.ofNat 32 (4 * k) ≠ c.reg .esp) → u.mem x = c.mem x

theorem Resumed.ready {u : State} {v : Word} (h : Resumed c v u) (hc : Ready tss c) : Ready tss u where
  gdt := h.gdt.trans hc.gdt
  code := (congrFun h.seg _).trans hc.code
  data g hg := by
    rw [h.gdt, h.seg]
    exact hc.data g hg

theorem resumed_run {esp v : Word} (hc : Ready tss c) (hn : n ∉ isrErr)
    (h : Stacked c.mem (c.reg .esp) 18 t (p :: intFrame c esp v (entered c n none))) (hcs : t.seg .cs = 0x08)
    (hss : t.seg .ss = c.seg .ss) (hgdt : t.gdt = gdtInit tss) : ∃ u, run t isrRestore = .ok u ∧ Resumed c v u := by
  have hentered : entered c n none = [.ofNat 32 n, 0, c.eip, (c.seg .cs).setWidth 32, c.eflags] := by
    rw [entered, if_neg hn]
    rfl
  have hcpl : t.cpl = 0 := by
    rw [State.cpl, hcs]
    rfl
  have hsel : ((c.seg .cs).setWidth 32).setWidth 16 = c.seg .cs := setWidth_selector
  rw [intFrame, hentered] at h
  obtain ⟨u, hrun, hstack, heip, hflags, hseg, hgdt', hedi, hesi, hebp, hebx, hedx, hecx, heax⟩ := isrRestore_run h
    (fun g hg => by
      rw [hcpl, hgdt, ← hc.gdt]
      exact hc.data g hg)
    (by
      rw [hsel, hc.code, hcpl, hgdt]
      rfl)
    (by
      rw [hsel, hc.code, hcpl]
      rfl)
  have hesp : u.reg .esp = c.reg .esp := (BitVec.add_zero _).symm.trans hstack.esp
  refine ⟨u, hrun, ⟨funext fun r => ?_, hseg.trans (funext fun g => ?_), heip, hflags, ?_, hstack.kept⟩⟩
  · rw [Function.update_apply]
    cases r <;> simp only [reduceCtorEq, if_false, if_true, hedi, hesi, hebp, hebx, hedx, hecx, heax, hesp]
  · rw [Function.update_apply, hsel]
    cases g <;> simp [hss]
  · rw [hgdt', hgdt, hc.gdt]

end Stubs

/-! ### One interrupt -/

namespace Computer

section Deliver

variable {σ : Type} {routine : Routine σ} {stubs : ℕ → Word} {port : UInt8} {cr2 : UInt32} {k : Computer σ} {n : ℕ}
  {tss : Word} {err : Option Word}

/-- The interrupts after which the program goes on. -/
def handledVectors : List ℕ := [32, 33, 80]

/-- What such an interrupt is for, and what is in `eax` afterwards. -/
def serviced (routine : Routine σ) (port : UInt8) (k : Computer σ) (n : ℕ) : Computer σ × Word :=
  if n = 32 then ({ k with globalTickCount := k.globalTickCount + 1, pic := k.pic.eoi 0 }, k.cpu.reg .eax)
  else if n = 33 then
    ({ k.echoed (keyboardHandler k.keys port).1 with keys := (keyboardHandler k.keys port).2, pic := k.pic.eoi 1 },
      k.cpu.reg .eax)
  else
    let result := routine (k.cpu.reg .eax) (k.cpu.reg .ebx) (k.cpu.reg .ecx) (k.cpu.reg .edx) (k.cpu.reg .esi)
      (k.cpu.reg .edi) k.rest
    ({ k with rest := result.2 }, result.1)

/-- What `isr_dispatch` reads of its frame. -/
theorem frame_eq {t : State} {m : Word → Word} {base w : Word} {N i : ℕ} {l : List Word}
    (h : Stacked m base N t ((t.reg .esp + 4) :: l)) (hi : l[i]? = some w) : ({ k with cpu := t }).frame t.top i = w := by
  have hword := h.drop.word hi
  rw [drop_esp] at hword
  rw [h.top]
  exact hword

/-- `isr_common` goes on behind the call. -/
theorem deliver_live {t u : State} (k' : Computer σ)
    (hrun : run (k.cpu.enter (idt stubs n) inner err) (isrStub n ++ isrSave) = .ok t)
    (hdispatch : isrDispatch routine port cr2 { k with cpu := t } t.top = k') (hlive : k'.halted = false)
    (hrestore : run k'.cpu isrRestore = .ok u) :
    deliver routine stubs port cr2 k n err = .ok { k' with cpu := u } := by
  rw [deliver, hrun]
  change (if (isrDispatch routine port cr2 { k with cpu := t } t.top).halted = true then _ else
    run (isrDispatch routine port cr2 { k with cpu := t } t.top).cpu isrRestore >>= _) = _
  rw [hdispatch, hlive, if_neg Bool.false_ne_true, hrestore]
  rfl

/-- Or it does not. -/
theorem deliver_halted {t : State} (k' : Computer σ)
    (hrun : run (k.cpu.enter (idt stubs n) inner err) (isrStub n ++ isrSave) = .ok t)
    (hdispatch : isrDispatch routine port cr2 { k with cpu := t } t.top = k') (hhalted : k'.halted = true) :
    deliver routine stubs port cr2 k n err = .ok k' := by
  rw [deliver, hrun]
  change (if (isrDispatch routine port cr2 { k with cpu := t } t.top).halted = true then _ else _) = _
  rw [hdispatch, if_pos hhalted]
  rfl

/-- **An interrupt that is handled does what it is for, and the program goes on as it was.** -/
theorem deliver_handled (routine : Routine σ) (stubs : ℕ → Word) (port : UInt8) (cr2 : UInt32) (hk : Ready tss k.cpu) (hlive : k.halted = false) (hn : n ∈ handledVectors) :
    ∃ u, deliver routine stubs port cr2 k n none = .ok { (serviced routine port k n).1 with cpu := u } ∧
      Resumed k.cpu (serviced routine port k n).2 u := by
  have herr : n ∉ isrErr := by
    revert n
    decide
  obtain ⟨t, esp, hrun, hstack, hcs, hss, hgdt, -⟩ := entered_run stubs n none hk (le_refl 18) (by decide)
  have hno : ({ k with cpu := t }).frame t.top 12 = BitVec.ofNat 32 n := frame_eq hstack rfl
  rcases hn with - | ⟨_, - | ⟨_, - | ⟨_, ⟨⟩⟩⟩⟩
  · obtain ⟨u, hrestore, hresumed⟩ := resumed_run hk herr hstack hcs hss hgdt
    refine ⟨u, deliver_live { (serviced routine port k 32).1 with cpu := t } hrun ?_ hlive hrestore, hresumed⟩
    rw [isrDispatch, hno]
    rfl
  · obtain ⟨u, hrestore, hresumed⟩ := resumed_run hk herr hstack hcs hss hgdt
    refine ⟨u, deliver_live { (serviced routine port k 33).1 with cpu := t } hrun ?_ hlive hrestore, hresumed⟩
    rw [isrDispatch, hno]
    rfl
  · -- the result is stored in the frame, in place of `eax`
    have haddr : t.top + BitVec.ofNat 32 (4 * 11) = t.reg .esp + BitVec.ofNat 32 (4 * 12) := by
      rw [hstack.top]
      bv_omega
    have hset := hstack.store (i := 12) (v := (serviced routine port k 80).2) (by
      simp only [intFrame, List.length_cons, List.length_append, List.length_map]
      omega)
    obtain ⟨u, hrestore, hresumed⟩ := resumed_run hk herr hset hcs hss hgdt
    refine ⟨u, deliver_live { (serviced routine port k 80).1 with
      cpu := t.store (t.reg .esp + BitVec.ofNat 32 (4 * 12)) (serviced routine port k 80).2 } hrun ?_ hlive hrestore,
      hresumed⟩
    rw [isrDispatch, hno]
    change syscallIsrDispatch routine { k with cpu := t } t.top = _
    rw [syscallIsrDispatch, frame_eq hstack (i := 11) rfl, frame_eq hstack (i := 8) rfl, frame_eq hstack (i := 10) rfl,
      frame_eq hstack (i := 9) rfl, frame_eq hstack (i := 5) rfl, frame_eq hstack (i := 4) rfl, haddr]
    rfl

/-- **Every other interrupt stops the machine**: it is reported, and `hlt` waits with `IF` clear. -/
theorem deliver_fatal (hk : Ready tss k.cpu) (hn : n < 256) (hfatal : n ∉ handledVectors) :
    ∃ k', deliver routine stubs port cr2 k n err = .ok k' ∧ k'.halted = true ∧ k'.cpu.eflags &&& flagIF = 0 ∧
      k'.globalTickCount = k.globalTickCount ∧ k'.keys = k.keys ∧ k'.rest = k.rest ∧
      ∃ code, k'.screen = k.screen.map (· ++ report cr2 (.ofNat 32 n) code) := by
  have hlen : err.toList.length ≤ 1 := by cases err <;> simp
  obtain ⟨t, esp, hrun, hstack, -, -, -, hflags⟩ := entered_run stubs n err hk (show 18 + err.toList.length ≤ 19 by omega)
    (by decide)
  have hno : ({ k with cpu := t }).frame t.top 12 = BitVec.ofNat 32 n := frame_eq hstack rfl
  have hne : ∀ v < 256, v ∈ handledVectors → BitVec.ofNat 32 n ≠ BitVec.ofNat 32 v := by
    intro v hv hmem heq
    have hnv : n = v := by
      have := congrArg BitVec.toNat heq
      simp only [BitVec.toNat_ofNat] at this
      omega
    exact hfatal (hnv ▸ hmem)
  have hdispatch : isrDispatch routine port cr2 { k with cpu := t } t.top =
      { ({ k with cpu := t } : Computer σ).echoed (some (report cr2 (.ofNat 32 n) (({ k with cpu := t }).frame t.top 13))) with
        pic := if (BitVec.ofNat 32 n).toNat ≥ 32 then k.pic.eoi ((BitVec.ofNat 32 n).toNat - 32) else k.pic
        halted := true } := by
    have h32 : BitVec.ofNat 32 n ≠ (32 : Word) := hne 32 (by decide) (by decide)
    have h33 : BitVec.ofNat 32 n ≠ (33 : Word) := hne 33 (by decide) (by decide)
    have h80 : BitVec.ofNat 32 n ≠ (80 : Word) := hne 80 (by decide) (by decide)
    rw [isrDispatch, hno, if_neg h32, if_neg h33, if_neg h80, decide_eq_true hflags]
  refine ⟨_, deliver_halted _ hrun hdispatch rfl, rfl, hflags, rfl, rfl, rfl,
    ({ k with cpu := t }).frame t.top 13, ?_⟩
  change k.screen.bind _ = k.screen.map _
  cases k.screen <;> rfl

end Deliver

end Computer

end Flopperating
