/-
# A part of the 32-bit processor

The instructions that move words between registers, the stack and the segment registers, and the
return from an interrupt, in protected mode.

| processor | here |
| --- | --- |
| memory | a word at each address; all accesses of a program are at addresses that agree modulo 4 |
| a segment register | the selector, which is checked against the table of descriptors when it is loaded |
| `#GP` | `Fault` |
| the address of the next instruction | `eip` after a jump, and not followed in between |

Programs run in ring 0, and there is no local descriptor table and no nested task.  Of the flags only the
interrupt flag matters where a handler is entered.

`Stacked m base n s l` says that the words `l` are on the stack of `s`, the last one that has been pushed in
front, that the stack pointer was `base` before them, and that the memory was `m`, of which only `n` words
in front of `base` may have been written.  The instructions for the stack have rules about it.
-/

import Mathlib.Algebra.Group.Nat.Defs
import Mathlib.Logic.Function.Basic
import Mathlib.Tactic.Common

namespace X86

/-- A word. -/
abbrev Word := BitVec 32

/-- The general registers. -/
inductive Reg
  | eax | ecx | edx | ebx | esp | ebp | esi | edi
  deriving DecidableEq

/-- The segment registers. -/
inductive Seg
  | es | cs | ss | ds | fs | gs
  deriving DecidableEq

/-- A protection fault, and its error code. -/
structure Fault where
  selector : BitVec 16
  deriving DecidableEq

/-- A state. -/
@[ext]
structure State where
  reg : Reg → Word
  seg : Seg → BitVec 16
  eip : Word
  eflags : Word
  mem : Word → Word
  gdt : List (BitVec 64)

/-! ### Descriptors -/

/-- A descriptor of the table. -/
abbrev Descriptor := BitVec 64

namespace Descriptor

def present (d : Descriptor) : Bool := d.getLsbD 47

/-- It is that of a segment, and not of a task or a gate. -/
def isSegment (d : Descriptor) : Bool := d.getLsbD 44

def isCode (d : Descriptor) : Bool := d.getLsbD 43

def conforming (d : Descriptor) : Bool := d.getLsbD 42

/-- Code that can be read, or data that can be written. -/
def accessible (d : Descriptor) : Bool := d.getLsbD 41

def dpl (d : Descriptor) : ℕ := (d.extractLsb' 45 2).toNat

def base (d : Descriptor) : ℕ := (d.extractLsb' 16 24).toNat + (d.extractLsb' 56 8).toNat * 2 ^ 24

def limit (d : Descriptor) : ℕ := (d.extractLsb' 0 16).toNat + (d.extractLsb' 48 4).toNat * 2 ^ 16

/-- The type, with the bit for segments, the level and the bit for present segments. -/
def access (d : Descriptor) : BitVec 8 := d.extractLsb' 40 8

def flags (d : Descriptor) : BitVec 4 := d.extractLsb' 52 4

end Descriptor

/-- The level that a selector asks for. -/
def rpl (sel : BitVec 16) : ℕ := sel.toNat % 4

/-- The level of the program. -/
def State.cpl (s : State) : ℕ := rpl (s.seg .cs)

/-- The descriptor of a selector. -/
def lookup (gdt : List Descriptor) (sel : BitVec 16) : Option Descriptor :=
  if sel.toNat < 4 ∨ sel.getLsbD 2 then none else gdt[sel.toNat / 8]?

/-- A data segment register takes the selector. -/
def dataOk (gdt : List Descriptor) (cpl : ℕ) (sel : BitVec 16) : Bool :=
  sel.toNat < 4 || (lookup gdt sel).elim false fun d =>
    d.present && d.isSegment && (!d.isCode || d.accessible) &&
      (d.isCode && d.conforming || (cpl ≤ d.dpl && rpl sel ≤ d.dpl))

/-- A return goes to the code of the selector. -/
def codeOk (gdt : List Descriptor) (cpl : ℕ) (sel : BitVec 16) : Bool :=
  cpl ≤ rpl sel && (lookup gdt sel).elim false fun d =>
    d.present && d.isSegment && d.isCode && (if d.conforming then d.dpl ≤ rpl sel else d.dpl = rpl sel)

/-- The stack segment register takes the selector. -/
def stackOk (gdt : List Descriptor) (cpl : ℕ) (sel : BitVec 16) : Bool :=
  rpl sel = cpl && (lookup gdt sel).elim false fun d =>
    d.present && d.isSegment && !d.isCode && d.accessible && d.dpl = cpl

/-! ### Instructions -/

namespace State

def set (s : State) (r : Reg) (w : Word) : State := { s with reg := Function.update s.reg r w }

def setSeg (s : State) (g : Seg) (sel : BitVec 16) : State := { s with seg := Function.update s.seg g sel }

def store (s : State) (a w : Word) : State := { s with mem := Function.update s.mem a w }

/-- Push a word. -/
def push (s : State) (w : Word) : State := (s.store (s.reg .esp - 4) w).set .esp (s.reg .esp - 4)

/-- The word on top of the stack. -/
def top (s : State) : Word := s.mem (s.reg .esp)

/-- The stack without it. -/
def drop (s : State) : State := s.set .esp (s.reg .esp + 4)

def pop (s : State) (r : Reg) : State := s.drop.set r s.top

/-- Load a data segment register. -/
def loadSeg (s : State) (g : Seg) (sel : BitVec 16) : Except Fault State :=
  if dataOk s.gdt s.cpl sel then .ok (s.setSeg g sel) else .error ⟨sel⟩

/-- `pusha`. -/
def pusha (s : State) : State :=
  (((((((s.push (s.reg .eax)).push (s.reg .ecx)).push (s.reg .edx)).push (s.reg .ebx)).push (s.reg .esp)).push
    (s.reg .ebp)).push (s.reg .esi)).push (s.reg .edi)

/-- `popa`. -/
def popa (s : State) : State :=
  (((((((s.pop .edi).pop .esi).pop .ebp).drop).pop .ebx).pop .edx).pop .ecx).pop .eax

/-- Data segment registers that the outer level may not use are cleared. -/
def clearSegs (s : State) : State :=
  { s with seg := fun g => if g = .cs ∨ g = .ss ∨ dataOk s.gdt s.cpl (s.seg g) then s.seg g else 0 }

/-- `iretd`. -/
def iretd (s : State) : Except Fault State :=
  let eip := s.top
  let cs := s.drop.top.setWidth 16
  let eflags := s.drop.drop.top
  let back := { s.drop.drop.drop.setSeg .cs cs with eip := eip, eflags := eflags }
  if codeOk s.gdt s.cpl cs = false then .error ⟨cs⟩
  else if rpl cs = s.cpl then .ok back
  else
    let ss := back.drop.top.setWidth 16
    if stackOk s.gdt (rpl cs) ss then .ok ((back.set .esp back.top).setSeg .ss ss).clearSegs else .error ⟨ss⟩

end State

/-- The instructions. -/
inductive Instr
  | mov (dst src : Reg)
  /-- `mov ax, imm` -/
  | movLow (dst : Reg) (imm : BitVec 16)
  | load (dst base : Reg) (disp : Word)
  | movSeg (dst : Seg) (src : Reg)
  | push (src : Reg)
  | pushImm (imm : Word)
  | pushMem (base : Reg) (disp : Word)
  | pushSeg (src : Seg)
  | pushfd
  | pop (dst : Reg)
  | popSeg (dst : Seg)
  | pusha
  | popa
  | orMem (base : Reg) (imm : Word)
  | addEsp (imm : Word)
  | cld
  | ret
  | iretd
  deriving DecidableEq

/-- The direction flag and the interrupt flag. -/
abbrev flagDF : Word := 0x400

abbrev flagIF : Word := 0x200

/-- What an instruction does. -/
def exec (s : State) : Instr → Except Fault State
  | .mov dst src => .ok (s.set dst (s.reg src))
  | .movLow dst imm => .ok (s.set dst (s.reg dst &&& 0xFFFF0000 ||| imm.setWidth 32))
  | .load dst base disp => .ok (s.set dst (s.mem (s.reg base + disp)))
  | .movSeg dst src => s.loadSeg dst ((s.reg src).setWidth 16)
  | .push src => .ok (s.push (s.reg src))
  | .pushImm imm => .ok (s.push imm)
  | .pushMem base disp => .ok (s.push (s.mem (s.reg base + disp)))
  | .pushSeg src => .ok (s.push ((s.seg src).setWidth 32))
  | .pushfd => .ok (s.push s.eflags)
  | .pop dst => .ok (s.pop dst)
  | .popSeg dst => (s.loadSeg dst (s.top.setWidth 16)).map State.drop
  | .pusha => .ok s.pusha
  | .popa => .ok s.popa
  | .orMem base imm => .ok (s.store (s.reg base) (s.mem (s.reg base) ||| imm))
  | .addEsp imm => .ok (s.set .esp (s.reg .esp + imm))
  | .cld => .ok { s with eflags := s.eflags &&& ~~~flagDF }
  | .ret => .ok { s.drop with eip := s.top }
  | .iretd => s.iretd

/-- What some instructions do. -/
def run (s : State) (program : List Instr) : Except Fault State := program.foldlM exec s

/-! ### Interrupts -/

/-- A gate to the handler of an interrupt. -/
structure Gate where
  offset : Word
  selector : BitVec 16
  flags : BitVec 8
  deriving DecidableEq

namespace Gate

def dpl (g : Gate) : ℕ := (g.flags.extractLsb' 5 2).toNat

/-- It is an interrupt gate: `IF` is cleared. -/
def isInterrupt (g : Gate) : Bool := g.flags.extractLsb' 0 4 = 0xE

end Gate

/-- The processor enters a handler of ring 0.  From an outer level it goes to the stack `inner` of the task. -/
def State.enter (s : State) (g : Gate) (inner : Word × BitVec 16) (err : Option Word) : State :=
  let onStack := if s.cpl = 0 then s else
    (((s.set .esp inner.1).setSeg .ss inner.2).push ((s.seg .ss).setWidth 32)).push (s.reg .esp)
  let saved := ((onStack.push s.eflags).push ((s.seg .cs).setWidth 32)).push s.eip
  let entered := err.elim saved saved.push
  { entered.setSeg .cs g.selector with
    eip := g.offset, eflags := if g.isInterrupt then s.eflags &&& ~~~flagIF else s.eflags }

/-! ### Rules -/

section Rules

variable {s s' : State} {base a w x : Word} {l : List Word} {r : Reg} {g : Seg} {program rest : List Instr} {i : Instr}

@[simp] theorem set_reg : (s.set r w).reg = Function.update s.reg r w := rfl

theorem set_reg_of_ne {q : Reg} (hq : q ≠ r) : (s.set r w).reg q = s.reg q := Function.update_of_ne hq ..

@[simp] theorem push_esp : (s.push w).reg .esp = s.reg .esp - 4 := by
  rw [State.push, set_reg, Function.update_self]

theorem push_reg (hr : r ≠ .esp) : (s.push w).reg r = s.reg r := Function.update_of_ne hr ..

@[simp] theorem drop_esp : s.drop.reg .esp = s.reg .esp + 4 := by
  rw [State.drop, set_reg, Function.update_self]

theorem drop_reg (hr : r ≠ .esp) : s.drop.reg r = s.reg r := Function.update_of_ne hr ..

@[simp] theorem drop_mem : s.drop.mem = s.mem := rfl

/-- One instruction after the other. -/
theorem run_cons (h : exec s i = .ok s') : run s (i :: program) = run s' program := by
  rw [run, List.foldlM_cons, h]
  rfl

/-- The last instruction. -/
theorem run_singleton : run s [i] = exec s i := by
  rw [run, List.foldlM_cons]
  exact bind_pure _

theorem run_append (h : run s program = .ok s') : run s (program ++ rest) = run s' rest := by
  rw [run, List.foldlM_append]
  exact congrArg (· >>= fun s => run s rest) h

/-- The words from an address on. -/
def Holds (m : Word → Word) : Word → List Word → Prop
  | _, [] => True
  | a, w :: l => m a = w ∧ Holds m (a + 4) l

/-- The words `l` are on the stack in front of `base`, where `n` words of the memory `m` have been given up. -/
structure Stacked (m : Word → Word) (base : Word) (n : ℕ) (s : State) (l : List Word) : Prop where
  esp : s.reg .esp + BitVec.ofNat 32 (4 * l.length) = base
  holds : Holds s.mem (s.reg .esp) l
  fits : l.length ≤ n ∧ n < 2 ^ 30
  kept : ∀ x, (∀ k, 0 < k → k ≤ n → x + BitVec.ofNat 32 (4 * k) ≠ base) → s.mem x = m x

theorem Holds.update {f : Word → Word} (h : Holds f a l)
    (hx : ∀ i < l.length, x ≠ a + BitVec.ofNat 32 (4 * i)) : Holds (Function.update f x w) a l := by
  induction l generalizing a with
  | nil => exact trivial
  | cons v l ih =>
    refine ⟨(Function.update_of_ne ?_ ..).trans h.1, ih h.2 fun i hi => ?_⟩
    · have := hx 0 (Nat.succ_pos _)
      rw [Nat.mul_zero] at this
      exact fun heq => this (heq ▸ (BitVec.add_zero a).symm)
    · have := hx (i + 1) (Nat.succ_lt_succ hi)
      have hadd : a + BitVec.ofNat 32 (4 * (i + 1)) = a + 4 + BitVec.ofNat 32 (4 * i) := by bv_omega
      rwa [hadd] at this

theorem push_mem : (s.push w).mem = Function.update s.mem (s.reg .esp - 4) w := rfl

variable {m : Word → Word} {n : ℕ}

/-- Nothing has been pushed. -/
theorem stacked_nil (hn : n < 2 ^ 30) : Stacked s.mem (s.reg .esp) n s [] :=
  ⟨BitVec.add_zero _, trivial, ⟨Nat.zero_le n, hn⟩, fun _ _ => rfl⟩

/-- **What is pushed is in front of the words that are on the stack.** -/
theorem Stacked.push (h : Stacked m base n s l) (hl : l.length < n) : Stacked m base n (s.push w) (w :: l) := by
  obtain ⟨hesp, hholds, ⟨-, hn⟩, hkept⟩ := h
  refine ⟨?_, ⟨?_, ?_⟩, ⟨hl, hn⟩, fun x hx => ?_⟩
  · rw [push_esp, ← hesp, List.length_cons]
    bv_omega
  · rw [push_esp, push_mem, Function.update_self]
  · have hback : s.reg .esp - 4 + 4 = s.reg .esp := BitVec.sub_add_cancel _ _
    rw [push_esp, push_mem, hback]
    refine hholds.update fun i hi heq => ?_
    bv_omega
  · have hne : x ≠ s.reg .esp - 4 := by
      intro heq
      refine hx (l.length + 1) (Nat.succ_pos _) hl ?_
      rw [heq, ← hesp]
      bv_omega
    rw [push_mem, Function.update_of_ne hne]
    exact hkept x hx

theorem Stacked.top (h : Stacked m base n s (w :: l)) : s.top = w := h.holds.1

/-- **And what is on top can be taken off.** -/
theorem Stacked.drop (h : Stacked m base n s (w :: l)) : Stacked m base n s.drop l := by
  obtain ⟨hesp, hholds, ⟨hl, hn⟩, hkept⟩ := h
  refine ⟨?_, ?_, ⟨Nat.le_of_succ_le hl, hn⟩, hkept⟩
  · rw [drop_esp, ← hesp, List.length_cons]
    bv_omega
  · rw [drop_esp, drop_mem]
    exact hholds.2

theorem Stacked.pop (h : Stacked m base n s (w :: l)) (hr : r ≠ .esp) :
    Stacked m base n (s.pop r) l ∧ (s.pop r).reg r = w := by
  have hdrop := h.drop
  have hesp : (s.pop r).reg .esp = s.drop.reg .esp := Function.update_of_ne hr.symm ..
  refine ⟨⟨hesp ▸ hdrop.esp, hesp ▸ hdrop.holds, hdrop.fits, hdrop.kept⟩, ?_⟩
  rw [State.pop, set_reg, Function.update_self, h.top]

theorem pop_reg {q : Reg} (hq : q ≠ r) (hesp : q ≠ .esp) : (s.pop r).reg q = s.reg q :=
  (Function.update_of_ne hq ..).trans (drop_reg hesp)

/-- The words that are on the stack can be read. -/
theorem Stacked.word (h : Stacked m base n s l) {i : ℕ} (hi : l[i]? = some w) :
    s.mem (s.reg .esp + BitVec.ofNat 32 (4 * i)) = w := by
  have hholds : ∀ {a : Word} {l : List Word} {i : ℕ}, Holds s.mem a l → l[i]? = some w →
      s.mem (a + BitVec.ofNat 32 (4 * i)) = w := by
    intro a l i hl hi
    induction l generalizing a i with
    | nil => exact nomatch hi
    | cons v l ih =>
      cases i with
      | zero => exact (congrArg s.mem (BitVec.add_zero a)).trans (hl.1.trans (Option.some.inj hi))
      | succ i =>
        have hadd : a + BitVec.ofNat 32 (4 * (i + 1)) = a + 4 + BitVec.ofNat 32 (4 * i) := by bv_omega
        rw [hadd]
        exact ih hl.2 hi
  exact hholds h.holds hi

/-- And so can the words above them, which are as they were. -/
theorem Stacked.above (h : Stacked m base n s l) (j : ℕ) (hj : j + n < 2 ^ 30) :
    s.mem (s.reg .esp + BitVec.ofNat 32 (4 * (l.length + j))) = m (base + BitVec.ofNat 32 (4 * j)) := by
  have haddr : s.reg .esp + BitVec.ofNat 32 (4 * (l.length + j)) = base + BitVec.ofNat 32 (4 * j) := by
    rw [← h.esp]
    bv_omega
  rw [haddr]
  refine h.kept _ fun k hk hkn heq => ?_
  bv_omega

/-- A word of the stack can be changed. -/
theorem Stacked.store (h : Stacked m base n s l) {i : ℕ} {v : Word} (hi : i < l.length) :
    Stacked m base n (s.store (s.reg .esp + BitVec.ofNat 32 (4 * i)) v) (l.set i v) := by
  have hholds : ∀ {f : Word → Word} {a : Word} {l : List Word} {i : ℕ}, Holds f a l → l.length < 2 ^ 30 → i < l.length →
      Holds (Function.update f (a + BitVec.ofNat 32 (4 * i)) v) a (l.set i v) := by
    intro f a l i hl hlen hi
    induction l generalizing a i with
    | nil => exact absurd hi (Nat.not_lt_zero i)
    | cons w l ih =>
      rw [List.length_cons] at hlen
      cases i with
      | zero =>
        have hzero : a + BitVec.ofNat 32 (4 * 0) = a := BitVec.add_zero a
        rw [hzero]
        exact ⟨Function.update_self .., hl.2.update fun j hj heq => by bv_omega⟩
      | succ i =>
        rw [List.length_cons] at hi
        have hadd : a + BitVec.ofNat 32 (4 * (i + 1)) = a + 4 + BitVec.ofNat 32 (4 * i) := by bv_omega
        refine ⟨(Function.update_of_ne (fun heq => ?_) ..).trans hl.1, ?_⟩
        · bv_omega
        · rw [hadd]
          exact ih hl.2 (by omega) (by omega)
  obtain ⟨hesp, hl, ⟨hlen, hn⟩, hkept⟩ := h
  refine ⟨by rwa [List.length_set], hholds hl (by omega) hi, ⟨by rwa [List.length_set], hn⟩, fun x hx => ?_⟩
  refine (Function.update_of_ne (fun heq => hx (l.length - i) (by omega) (by omega) ?_) ..).trans (hkept x hx)
  rw [heq, ← hesp]
  bv_omega

/-- And the one on top as well. -/
theorem Stacked.storeTop {v : Word} (h : Stacked m base n s (w :: l)) :
    Stacked m base n (s.store (s.reg .esp) v) (v :: l) := by
  have hstore := h.store (v := v) (Nat.succ_pos l.length)
  rwa [Nat.mul_zero, BitVec.add_zero] at hstore

theorem pop_self : (s.pop r).reg r = s.top := by rw [State.pop, set_reg, Function.update_self]

theorem pop_esp (hr : r ≠ .esp) : (s.pop r).reg .esp = s.reg .esp + 4 := (Function.update_of_ne hr.symm ..).trans drop_esp

/-- The stack is that of another state with the same memory and the same stack pointer. -/
theorem Stacked.congr (h : Stacked m base n s l) (hmem : s'.mem = s.mem) (hesp : s'.reg .esp = s.reg .esp) :
    Stacked m base n s' l := ⟨hesp ▸ h.esp, hesp ▸ hmem ▸ h.holds, h.fits, hmem ▸ h.kept⟩

/-- The low half of a register that has been set. -/
theorem setWidth_movLow {imm : BitVec 16} : (w &&& 0xFFFF0000 ||| imm.setWidth 32).setWidth 16 = imm := by
  have hmask : (0xFFFF0000 : Word).setWidth 16 = 0#16 := rfl
  rw [BitVec.setWidth_or, BitVec.setWidth_and, hmask, BitVec.and_zero, BitVec.zero_or, BitVec.setWidth_setWidth_of_le _ (by decide),
    BitVec.setWidth_eq]

/-- A segment register that takes its selector. -/
theorem movSeg_ok {sel : BitVec 16} (hsel : (s.reg r).setWidth 16 = sel) (h : dataOk s.gdt s.cpl sel = true) :
    exec s (.movSeg g r) = .ok (s.setSeg g sel) := by
  rw [exec, hsel]
  exact if_pos h

/-- Segment registers that take the same selector, one after the other. -/
theorem run_movSegs {sel : BitVec 16} {l : List Seg} (hsel : (s.reg r).setWidth 16 = sel)
    (h : dataOk s.gdt s.cpl sel = true) (hl : .cs ∉ l) :
    run s (l.map (.movSeg · r)) = .ok { s with seg := fun g => if g ∈ l then sel else s.seg g } := by
  induction l generalizing s with
  | nil =>
    have hseg : (fun g => if g ∈ ([] : List Seg) then sel else s.seg g) = s.seg :=
      funext fun g => if_neg List.not_mem_nil
    rw [hseg]
    rfl
  | cons g l ih =>
    obtain ⟨hg, hl⟩ := not_or.1 (mt List.mem_cons.2 hl)
    have hcpl : (s.setSeg g sel).cpl = s.cpl := congrArg rpl (Function.update_of_ne hg ..)
    rw [List.map_cons, run_cons (movSeg_ok hsel h), ih (s := s.setSeg g sel) hsel (hcpl ▸ h) hl]
    refine congrArg Except.ok (State.ext rfl (funext fun g' => ?_) rfl rfl rfl rfl)
    change (if g' ∈ l then sel else Function.update s.seg g sel g') = if g' ∈ g :: l then sel else s.seg g'
    rw [Function.update_apply]
    grind

theorem setWidth_selector {sel : BitVec 16} : (sel.setWidth 32).setWidth 16 = sel := by
  rw [BitVec.setWidth_setWidth_of_le _ (by decide), BitVec.setWidth_eq]

/-- Segment registers that take their selectors from the stack. -/
theorem Stacked.run_popSegs {sel : Seg → BitVec 16} {gs : List Seg}
    (h : Stacked m base n s (gs.map (fun g => (sel g).setWidth 32) ++ l)) (hcs : .cs ∉ gs)
    (hok : ∀ g ∈ gs, dataOk s.gdt s.cpl (sel g) = true) :
    ∃ t, run s (gs.map .popSeg) = .ok t ∧ Stacked m base n t l ∧ t.seg = (fun g => if g ∈ gs then sel g else s.seg g) ∧
      (∀ r, r ≠ .esp → t.reg r = s.reg r) ∧ t.eflags = s.eflags ∧ t.gdt = s.gdt := by
  induction gs generalizing s with
  | nil =>
    exact ⟨s, rfl, h, funext fun g => (if_neg List.not_mem_nil).symm, fun r _ => rfl, rfl, rfl⟩
  | cons g gs ih =>
    obtain ⟨hg, hcs⟩ := not_or.1 (mt List.mem_cons.2 hcs)
    have htop : s.top.setWidth 16 = sel g := (congrArg (BitVec.setWidth 16) h.top).trans setWidth_selector
    have hexec : exec s (.popSeg g) = .ok (s.setSeg g (sel g)).drop := by
      rw [exec, htop, State.loadSeg, if_pos (hok g List.mem_cons_self)]
      rfl
    have hcpl : (s.setSeg g (sel g)).drop.cpl = s.cpl := congrArg rpl (Function.update_of_ne hg ..)
    obtain ⟨t, ht, hstack, hseg, hreg, hflags, hgdt⟩ := ih (s := (s.setSeg g (sel g)).drop) (h.drop.congr rfl rfl) hcs
      fun g' hg' => hcpl.symm ▸ hok g' (List.mem_cons_of_mem _ hg')
    refine ⟨t, (run_cons hexec).trans ht, hstack, hseg.trans (funext fun g' => ?_), fun r hr => ?_, hflags, hgdt⟩
    · change (if g' ∈ gs then sel g' else Function.update s.seg g (sel g) g') = _
      rw [Function.update_apply]
      grind
    · exact (hreg r hr).trans (drop_reg hr)

theorem exec_addEsp8 : exec s (.addEsp 8) = .ok s.drop.drop := by
  refine congrArg Except.ok (State.ext (funext fun r => ?_) rfl rfl rfl rfl rfl)
  by_cases hr : r = .esp
  · rw [hr, set_reg, Function.update_self, drop_esp, drop_esp, BitVec.add_assoc]
    rfl
  · rw [set_reg_of_ne hr, drop_reg hr, drop_reg hr]

/-- The words that `pusha` pushes. -/
def pushed (s : State) : List Word :=
  [s.reg .edi, s.reg .esi, s.reg .ebp, s.reg .esp, s.reg .ebx, s.reg .edx, s.reg .ecx, s.reg .eax]

theorem Stacked.pusha (h : Stacked m base n s l) (hl : l.length + 8 ≤ n) :
    Stacked m base n s.pusha (pushed s ++ l) := by
  have h1 := h.push (w := s.reg .eax) (by omega)
  have h2 := h1.push (w := s.reg .ecx) (by rw [List.length_cons]; omega)
  have h3 := h2.push (w := s.reg .edx) (by simp only [List.length_cons]; omega)
  have h4 := h3.push (w := s.reg .ebx) (by simp only [List.length_cons]; omega)
  have h5 := h4.push (w := s.reg .esp) (by simp only [List.length_cons]; omega)
  have h6 := h5.push (w := s.reg .ebp) (by simp only [List.length_cons]; omega)
  have h7 := h6.push (w := s.reg .esi) (by simp only [List.length_cons]; omega)
  exact h7.push (by simp only [List.length_cons]; omega)

/-- **`popa` takes the registers from the stack**, all but the stack pointer. -/
theorem Stacked.popa {edi esi ebp esp ebx edx ecx eax : Word}
    (h : Stacked m base n s ([edi, esi, ebp, esp, ebx, edx, ecx, eax] ++ l)) :
    Stacked m base n s.popa l ∧ s.popa.reg .edi = edi ∧ s.popa.reg .esi = esi ∧ s.popa.reg .ebp = ebp ∧
      s.popa.reg .ebx = ebx ∧ s.popa.reg .edx = edx ∧ s.popa.reg .ecx = ecx ∧ s.popa.reg .eax = eax := by
  obtain ⟨h1, hedi⟩ := h.pop (r := .edi) (by decide)
  obtain ⟨h2, hesi⟩ := h1.pop (r := .esi) (by decide)
  obtain ⟨h3, hebp⟩ := h2.pop (r := .ebp) (by decide)
  obtain ⟨h4, hebx⟩ := h3.drop.pop (r := .ebx) (by decide)
  obtain ⟨h5, hedx⟩ := h4.pop (r := .edx) (by decide)
  obtain ⟨h6, hecx⟩ := h5.pop (r := .ecx) (by decide)
  obtain ⟨h7, heax⟩ := h6.pop (r := .eax) (by decide)
  refine ⟨h7, ?_, ?_, ?_, ?_, ?_, ?_, heax⟩ <;> simp (disch := decide) only [State.popa, pop_reg, drop_reg]
  · exact hedi
  · exact hesi
  · exact hebp
  · exact hebx
  · exact hedx
  · exact hecx

section Return

variable {eip cs eflags esp ss : Word}

/-- A return needs a code segment. -/
theorem Stacked.iretd_fault (h : Stacked m base n s (eip :: cs :: l))
    (hcode : codeOk s.gdt s.cpl (cs.setWidth 16) = false) : s.iretd = .error ⟨cs.setWidth 16⟩ := by
  have hcs : s.drop.top = cs := h.drop.top
  simp only [State.iretd, hcs, hcode, if_true]

/-- **A return to the same level.** -/
theorem Stacked.iretd_same (h : Stacked m base n s (eip :: cs :: eflags :: l))
    (hcode : codeOk s.gdt s.cpl (cs.setWidth 16) = true) (hrpl : rpl (cs.setWidth 16) = s.cpl) :
    ∃ t, s.iretd = .ok t ∧ t.eip = eip ∧ t.eflags = eflags ∧ t.seg = Function.update s.seg .cs (cs.setWidth 16) ∧
      t.gdt = s.gdt ∧ (∀ r, r ≠ .esp → t.reg r = s.reg r) ∧ Stacked m base n t l := by
  have hcs : s.drop.top = cs := h.drop.top
  have hfl : s.drop.drop.top = eflags := h.drop.drop.top
  refine ⟨{ s.drop.drop.drop.setSeg .cs (cs.setWidth 16) with eip := eip, eflags := eflags }, ?_, rfl, rfl, rfl, rfl,
    fun r hr => ?_, h.drop.drop.drop.congr rfl rfl⟩
  · simp only [State.iretd, hcs, hfl, h.top, hcode, hrpl, if_true, Bool.true_eq_false, if_false]
  · exact (drop_reg hr).trans ((drop_reg hr).trans (drop_reg hr))

/-- **A return to an outer level** changes the stack as well. -/
theorem Stacked.iretd_outer (h : Stacked m base n s (eip :: cs :: eflags :: esp :: ss :: l))
    (hcode : codeOk s.gdt s.cpl (cs.setWidth 16) = true) (hrpl : rpl (cs.setWidth 16) ≠ s.cpl)
    (hstack : stackOk s.gdt (rpl (cs.setWidth 16)) (ss.setWidth 16) = true) :
    ∃ t, s.iretd = .ok t ∧ t.eip = eip ∧ t.eflags = eflags ∧ t.seg .cs = cs.setWidth 16 ∧
      t.seg .ss = ss.setWidth 16 ∧ t.reg .esp = esp := by
  have hcs : s.drop.top = cs := h.drop.top
  have hfl : s.drop.drop.top = eflags := h.drop.drop.top
  have hesp : s.drop.drop.drop.top = esp := h.drop.drop.drop.top
  have hss : s.drop.drop.drop.drop.top = ss := h.drop.drop.drop.drop.top
  let back : State := { s.drop.drop.drop.setSeg .cs (cs.setWidth 16) with eip := eip, eflags := eflags }
  have hback : back.top = esp := hesp
  have hback' : back.drop.top = ss := hss
  refine ⟨((back.set .esp esp).setSeg .ss (ss.setWidth 16)).clearSegs, ?_, rfl, rfl, rfl, rfl, rfl⟩
  simp only [State.iretd, hcs, hfl, h.top, hcode, Bool.true_eq_false, if_false, if_neg hrpl]
  change (if stackOk s.gdt (rpl (cs.setWidth 16)) (back.drop.top.setWidth 16) = true then _ else _) = _
  rw [hback', if_pos hstack]
  exact congrArg (fun w => Except.ok ((back.set .esp w).setSeg .ss (ss.setWidth 16)).clearSegs) hback

end Return

end Rules

end X86
