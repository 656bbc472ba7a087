/-
# The way to user mode

`gdt_set_gate`, `our_gdt` and `gdt_init` of `src/mem/gdt.c`, `tss_init` of `src/task/tss.c`, and
`usermode_entry_routine` of `src/task/usermode_entry.asm`.

A gate that is set reads back as it was given.  But `gdt_init` asks for the gate of the task at index
`3`, which is that of the code segment of user mode: the return to selector `0x1B` faults, from every
state and for every user thread (`userMode_never`).  With the table as it stands in the source, the
routine would come to the address `0x23`: at the last `push` the argument is two words further up.
-/

import Flopperating.Data.X86
import Mathlib.Tactic.IntervalCases

namespace Flopperating

open X86

/-! ### Descriptors -/

/-- `our_gdt`. -/
def ourGdt : List Descriptor :=
  [0x0000000000000000, 0x00CF9A000000FFFF, 0x00CF92000000FFFF, 0x00CFFA000000FFFF, 0x00CFF2000000FFFF,
    0x0000000000000000]

/-- The descriptor that `gdt_set_gate` stores. -/
def gateDesc (base limit : BitVec 32) (access gran : BitVec 8) : Descriptor :=
  let desc : BitVec 64 := limit.setWidth 64 &&& 0xFFFF
  let desc := desc ||| ((base.setWidth 64 &&& 0xFFFFFF) <<< 16)
  let desc := desc ||| (access.setWidth 64 <<< 40)
  let desc := desc ||| (((limit >>> 16).setWidth 64 &&& 0x0F) <<< 48)
  let desc := desc ||| ((gran &&& 0xF0).setWidth 64 <<< 48)
  desc ||| (((base >>> 24).setWidth 64 &&& 0xFF) <<< 56)

/-- `gdt_set_gate`. -/
def gdtSetGate (gdt : List Descriptor) (idx : ℕ) (base limit : BitVec 32) (access gran : BitVec 8) : List Descriptor :=
  gdt.set idx (gateDesc base limit access gran)

/-- `sizeof(tss_entry_t)`. -/
def tssEntrySize : BitVec 32 := 104

/-- `tss_init`, for a `tss_entry` at `base`: `ltr` marks the task as busy. -/
def tssInit (gdt : List Descriptor) (idx : ℕ) (base : BitVec 32) : List Descriptor :=
  (gdtSetGate gdt idx base (base + tssEntrySize) 0x89 0x00).modify idx fun d => d ||| ((1 : Descriptor) <<< 41)

/-- `gdt_init`. -/
def gdtInit (base : BitVec 32) : List Descriptor := tssInit ourGdt 3 base

/-! ### The routine -/

/-- `usermode_entry_routine`. -/
def usermodeEntryRoutine : List Instr :=
  [.movLow .eax 0x23, .movSeg .ds .eax, .movSeg .es .eax, .movSeg .fs .eax, .movSeg .gs .eax, .pushImm 0x23,
    .pushMem .esp 4, .pushfd, .orMem .esp 0x200, .pushImm 0x1B, .pushMem .esp 12, .iretd]

section Gates

variable {base limit : BitVec 32} {access gran : BitVec 8}

theorem getLsbD_mask (w k i : ℕ) : (BitVec.ofNat w (2 ^ k - 1)).getLsbD i = (decide (i < w) && decide (i < k)) := by
  rw [BitVec.getLsbD_ofNat, Nat.testBit_two_pow_sub_one]

theorem gateDesc_bit (i : ℕ) : (gateDesc base limit access gran).getLsbD i =
    if i < 16 then limit.getLsbD i else if i < 40 then base.getLsbD (i - 16) else if i < 48 then access.getLsbD (i - 40)
    else if i < 52 then limit.getLsbD (i - 32) else if i < 56 then gran.getLsbD (i - 48)
    else if i < 64 then base.getLsbD (i - 32) else false := by
  have h1 : (0xFFFF : BitVec 64) = BitVec.ofNat 64 (2 ^ 16 - 1) := rfl
  have h2 : (0xFFFFFF : BitVec 64) = BitVec.ofNat 64 (2 ^ 24 - 1) := rfl
  have h3 : (0x0F : BitVec 64) = BitVec.ofNat 64 (2 ^ 4 - 1) := rfl
  have h4 : (0xFF : BitVec 64) = BitVec.ofNat 64 (2 ^ 8 - 1) := rfl
  have h5 : ∀ k, (0xF0 : BitVec 8).getLsbD k = (decide (4 ≤ k) && decide (k < 8)) := by
    intro k
    rcases Nat.lt_or_ge k 8 with h | h
    · revert k; decide
    · rw [BitVec.getLsbD_of_ge _ _ h]; simp; omega
  simp only [gateDesc, BitVec.getLsbD_or, BitVec.getLsbD_and, BitVec.getLsbD_shiftLeft, BitVec.getLsbD_setWidth,
    BitVec.getLsbD_ushiftRight, h1, h2, h3, h4, h5, getLsbD_mask]
  have b1 : ∀ k, 32 ≤ k → base.getLsbD k = false := fun k hk => BitVec.getLsbD_of_ge _ _ hk
  have b2 : ∀ k, 32 ≤ k → limit.getLsbD k = false := fun k hk => BitVec.getLsbD_of_ge _ _ hk
  have b3 : ∀ k, 8 ≤ k → access.getLsbD k = false := fun k hk => BitVec.getLsbD_of_ge _ _ hk
  have b4 : ∀ k, 8 ≤ k → gran.getLsbD k = false := fun k hk => BitVec.getLsbD_of_ge _ _ hk
  have h16 : 16 + (i - 48) = if 48 ≤ i then i - 32 else 16 := by split_ifs <;> omega
  have h24 : 24 + (i - 56) = if 56 ≤ i then i - 32 else 24 := by split_ifs <;> omega
  rw [h16, h24]
  rcases Nat.lt_or_ge i 64 with h | h
  · interval_cases i <;> simp
  · grind

theorem gateDesc_access : (gateDesc base limit access gran).access = access := by
  refine BitVec.eq_of_getLsbD_eq fun i hi => ?_
  rw [Descriptor.access, BitVec.getLsbD_extractLsb', gateDesc_bit]
  grind

theorem gateDesc_flags : (gateDesc base limit access gran).flags = (gran >>> 4).setWidth 4 := by
  refine BitVec.eq_of_getLsbD_eq fun i hi => ?_
  rw [Descriptor.flags, BitVec.getLsbD_extractLsb', gateDesc_bit, BitVec.getLsbD_setWidth, BitVec.getLsbD_ushiftRight]
  grind

theorem gateDesc_base : (gateDesc base limit access gran).base = base.toNat := by
  have hlow : (gateDesc base limit access gran).extractLsb' 16 24 = base.setWidth 24 := by
    refine BitVec.eq_of_getLsbD_eq fun i hi => ?_
    rw [BitVec.getLsbD_extractLsb', gateDesc_bit, BitVec.getLsbD_setWidth]
    grind
  have hhigh : (gateDesc base limit access gran).extractLsb' 56 8 = (base >>> 24).setWidth 8 := by
    refine BitVec.eq_of_getLsbD_eq fun i hi => ?_
    rw [BitVec.getLsbD_extractLsb', gateDesc_bit, BitVec.getLsbD_setWidth, BitVec.getLsbD_ushiftRight]
    grind
  rw [Descriptor.base, hlow, hhigh, BitVec.toNat_setWidth, BitVec.toNat_setWidth, BitVec.toNat_ushiftRight]
  omega

theorem gateDesc_limit : (gateDesc base limit access gran).limit = limit.toNat % 2 ^ 20 := by
  have hlow : (gateDesc base limit access gran).extractLsb' 0 16 = limit.setWidth 16 := by
    refine BitVec.eq_of_getLsbD_eq fun i hi => ?_
    rw [BitVec.getLsbD_extractLsb', gateDesc_bit, BitVec.getLsbD_setWidth]
    grind
  have hhigh : (gateDesc base limit access gran).extractLsb' 48 4 = (limit >>> 16).setWidth 4 := by
    refine BitVec.eq_of_getLsbD_eq fun i hi => ?_
    rw [BitVec.getLsbD_extractLsb', gateDesc_bit, BitVec.getLsbD_setWidth, BitVec.getLsbD_ushiftRight]
    grind
  rw [Descriptor.limit, hlow, hhigh, BitVec.toNat_setWidth, BitVec.toNat_setWidth, BitVec.toNat_ushiftRight]
  omega

/-- **A gate reads back as it was set**, but for the upper bits of the limit. -/
theorem gdtSetGate_decode {gdt : List Descriptor} {idx : ℕ} (base limit : BitVec 32) (access gran : BitVec 8)
    (hidx : idx < gdt.length) :
    (∃ d, (gdtSetGate gdt idx base limit access gran)[idx]? = some d ∧ d.base = base.toNat ∧
      d.limit = limit.toNat % 2 ^ 20 ∧ d.access = access ∧ d.flags = (gran >>> 4).setWidth 4) ∧
    ∀ other, other ≠ idx → (gdtSetGate gdt idx base limit access gran)[other]? = gdt[other]? :=
  ⟨⟨_, List.getElem?_set_self hidx, gateDesc_base, gateDesc_limit, gateDesc_access, gateDesc_flags⟩,
    fun _ hother => List.getElem?_set_ne hother.symm⟩

end Gates

theorem gdtSetGate_decode_free :
    ∃ d, (gdtSetGate ourGdt 5 0x00123000 103 0x89 0x00)[5]? = some d ∧ d.base = 0x00123000 ∧ d.limit = 103 := by
  obtain ⟨⟨d, hd, hbase, hlimit, -⟩, -⟩ := gdtSetGate_decode 0x00123000 103 0x89 0x00 (by decide : 5 < ourGdt.length)
  exact ⟨d, hd, hbase, hlimit⟩

/-! ### The return to user mode -/

section Routine

variable {s : State}

/-- **What the routine returns with.**  The address is the selector that has been pushed first. -/
theorem usermodeEntryRoutine_stack (hcpl : s.cpl = 0) (hdata : dataOk s.gdt 0 0x23 = true) :
    ∃ t, run s usermodeEntryRoutine = t.iretd ∧ t.gdt = s.gdt ∧ t.cpl = 0 ∧
      Stacked s.mem (s.reg .esp) 5 t [0x23, 0x1B, s.eflags ||| 0x200, s.top, 0x23] := by
  let s1 := s.set .eax (s.reg .eax &&& 0xFFFF0000 ||| (0x23 : BitVec 16).setWidth 32)
  let s2 : State := { s1 with seg := fun g => if g ∈ [.ds, .es, .fs, .gs] then 0x23 else s1.seg g }
  have heax : (s1.reg .eax).setWidth 16 = (0x23 : BitVec 16) := by
    rw [set_reg, Function.update_self]
    exact setWidth_movLow
  have hsegs : run s1 ([.ds, .es, .fs, .gs].map (.movSeg · .eax)) = .ok s2 :=
    run_movSegs heax (hcpl.symm ▸ hdata) (by decide)
  let t3 := s2.push 0x23
  let t4 := t3.push s.top
  let t5 := t4.push s.eflags
  let t6 := (t5.store (t5.reg .esp) (s.eflags ||| 0x200)).push 0x1B
  have hesp : s1.reg .esp = s.reg .esp := set_reg_of_ne (by decide)
  have h2 : Stacked s.mem (s.reg .esp) 5 s2 [] := (stacked_nil (by decide)).congr rfl hesp
  have h3 : Stacked s.mem (s.reg .esp) 5 t3 [0x23] := h2.push (show 0 < 5 by decide)
  have h4 : Stacked s.mem (s.reg .esp) 5 t4 [s.top, 0x23] := h3.push (show 1 < 5 by decide)
  have h5 : Stacked s.mem (s.reg .esp) 5 t5 [s.eflags, s.top, 0x23] := h4.push (show 2 < 5 by decide)
  have h6 : Stacked s.mem (s.reg .esp) 5 t6 [0x1B, s.eflags ||| 0x200, s.top, 0x23] :=
    h5.storeTop.push (show 3 < 5 by decide)
  -- the words that the two `push` with an address find: the first argument, and `0x23`
  have harg : t3.mem (t3.reg .esp + 4) = s.top := (h3.above 0 (by decide)).trans (congrArg s.mem (BitVec.add_zero _))
  have hlast : t6.mem (t6.reg .esp + 12) = 0x23 := h6.word (show _[3]? = some (0x23 : Word) from rfl)
  have htop : t5.mem (t5.reg .esp) = s.eflags := h5.top
  refine ⟨t6.push 0x23, ?_, rfl, hcpl, h6.push (show 4 < 5 by decide)⟩
  calc run s usermodeEntryRoutine
      = run s1 ([.ds, .es, .fs, .gs].map (.movSeg · .eax) ++ [.pushImm 0x23, .pushMem .esp 4, .pushfd,
          .orMem .esp 0x200, .pushImm 0x1B, .pushMem .esp 12, .iretd]) := run_cons rfl
    _ = run t3 [.pushMem .esp 4, .pushfd, .orMem .esp 0x200, .pushImm 0x1B, .pushMem .esp 12, .iretd] :=
        (run_append hsegs).trans (run_cons rfl)
    _ = run t4 [.pushfd, .orMem .esp 0x200, .pushImm 0x1B, .pushMem .esp 12, .iretd] := run_cons (by rw [exec, harg])
    _ = run t5 [.orMem .esp 0x200, .pushImm 0x1B, .pushMem .esp 12, .iretd] := run_cons rfl
    _ = run (t5.store (t5.reg .esp) (s.eflags ||| 0x200)) [.pushImm 0x1B, .pushMem .esp 12, .iretd] :=
        run_cons (by rw [exec, htop])
    _ = run t6 [.pushMem .esp 12, .iretd] := run_cons rfl
    _ = run (t6.push 0x23) [.iretd] := run_cons (by rw [exec, hlast])
    _ = (t6.push 0x23).iretd := run_singleton

/-- `ltr` turns the type of the task from `0x89` to `0x8B`. -/
theorem gateDesc_busy {base limit : BitVec 32} {gran : BitVec 8} :
    gateDesc base limit 0x89 gran ||| ((1 : Descriptor) <<< 41) = gateDesc base limit 0x8B gran := by
  refine BitVec.eq_of_getLsbD_eq fun i hi => ?_
  rw [BitVec.getLsbD_or, gateDesc_bit, gateDesc_bit]
  interval_cases i <;> simp

/-- The descriptor that `gdt_init` leaves at index `3`. -/
theorem gdtInit_task (base : BitVec 32) :
    ∃ d, (gdtInit base)[3]? = some d ∧ d.isSegment = false ∧ d.access = 0x8B ∧ d.base = base.toNat ∧
      d.limit = (base.toNat + 104) % 2 ^ 20 := by
  refine ⟨gateDesc base (base + tssEntrySize) 0x8B 0x00, ?_, ?_, gateDesc_access, gateDesc_base, ?_⟩
  · rw [← gateDesc_busy]
    rfl
  · rw [Descriptor.isSegment, gateDesc_bit]
    rfl
  · rw [gateDesc_limit, BitVec.toNat_add]
    exact Nat.mod_mod_of_dvd _ (by decide)

theorem codeOk_gdtInit (base : BitVec 32) : codeOk (gdtInit base) 0 0x1B = false := by
  obtain ⟨d, hd, hsegment, -⟩ := gdtInit_task base
  have hlookup : lookup (gdtInit base) 0x1B = some d := hd
  rw [codeOk, hlookup, Option.elim_some, hsegment, Bool.and_false, Bool.false_and, Bool.false_and, Bool.and_false]

/-- **User mode is never entered.**  `gdt_init` stores the gate of its task over the code segment of user mode and
leaves the rest of the table, so the routine that every user thread starts with faults.  With the code segment in
its place it would run user code, on the stack that it is given, but from the address `0x23` on. -/
theorem userMode_never :
    (∀ base, ∃ d, (gdtInit base)[3]? = some d ∧ d.isSegment = false ∧ d.access = 0x8B ∧ d.base = base.toNat ∧
      d.limit = (base.toNat + 104) % 2 ^ 20) ∧
    (∀ base i, i ≠ 3 → (gdtInit base)[i]? = ourGdt[i]?) ∧
    (∀ base s, s.gdt = gdtInit base → s.cpl = 0 → run s usermodeEntryRoutine = .error ⟨0x1B⟩) ∧
    ∀ s, s.gdt = ourGdt → s.cpl = 0 → ∃ t, run s usermodeEntryRoutine = .ok t ∧ t.eip = 0x23 ∧ t.cpl = 3 ∧
      t.reg .esp = s.top ∧ t.seg .ss = 0x23 ∧ t.eflags = s.eflags ||| 0x200 := by
  refine ⟨gdtInit_task, fun base i hi => ?_, fun base s hgdt hcpl => ?_, fun s hgdt hcpl => ?_⟩
  · rw [gdtInit, tssInit, List.getElem?_modify]
    simp only [if_neg hi.symm, id_map']
    exact List.getElem?_set_ne hi.symm
  · obtain ⟨t, hrun, htgdt, htcpl, hstack⟩ := usermodeEntryRoutine_stack hcpl (by rw [hgdt]; rfl)
    exact hrun.trans (hstack.iretd_fault (by rw [htgdt, hgdt, htcpl]; exact codeOk_gdtInit base))
  · obtain ⟨t, hrun, htgdt, htcpl, hstack⟩ := usermodeEntryRoutine_stack hcpl (by rw [hgdt]; rfl)
    obtain ⟨u, hret, heip, hflags, hcs, hss, hesp⟩ := hstack.iretd_outer (by rw [htgdt, hgdt, htcpl]; rfl)
      (by rw [htcpl]; decide) (by rw [htgdt, hgdt]; rfl)
    refine ⟨u, hrun.trans hret, heip, ?_, hesp, hss, hflags⟩
    rw [State.cpl, hcs]
    rfl

end Routine

/-- A state of ring 0 with the table of `gdt_init`. -/
def bootState : State where
  reg := fun _ => 0x00200000
  seg := fun g => if g = .cs then 0x08 else 0x10
  eip := 0x00100000
  eflags := 0x202
  mem := fun _ => 0
  gdt := gdtInit 0x00123000

theorem userMode_never_boot : run bootState usermodeEntryRoutine = .error ⟨0x1B⟩ :=
  userMode_never.2.2.1 0x00123000 bootState rfl rfl

end Flopperating
