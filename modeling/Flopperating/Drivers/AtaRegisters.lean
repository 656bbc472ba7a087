/-
# What a sector address becomes in the registers

`ATA_PREPARE_OP` of `src/drivers/ata/ata.h` writes the drive, the address of the first sector and
the count to the registers of the drive, which takes them in the 28-bit layout:

| register | bits |
| --- | --- |
| `LBA_LOW`, `LBA_MID`, `LBA_HIGH` | 0–7, 8–15 and 16–23 of the address |
| `DRIVE_HEAD`, bits 0–3 | 24–27 of the address |
| `DRIVE_HEAD`, bit 4 | the drive |

It shifts the drive to the right, where it is gone, and the address by 8, 16 and 16 bits instead
of 0, 8 and 16.  So the drive finds the address that was meant when its three lower bytes are the
same and the drive is number 0, and sectors that lie in one group of 256 have the same registers
(`ataPrepareOp_intact_iff`).
-/

import Flopperating.Drivers.Ata

namespace Flopperating

/-! ### The layout -/

/-- What is in a register that can be written. -/
def register (port : AtaPort) (ops : List PortOp) : BitVec 8 :=
  ops.foldl (fun v op => match op with
    | .outb p w => if p = port then w else v
    | _ => v) 0

/-- A drive, its first sector and how many of them. -/
structure SectorAddress where
  drive : ℕ
  lba : ℕ
  count : ℕ

/-- The 28-bit layout of the registers. -/
def decodeRegisters (ops : List PortOp) : SectorAddress where
  drive := (register .driveHead ops).toNat / 2 ^ 4 % 2
  lba := (register .lbaLow ops).toNat + (register .lbaMid ops).toNat * 2 ^ 8 + (register .lbaHigh ops).toNat * 2 ^ 16 +
    (register .driveHead ops).toNat % 2 ^ 4 * 2 ^ 24
  count := (register .sectorCount ops).toNat

namespace SectorAddress

/-- The addresses of the layout. -/
structure Valid (a : SectorAddress) : Prop where
  drive : a.drive < 2
  lba : a.lba < 2 ^ 28
  count : 1 ≤ a.count ∧ a.count ≤ 255

/-- The accesses to the ports after `ATA_PREPARE_OP`. -/
def prepared (a : SectorAddress) (cmd : BitVec 8) (s : AtaIo) : List PortOp :=
  (ataPrepareOp (.ofNat 8 a.drive) (.ofNat 32 a.lba) (.ofNat 8 a.count) cmd s).ops

/-- The drive finds in the registers what was meant. -/
def Intact (a : SectorAddress) (cmd : BitVec 8) (s : AtaIo) : Prop := decodeRegisters (a.prepared cmd s) = a

/-- The registers of the layout hold the same. -/
def SameRegisters (ops ops' : List PortOp) : Prop :=
  ∀ port ∈ [AtaPort.driveHead, .sectorCount, .lbaLow, .lbaMid, .lbaHigh], register port ops = register port ops'

/-- Addresses with different drives or sectors have different registers. -/
def ToldApart (a b : SectorAddress) (cmd : BitVec 8) (s s' : AtaIo) : Prop :=
  a.drive ≠ b.drive ∨ a.lba ≠ b.lba → ¬ SameRegisters (a.prepared cmd s) (b.prepared cmd s')

/-- Its three lower bytes are the same. -/
def Uniform (lba : ℕ) : Prop := lba % 2 ^ 8 = lba / 2 ^ 8 % 2 ^ 8 ∧ lba / 2 ^ 8 % 2 ^ 8 = lba / 2 ^ 16 % 2 ^ 8

end SectorAddress

/-! ### What `ATA_PREPARE_OP` writes -/

theorem register_outb (port p : AtaPort) (v : BitVec 8) (s : AtaIo) :
    register port (outb p v s).ops = if p = port then v else register port s.ops := by
  rw [register, outb, List.foldl_append]
  rfl

/-- The bits that are set in `DRIVE_HEAD`. -/
theorem toNat_driveHead : ∀ x : BitVec 8, (0xE0 ||| 0 ||| (x &&& 0x0F) : BitVec 8).toNat = 0xE0 + x.toNat % 2 ^ 4 := by
  decide

namespace SectorAddress

variable {a b : SectorAddress} {cmd : BitVec 8} {s s' : AtaIo}

/-- A byte of an address. -/
theorem Valid.toNat_byte (h : a.Valid) (k : ℕ) :
    ((BitVec.ofNat 32 a.lba >>> k).setWidth 8).toNat = a.lba / 2 ^ k % 2 ^ 8 := by
  have hlba := h.lba
  rw [BitVec.toNat_setWidth, BitVec.toNat_ushiftRight, BitVec.toNat_ofNat, Nat.shiftRight_eq_div_pow,
    Nat.mod_eq_of_lt (by omega : a.lba < 2 ^ 32)]

theorem register_driveHead (h : a.Valid) (cmd : BitVec 8) (s : AtaIo) :
    (register .driveHead (a.prepared cmd s)).toNat = 0xE0 + a.lba / 2 ^ 24 := by
  have hdrive : BitVec.ofNat 8 a.drive >>> 4 = 0 := by
    have hbound := h.drive
    rcases (by omega : a.drive = 0 ∨ a.drive = 1) with hzero | hone
    · rw [hzero]
      rfl
    · rw [hone]
      rfl
  have hlba := h.lba
  simp only [prepared, ataPrepareOp, register_outb, reduceCtorEq, if_true, if_false, hdrive]
  refine (toNat_driveHead _).trans ?_
  rw [h.toNat_byte]
  omega

theorem register_sectorCount (h : a.Valid) (cmd : BitVec 8) (s : AtaIo) :
    (register .sectorCount (a.prepared cmd s)).toNat = a.count := by
  have hcount := h.count
  simp only [prepared, ataPrepareOp, register_outb, reduceCtorEq, if_true, if_false]
  rw [BitVec.toNat_ofNat]
  omega

theorem register_lbaLow (h : a.Valid) (cmd : BitVec 8) (s : AtaIo) :
    (register .lbaLow (a.prepared cmd s)).toNat = a.lba / 2 ^ 8 % 2 ^ 8 := by
  simp only [prepared, ataPrepareOp, register_outb, reduceCtorEq, if_true, if_false]
  exact h.toNat_byte _

theorem register_lbaMid (h : a.Valid) (cmd : BitVec 8) (s : AtaIo) :
    (register .lbaMid (a.prepared cmd s)).toNat = a.lba / 2 ^ 16 % 2 ^ 8 := by
  simp only [prepared, ataPrepareOp, register_outb, reduceCtorEq, if_true, if_false]
  exact h.toNat_byte _

theorem register_lbaHigh (h : a.Valid) (cmd : BitVec 8) (s : AtaIo) :
    (register .lbaHigh (a.prepared cmd s)).toNat = a.lba / 2 ^ 16 % 2 ^ 8 := by
  simp only [prepared, ataPrepareOp, register_outb, reduceCtorEq, if_true, if_false]
  exact h.toNat_byte _

/-- What the drive makes of the registers. -/
theorem decodeRegisters_prepared (h : a.Valid) (cmd : BitVec 8) (s : AtaIo) : decodeRegisters (a.prepared cmd s) =
    ⟨0, a.lba / 2 ^ 8 % 2 ^ 8 + a.lba / 2 ^ 16 % 2 ^ 8 * 2 ^ 8 + a.lba / 2 ^ 16 % 2 ^ 8 * 2 ^ 16 + a.lba / 2 ^ 24 * 2 ^ 24,
      a.count⟩ := by
  have hlba := h.lba
  have hdrive : (0xE0 + a.lba / 2 ^ 24) / 2 ^ 4 % 2 = 0 := by omega
  have hhead : (0xE0 + a.lba / 2 ^ 24) % 2 ^ 4 = a.lba / 2 ^ 24 := by omega
  rw [decodeRegisters, register_driveHead h, register_sectorCount h, register_lbaLow h, register_lbaMid h,
    register_lbaHigh h, hdrive, hhead]

/-- The address is put together from its bytes. -/
theorem eq_bytes (n : ℕ) : n = n % 2 ^ 8 + n / 2 ^ 8 % 2 ^ 8 * 2 ^ 8 + n / 2 ^ 16 % 2 ^ 8 * 2 ^ 16 + n / 2 ^ 24 * 2 ^ 24 := by
  have hmid : n / 2 ^ 16 = n / 2 ^ 8 / 2 ^ 8 := (Nat.div_div_eq_div_mul n (2 ^ 8) (2 ^ 8)).symm
  have hhigh : n / 2 ^ 24 = n / 2 ^ 16 / 2 ^ 8 := (Nat.div_div_eq_div_mul n (2 ^ 16) (2 ^ 8)).symm
  omega

/-- The drive finds the address when nothing is lost of it. -/
theorem intact_iff (h : a.Valid) (cmd : BitVec 8) (s : AtaIo) : a.Intact cmd s ↔ a.drive = 0 ∧ Uniform a.lba := by
  have hbytes := eq_bytes a.lba
  have hlow : a.lba % 2 ^ 8 < 2 ^ 8 := Nat.mod_lt _ (by decide)
  have hmid : a.lba / 2 ^ 8 % 2 ^ 8 < 2 ^ 8 := Nat.mod_lt _ (by decide)
  have hhigh : a.lba / 2 ^ 16 % 2 ^ 8 < 2 ^ 8 := Nat.mod_lt _ (by decide)
  rw [Intact, decodeRegisters_prepared h, Uniform]
  constructor
  · intro heq
    have hd := congrArg SectorAddress.drive heq
    have hl := congrArg SectorAddress.lba heq
    dsimp only at hd hl
    generalize a.lba / 2 ^ 16 % 2 ^ 8 = high at *
    generalize a.lba / 2 ^ 8 % 2 ^ 8 = mid at *
    generalize a.lba % 2 ^ 8 = low at *
    omega
  · rintro ⟨hd, hlm, hmh⟩
    rw [← hmh, ← hlm] at hbytes ⊢
    rw [← hbytes, ← hd]

/-- The registers tell the drive nothing about the number of the drive and the lowest byte. -/
theorem sameRegisters_iff (ha : a.Valid) (hb : b.Valid) (cmd : BitVec 8) (s s' : AtaIo) :
    SameRegisters (a.prepared cmd s) (b.prepared cmd s') ↔ a.lba / 2 ^ 8 = b.lba / 2 ^ 8 ∧ a.count = b.count := by
  have hla := ha.lba
  have hlb := hb.lba
  simp only [SameRegisters, List.forall_mem_cons, List.not_mem_nil, false_imp_iff, implies_true, and_true,
    ← BitVec.toNat_inj, register_driveHead ha, register_driveHead hb, register_sectorCount ha, register_sectorCount hb,
    register_lbaLow ha, register_lbaLow hb, register_lbaMid ha, register_lbaMid hb, register_lbaHigh ha,
    register_lbaHigh hb]
  omega

/-- **Sector addresses in the registers**: an address reaches the drive exactly when the drive is
number 0 and the three lower bytes are the same, and two addresses are told apart exactly when
they differ above the lowest byte, or in the count. -/
theorem ataPrepareOp_intact_iff (ha : a.Valid) (hb : b.Valid) (cmd : BitVec 8) (s s' : AtaIo) :
    (a.Intact cmd s ↔ a.drive = 0 ∧ Uniform a.lba) ∧
      (a.ToldApart b cmd s s' ↔
        (a.drive = b.drive ∧ a.lba = b.lba) ∨ a.lba / 2 ^ 8 ≠ b.lba / 2 ^ 8 ∨ a.count ≠ b.count) := by
  refine ⟨intact_iff ha cmd s, ?_⟩
  rw [ToldApart, sameRegisters_iff ha hb]
  omega

theorem ataPrepareOp_intact_iff_pair :
    ((⟨0, 0, 1⟩ : SectorAddress).Intact ataCmdRead ⟨[], fun _ => 0⟩ ↔ 0 = 0 ∧ Uniform 0) ∧
      ((⟨0, 0, 1⟩ : SectorAddress).ToldApart ⟨0, 1, 1⟩ ataCmdRead ⟨[], fun _ => 0⟩ ⟨[], fun _ => 0⟩ ↔
        (0 = 0 ∧ 0 = 1) ∨ 0 / 2 ^ 8 ≠ 1 / 2 ^ 8 ∨ 1 ≠ 1) :=
  ataPrepareOp_intact_iff ⟨by decide, by decide, by decide⟩ ⟨by decide, by decide, by decide⟩ _ _ _

/-- Sectors 0 and 1 of drive 0 have the same registers, and sector 1 is not found. -/
theorem not_ataPrepareOp_intact : ¬ ∀ (a b : SectorAddress) (cmd : BitVec 8) (s s' : AtaIo), a.Valid → b.Valid →
    a.Intact cmd s ∧ a.ToldApart b cmd s s' := by
  intro hall
  have hintact := (hall ⟨0, 1, 1⟩ ⟨0, 0, 1⟩ ataCmdRead ⟨[], fun _ => 0⟩ ⟨[], fun _ => 0⟩ ⟨by decide, by decide, by decide⟩
    ⟨by decide, by decide, by decide⟩).1
  have hlba := congrArg SectorAddress.lba hintact
  exact absurd hlba (by decide)

end SectorAddress

/-- **`ata_start_request`** prepares the address of the request. -/
theorem startCommand_ops {req : AtaRequest} {s : AtaIo} (htype : req.type = .read ∨ req.type = .write) :
    ∃ cmd, (startCommand req s).ops = SectorAddress.prepared ⟨req.drive.toNat, req.lba.toNat, req.sectorCount.toNat⟩ cmd s := by
  have hsectors : BitVec.ofNat 8 req.sectorCount.toNat = req.sectorCount.setWidth 8 := BitVec.ofNat_toNat ..
  have hdrive : BitVec.ofNat 8 req.drive.toNat = req.drive := by rw [BitVec.ofNat_toNat, BitVec.setWidth_eq]
  have hlba : BitVec.ofNat 32 req.lba.toNat = req.lba := by rw [BitVec.ofNat_toNat, BitVec.setWidth_eq]
  rcases htype with htype | htype
  · refine ⟨ataCmdRead, ?_⟩
    rw [startCommand, htype, SectorAddress.prepared, hdrive, hlba, hsectors]
  · refine ⟨ataCmdWrite, ?_⟩
    rw [startCommand, htype, SectorAddress.prepared, hdrive, hlba, hsectors]

end Flopperating
