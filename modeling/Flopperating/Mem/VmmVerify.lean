/-
# Buffers of the user

`vmm_verify_buffer` walks over the pages of a buffer and asks `vmm_is_user_mapped` of
each.  The walk stops behind the last page, unless that is the last page of all: the
address behind it is `0`, the walk goes on from there, and a buffer that is mapped is
turned down, or the walk never ends.
-/

import Flopperating.Mem.VmmUser

namespace Flopperating

open Vmm

variable {σ : Vmm} {addr last p r size steps : ℕ}

/-- The address behind which the last page is. -/
abbrev lastPage : ℕ := 2 ^ 32 - pageSize

/-- Page `p` has a byte of the buffer. -/
def InBuffer (addr size p : ℕ) : Prop := addr / pageSize ≤ p ∧ p * pageSize < addr + size

/-- The page is mapped for user code. -/
def UserMapped (r : ℕ) (σ : Vmm) (p : ℕ) : Prop := vmmIsUserMapped r (p * pageSize) σ = some true

/-- `vmm_verify_buffer` ends, and lets through the buffers that user code can reach and no others. -/
def VerifiesBuffer (r addr size : ℕ) (σ : Vmm) : Prop :=
  ∃ status, vmmVerifyBuffer r addr size σ = some status ∧
    (status = 0 ↔ size = 0 ∨ addr + size < 2 ^ 32 ∧ ∀ p, InBuffer addr size p → UserMapped r σ p)

/-- The first page of the buffer that is not mapped for user code is found to be so. -/
def Refused (r addr size : ℕ) (σ : Vmm) : Prop :=
  ∃ p, InBuffer addr size p ∧ vmmIsUserMapped r (p * pageSize) σ = some false ∧
    ∀ q, addr / pageSize ≤ q → q < p → UserMapped r σ q

/-- A walk up to a page in front of the last one ends behind it. -/
theorem vmmVerifyFrom_accepts (hlast : last < 2 ^ 20 - 1) (hp : p ≤ last + 1) (hsteps : last + 1 < p + steps)
    (hpages : ∀ q, p ≤ q → q ≤ last → UserMapped r σ q) :
    vmmVerifyFrom r (last * pageSize) σ steps (p * pageSize) = some 0 := by
  induction steps generalizing p with
  | zero => omega
  | succ steps ih =>
    rw [vmmVerifyFrom]
    rcases Nat.lt_or_ge last p with hlt | hle
    · rw [if_neg (by simp only [pageSize]; omega)]
    · have hnext : u32 (p * pageSize + pageSize) = (p + 1) * pageSize := by
        rw [u32_of_lt (by simp only [pageSize]; omega), Nat.succ_mul]
      rw [if_pos (Nat.mul_le_mul_right _ hle), hpages p le_rfl hle, hnext]
      exact ih (by omega) (by omega) fun q hq => hpages q (by omega)

/-- A walk goes on to the first page that is not mapped for user code. -/
theorem vmmVerifyFrom_walks {q : ℕ} (hlast : last < 2 ^ 20) (hpq : p ≤ q) (hql : q ≤ last) (hsteps : q < p + steps)
    (hpages : ∀ i, p ≤ i → i < q → UserMapped r σ i) :
    vmmVerifyFrom r (last * pageSize) σ steps (p * pageSize) =
      vmmVerifyFrom r (last * pageSize) σ (steps - (q - p)) (q * pageSize) := by
  induction steps generalizing p with
  | zero => omega
  | succ steps ih =>
    rcases Nat.eq_or_lt_of_le hpq with rfl | hlt
    · rw [Nat.sub_self, Nat.sub_zero]
    · have hnext : u32 (p * pageSize + pageSize) = (p + 1) * pageSize := by
        rw [u32_of_lt (by simp only [pageSize]; omega), Nat.succ_mul]
      have hle : p ≤ last := by omega
      have hsteps' : steps + 1 - (q - p) = steps - (q - (p + 1)) := by omega
      rw [vmmVerifyFrom, if_pos (Nat.mul_le_mul_right _ hle), hpages p le_rfl hlt, hnext, hsteps']
      exact ih (by omega) (by omega) fun i hi => hpages i (by omega)

/-- A walk up to the last page of all never lets a buffer through. -/
theorem vmmVerifyFrom_lastPage (hp : p < 2 ^ 20) :
    vmmVerifyFrom r ((2 ^ 20 - 1) * pageSize) σ steps (p * pageSize) ≠ some 0 := by
  induction steps generalizing p with
  | zero => exact Option.some_ne_none 0 |>.symm
  | succ steps ih =>
    have hnext : u32 (p * pageSize + pageSize) = (p + 1) % 2 ^ 20 * pageSize := by
      simp only [u32, pageSize]
      omega
    rw [vmmVerifyFrom, if_pos (Nat.mul_le_mul_right _ (by omega)), hnext]
    rcases vmmIsUserMapped r (p * pageSize) σ with - | - | -
    · exact (Option.some_ne_none 0).symm
    · exact fun h => absurd (Option.some.inj h) (by decide)
    · exact ih (Nat.mod_lt _ (by decide))

/-- What decides at a page of the buffer that is not mapped for user code. -/
theorem vmmVerifyFrom_stops (hlast : last < 2 ^ 20) {q : ℕ} (hpq : p ≤ q) (hql : q ≤ last) (hsteps : q < p + steps)
    (hpages : ∀ i, p ≤ i → i < q → UserMapped r σ i) (hq : ¬ UserMapped r σ q) :
    vmmVerifyFrom r (last * pageSize) σ steps (p * pageSize) =
      (vmmIsUserMapped r (q * pageSize) σ).map fun _ => -1 := by
  obtain ⟨m, hm⟩ : ∃ m, steps - (q - p) = m + 1 := ⟨steps - (q - p) - 1, by omega⟩
  rw [vmmVerifyFrom_walks hlast hpq hql hsteps hpages, hm, vmmVerifyFrom, if_pos (Nat.mul_le_mul_right _ hql)]
  unfold UserMapped at hq
  rcases hmapped : vmmIsUserMapped r (q * pageSize) σ with - | - | -
  · rfl
  · rfl
  · exact absurd hmapped hq

theorem inBuffer_iff (hpos : 0 < size) : InBuffer addr size p ↔ addr / pageSize ≤ p ∧ p ≤ (addr + size - 1) / pageSize := by
  unfold InBuffer
  simp only [pageSize]
  omega

theorem vmmVerifyBuffer_eq (hpos : 0 < size) (hlt : addr + size < 2 ^ 32) : vmmVerifyBuffer r addr size σ =
    vmmVerifyFrom r ((addr + size - 1) / pageSize * pageSize) σ vmmSteps (addr / pageSize * pageSize) := by
  have hstop : u32 (addr + size) = addr + size := u32_of_lt hlt
  have hend : u32 (addr + size + 2 ^ 32 - 1) = addr + size - 1 := by
    unfold u32
    omega
  rw [vmmVerifyBuffer, if_neg hpos.ne', hstop]
  dsimp only
  rw [if_neg (Nat.not_lt.2 (Nat.le_add_right addr size)), hend]
  rfl

/-- **The walk over a buffer in the last page runs over the end of the address space.** -/
theorem not_verifiesBuffer (hpos : 0 < size) (hlt : addr + size < 2 ^ 32) (hlast : lastPage < addr + size)
    (hall : ∀ p, InBuffer addr size p → UserMapped r σ p) : ¬ VerifiesBuffer r addr size σ := by
  rintro ⟨status, hstatus, hiff⟩
  obtain rfl := hiff.2 (.inr ⟨hlt, hall⟩)
  have hend : (addr + size - 1) / pageSize = 2 ^ 20 - 1 := by
    simp only [pageSize, lastPage] at *
    omega
  have hfirst : addr / pageSize < 2 ^ 20 := by
    simp only [pageSize]
    omega
  rw [vmmVerifyBuffer_eq hpos hlt, hend] at hstatus
  exact vmmVerifyFrom_lastPage hfirst hstatus

/-- A buffer that is not mapped for user code has a first page that is not. -/
theorem exists_first_unmapped (h : ¬ ∀ p, InBuffer addr size p → UserMapped r σ p) :
    ∃ q, InBuffer addr size q ∧ ¬ UserMapped r σ q ∧ ∀ i, addr / pageSize ≤ i → i < q → UserMapped r σ i := by
  classical
  have hex : ∃ p, InBuffer addr size p ∧ ¬ UserMapped r σ p := by
    obtain ⟨p, hp⟩ := not_forall.1 h
    exact ⟨p, Classical.not_imp.1 hp⟩
  obtain ⟨hin, hbad⟩ := Nat.find_spec hex
  refine ⟨Nat.find hex, hin, hbad, fun i hi hlt => Classical.not_not.1 fun hnot => Nat.find_min hex hlt ⟨⟨hi, ?_⟩, hnot⟩⟩
  exact Nat.lt_of_le_of_lt (Nat.mul_le_mul_right _ hlt.le) hin.2

/-- **`vmm_verify_buffer` decides** unless all pages are mapped and the last page of all is one of them. -/
theorem vmmVerifyBuffer_iff (haddr : addr < 2 ^ 32) (hsize : size < 2 ^ 32) :
    VerifiesBuffer r addr size σ ↔
      size = 0 ∨ 2 ^ 32 ≤ addr + size ∨ Refused r addr size σ ∨
        addr + size ≤ lastPage ∧ ∀ p, InBuffer addr size p → UserMapped r σ p := by
  rcases Nat.eq_zero_or_pos size with hzero | hpos
  · exact iff_of_true ⟨0, if_pos hzero, iff_of_true rfl (.inl hzero)⟩ (.inl hzero)
  rcases Nat.lt_or_ge (addr + size) (2 ^ 32) with hlt | hge
  swap
  · have hwrap : u32 (addr + size) < addr := by
      unfold u32
      omega
    have hrun : vmmVerifyBuffer r addr size σ = some (-1) := by
      rw [vmmVerifyBuffer, if_neg hpos.ne']
      exact if_pos hwrap
    exact iff_of_true ⟨-1, hrun, iff_of_false (by decide) (by omega)⟩ (.inr (.inl hge))
  have hsteps : 2 ^ 20 < vmmSteps := by decide
  have hlast : (addr + size - 1) / pageSize < 2 ^ 20 := by
    simp only [pageSize]
    omega
  have hfirst : addr / pageSize ≤ (addr + size - 1) / pageSize := Nat.div_le_div_right (by omega)
  have hrun : vmmVerifyBuffer r addr size σ = _ := vmmVerifyBuffer_eq hpos hlt
  by_cases hall : ∀ p, InBuffer addr size p → UserMapped r σ p
  · have hneither : ¬ Refused r addr size σ := by
      rintro ⟨p, hp, hfalse, -⟩
      exact absurd (Option.some.inj ((hall p hp).symm.trans hfalse)) (by decide)
    have hpages : ∀ q, addr / pageSize ≤ q → q ≤ (addr + size - 1) / pageSize → UserMapped r σ q :=
      fun q hq hql => hall q ((inBuffer_iff hpos).2 ⟨hq, hql⟩)
    rcases Nat.lt_or_ge ((addr + size - 1) / pageSize) (2 ^ 20 - 1) with hbefore | hat
    · have hroom : (addr + size - 1) / pageSize + 1 < vmmSteps := by omega
      rw [vmmVerifyFrom_accepts hbefore (by omega) (Nat.lt_add_left _ hroom) hpages] at hrun
      refine iff_of_true ⟨0, hrun, iff_of_true rfl (.inr ⟨hlt, hall⟩)⟩ (.inr (.inr (.inr ⟨?_, hall⟩)))
      simp only [pageSize, lastPage] at *
      omega
    · have hend : lastPage < addr + size := by
        simp only [pageSize, lastPage] at *
        omega
      refine iff_of_false (not_verifiesBuffer hpos hlt hend hall) ?_
      rintro (h | h | h | ⟨h, -⟩)
      · exact hpos.ne' h
      · omega
      · exact hneither h
      · omega
  · -- the first page that is not mapped for user code decides
    obtain ⟨q, hq, hbad, hpages⟩ := exists_first_unmapped hall
    obtain ⟨hfq, hql⟩ := (inBuffer_iff hpos).1 hq
    have hroom : q < vmmSteps := by omega
    rw [vmmVerifyFrom_stops hlast hfq hql (Nat.lt_add_left _ hroom) hpages hbad] at hrun
    rcases hmapped : vmmIsUserMapped r (q * pageSize) σ with - | - | -
    · rw [hmapped, Option.map_none] at hrun
      refine iff_of_false ?_ ?_
      · rintro ⟨status, hstatus, -⟩
        exact Option.some_ne_none status (hstatus.symm.trans hrun)
      · rintro (h | h | ⟨p, hp, hfalse, hbelow⟩ | ⟨-, h⟩)
        · exact hpos.ne' h
        · omega
        · rcases Nat.lt_trichotomy p q with hpq | rfl | hqp
          · exact absurd (Option.some.inj ((hpages p hp.1 hpq).symm.trans hfalse)) (by decide)
          · exact Option.some_ne_none _ (hfalse.symm.trans hmapped)
          · exact hbad (hbelow q hq.1 hqp)
        · exact hall h
    · rw [hmapped, Option.map_some] at hrun
      refine iff_of_true ⟨-1, hrun, iff_of_false (by decide) ?_⟩ (.inr (.inr (.inl ⟨q, hq, hmapped, hpages⟩)))
      rintro (h | ⟨-, h⟩)
      · exact hpos.ne' h
      · exact hall h
    · exact absurd hmapped hbad

/-- A page that a region has allocated. -/
theorem userPage_verifiesBuffer :
    ∃ s, usedRegion = some s ∧ VerifiesBuffer 2 userSpaceStart pageSize s := by
  obtain ⟨s, hs⟩ := exists_usedRegion
  have hmapped : usedRegion.bind (vmmIsUserMapped 2 userSpaceStart) = some true := by decide +kernel
  rw [hs] at hmapped
  refine ⟨s, hs, (vmmVerifyBuffer_iff (by decide) (by decide)).2 (.inr (.inr (.inr ⟨by decide, fun p hp => ?_⟩)))⟩
  obtain ⟨hle, hlt⟩ := hp
  have hpage : p = 256 := by
    simp only [userSpaceStart, pageSize] at *
    omega
  rw [hpage]
  exact hmapped

/-- The last page of a region is its directory, mapped for user code, and turned down. -/
theorem lastPage_not_verifiesBuffer : ∃ s, usedRegion = some s ∧ ¬ VerifiesBuffer 2 lastPage 1 s := by
  obtain ⟨s, hs⟩ := exists_usedRegion
  obtain ⟨d, hheld⟩ := userReach_held (usedRegion_userReach hs)
  refine ⟨s, hs, not_verifiesBuffer Nat.one_pos (by decide) (by decide) fun p hp => ?_⟩
  obtain ⟨hle, hlt⟩ := hp
  have hpage : p * pageSize = lastPage := by
    simp only [lastPage, pageSize] at *
    omega
  unfold UserMapped
  rw [hpage]
  exact hheld.windowOpen.self

end Flopperating
