/-
# Buffers that are checked page by page

`vmm_check_buffer` of `src/mem/vmm.c` looks at the words of the page tables, for as many
pages as the rounded end lies behind the start.  The end is rounded modulo `2 ^ 32`, so
that the number of pages is the one of the buffer modulo `2 ^ 20`, and the words of the
directory are only asked whether there is a table.
-/

import Flopperating.Mem.VmmVerify

namespace Flopperating

open Vmm

/-- `word & PAGE_RW`. -/
def rwBit (word : ℕ) : Bool := word.testBit 1

/-- The loop of `vmm_check_buffer` from page `i` on, for `n` pages. -/
def vmmCheckFrom (r startPage : ℕ) (write : Bool) (σ : Vmm) : ℕ → ℕ → Option ℤ
  | 0, _ => some 1
  | n + 1, i =>
    let curr := u32 (startPage + i * pageSize)
    if present (σ.pde r (pdIndex curr)) then do
      let pt ← σ.recursivePt (pdIndex curr)
      let entry := σ.mem pt (ptIndex curr)
      if !present entry then return 0
      if !userBit entry then return 0
      if write && !rwBit entry then return 0
      vmmCheckFrom r startPage write σ n (i + 1)
    else some 0

/-- `vmm_check_buffer`. -/
def vmmCheckBuffer (r va size : ℕ) (write : Bool) (σ : Vmm) : Option ℤ :=
  let startPage := maskLow va pageSize
  let endPage := maskLow (u32 (va + size + pageSize - 1)) pageSize
  let pages := u32 (endPage + 2 ^ 32 - startPage) / pageSize
  vmmCheckFrom r startPage write σ pages 0

variable {σ : Vmm} {write : Bool} {i n r size start va : ℕ}

/-- A word of a directory or of a table lets user code read, and write when `write` is set. -/
def Grants (write : Bool) (word : ℕ) : Prop :=
  present word = true ∧ userBit word = true ∧ (write = true → rwBit word = true)

instance (write : Bool) (word : ℕ) : Decidable (Grants write word) := inferInstanceAs (Decidable (_ ∧ _))

/-- What is approved lies in the address space, and both levels let user code at it. -/
def ApprovesOnly (r va size : ℕ) (write : Bool) (σ : Vmm) : Prop :=
  vmmCheckBuffer r va size write σ = some 1 → va + size ≤ 2 ^ 32 ∧ ∀ p, InBuffer va size p →
    Grants write (σ.mem (σ.region r).pgDir (p / pageEntries)) ∧ Grants write (σ.word (σ.region r).pgDir p)

/-- The number of pages that a buffer touches. -/
def touchedPages (va size : ℕ) : ℕ := (va % pageSize + size + (pageSize - 1)) / pageSize

theorem inBuffer_iff_touched {p : ℕ} :
    InBuffer va size p ↔ va / pageSize ≤ p ∧ p < va / pageSize + touchedPages va size := by
  unfold InBuffer touchedPages
  simp only [pageSize]
  omega

/-- The number of pages that are looked at. -/
theorem checkedPages_eq (hva : va < 2 ^ 32) :
    u32 (maskLow (u32 (va + size + pageSize - 1)) pageSize + 2 ^ 32 - maskLow va pageSize) / pageSize =
      touchedPages va size % 2 ^ 20 := by
  unfold touchedPages u32 maskLow
  simp only [pageSize]
  omega

/-- The tests of one word. -/
theorem grants_tests {word : ℕ} {rest : Option ℤ} :
    (if (!present word) = true then some 0
      else if (!userBit word) = true then some 0 else if (write && !rwBit word) = true then some 0 else rest) =
      if Grants write word then rest else some 0 := by
  rcases hpresent : present word with - | -
  · simp [Grants, hpresent]
  · rcases huser : userBit word with - | -
    · simp [Grants, huser]
    · cases write <;> rcases hwrite : rwBit word with - | - <;> simp [Grants, hpresent, huser, hwrite]

theorem forall_lt_succ_page {P : ℕ → Prop} : (∀ j < n + 1, P (i + j)) ↔ P i ∧ ∀ j < n, P (i + 1 + j) := by
  constructor
  · intro h
    exact ⟨h 0 (Nat.succ_pos n), fun j hj => by rw [Nat.add_assoc, Nat.add_comm 1]; exact h (j + 1) (Nat.succ_lt_succ hj)⟩
  · rintro ⟨hfirst, hrest⟩ j hj
    rcases j with - | j
    · exact hfirst
    · rw [← Nat.add_assoc, Nat.add_right_comm]
      exact hrest j (Nat.lt_of_succ_lt_succ hj)

/-- **The loop asks the words of the tables.** -/
theorem vmmCheckFrom_loaded (hl : Loaded σ r) : vmmCheckFrom r start write σ n i =
    some (if ∀ j < n, Grants write (σ.word (σ.region r).pgDir ((start / pageSize + (i + j)) % 2 ^ 20)) then 1 else 0) := by
  induction n generalizing i with
  | zero => exact congrArg some (if_pos fun j hj => absurd hj (Nat.not_lt_zero j)).symm
  | succ n ih =>
    have hlt : u32 (start + i * pageSize) < 2 ^ 32 := u32_lt _
    have hpage : u32 (start + i * pageSize) / pageSize = (start / pageSize + i) % 2 ^ 20 := by
      simp only [u32, pageSize]
      omega
    have hsplit : (∀ j < n + 1, Grants write (σ.word (σ.region r).pgDir ((start / pageSize + (i + j)) % 2 ^ 20))) ↔
        Grants write (σ.word (σ.region r).pgDir ((start / pageSize + i) % 2 ^ 20)) ∧
          ∀ j < n, Grants write (σ.word (σ.region r).pgDir ((start / pageSize + (i + 1 + j)) % 2 ^ 20)) :=
      forall_lt_succ_page (P := fun k => Grants write (σ.word (σ.region r).pgDir ((start / pageSize + k) % 2 ^ 20)))
    have hword := vmmTableWord_loaded hl hlt
    rw [hpage, vmmTableWord] at hword
    rw [vmmCheckFrom, if_congr hsplit rfl rfl]
    by_cases htable : present (σ.pde r (pdIndex (u32 (start + i * pageSize)))) = true
    · have hpt := (recursivePt_loaded hl).trans (tableLink_of_present htable)
      rw [if_pos htable, hpt, Option.bind_eq_bind, Option.bind_some] at hword
      have hentry := Option.some.inj hword
      rw [if_pos htable, hpt, Option.bind_eq_bind, Option.bind_some, hentry, ih]
      refine grants_tests.trans ?_
      by_cases hgrants : Grants write (σ.word (σ.region r).pgDir ((start / pageSize + i) % 2 ^ 20))
      · rw [if_pos hgrants, if_congr (and_iff_right hgrants) rfl rfl]
      · rw [if_neg hgrants, if_neg fun h => hgrants h.1]
    · rw [if_neg htable] at hword
      rw [if_neg htable, if_neg]
      rintro ⟨hgrants, -⟩
      rw [← Option.some.inj hword] at hgrants
      exact absurd hgrants.1 (by decide)

theorem vmmCheckBuffer_loaded (hl : Loaded σ r) (hva : va < 2 ^ 32) : vmmCheckBuffer r va size write σ =
    some (if ∀ j < touchedPages va size % 2 ^ 20,
      Grants write (σ.word (σ.region r).pgDir ((va / pageSize + j) % 2 ^ 20)) then 1 else 0) := by
  have hstart : maskLow va pageSize / pageSize = va / pageSize := Nat.mul_div_cancel _ (by decide)
  have hpages : vmmCheckBuffer r va size write σ =
      vmmCheckFrom r (maskLow va pageSize) write σ (touchedPages va size % 2 ^ 20) 0 := by
    rw [← checkedPages_eq hva]
    rfl
  rw [hpages, vmmCheckFrom_loaded hl, hstart]
  simp only [Nat.zero_add]

/-- **`vmm_check_buffer` approves nothing else** exactly where a page is turned down, or where
the buffer does not leave the address space, the directory lets user code at its pages, and if
it has every page, so do the tables. -/
theorem vmmCheckBuffer_iff (hl : Loaded σ r) (hva : va < 2 ^ 32) :
    ApprovesOnly r va size write σ ↔
      (∃ j < touchedPages va size % 2 ^ 20,
        ¬ Grants write (σ.word (σ.region r).pgDir ((va / pageSize + j) % 2 ^ 20))) ∨
      va + size ≤ 2 ^ 32 ∧
        (∀ p, InBuffer va size p → Grants write (σ.mem (σ.region r).pgDir (p / pageEntries))) ∧
        (touchedPages va size = 2 ^ 20 →
          ∀ p, InBuffer va size p → Grants write (σ.word (σ.region r).pgDir p)) := by
  rw [ApprovesOnly, vmmCheckBuffer_loaded hl hva]
  by_cases hchecked : ∀ j < touchedPages va size % 2 ^ 20,
      Grants write (σ.word (σ.region r).pgDir ((va / pageSize + j) % 2 ^ 20))
  · have hnone : ¬ ∃ j < touchedPages va size % 2 ^ 20,
        ¬ Grants write (σ.word (σ.region r).pgDir ((va / pageSize + j) % 2 ^ 20)) := by
      rintro ⟨j, hj, hbad⟩
      exact hbad (hchecked j hj)
    rw [if_pos hchecked, or_iff_right hnone, forall_prop_of_true rfl]
    refine and_congr_right fun hle => ?_
    constructor
    · intro hboth
      exact ⟨fun p hp => (hboth p hp).1, fun _ p hp => (hboth p hp).2⟩
    · rintro ⟨hdirectory, hall⟩ p hp
      refine ⟨hdirectory p hp, ?_⟩
      obtain ⟨hfirst, hlast⟩ := inBuffer_iff_touched.1 hp
      have htouched : va / pageSize + touchedPages va size ≤ 2 ^ 20 := by
        unfold touchedPages
        simp only [pageSize]
        omega
      rcases Nat.eq_or_lt_of_le (Nat.le_trans (Nat.le_add_left _ _) htouched) with heq | hlt
      · exact hall heq p hp
      · have hword := hchecked (p - va / pageSize) (by rw [Nat.mod_eq_of_lt hlt]; omega)
        rwa [Nat.add_sub_cancel' hfirst, Nat.mod_eq_of_lt (by omega)] at hword
  · rw [if_neg hchecked]
    refine iff_of_true (fun h => absurd (Option.some.inj h) (by decide)) (.inl ?_)
    obtain ⟨j, hj⟩ := not_forall.1 hchecked
    exact ⟨j, Classical.not_imp.1 hj⟩

/-- A page that a region has allocated. -/
theorem userPage_approvesOnly : ∃ s, usedRegion = some s ∧ ApprovesOnly 2 userSpaceStart pageSize true s := by
  obtain ⟨s, hs⟩ := exists_usedRegion
  obtain ⟨d, hl, -⟩ := userReach_held (usedRegion_userReach hs)
  have htable : (usedRegion.map fun s => decide (Grants true (s.mem (s.region 2).pgDir 0))) = some true := by
    decide +kernel
  rw [hs, Option.map_some] at htable
  refine ⟨s, hs, (vmmCheckBuffer_iff hl (by decide)).2 (.inr ⟨by decide, fun p hp => ?_, fun h => absurd h (by decide)⟩)⟩
  obtain ⟨hle, hlt⟩ := hp
  have htable_index : p / pageEntries = 0 := by
    simp only [userSpaceStart, pageSize, pageEntries] at *
    omega
  rw [htable_index]
  exact of_decide_eq_true (Option.some.inj htable)

/-- The rounded end of a buffer that goes once around the address space is its start. -/
theorem longBuffer_not_approvesOnly :
    ∃ s, usedRegion = some s ∧ ¬ ApprovesOnly 2 userSpaceStart (2 ^ 32 - 1) true s := by
  obtain ⟨s, hs⟩ := exists_usedRegion
  refine ⟨s, hs, fun h => ?_⟩
  have happroved : vmmCheckBuffer 2 userSpaceStart (2 ^ 32 - 1) true s = some 1 := rfl
  exact absurd (h happroved).1 (by decide)

end Flopperating
