/-
# Words of page tables

`src/mem/paging.h`, `src/mem/vmm.h` and the index functions of `src/mem/vmm.c`.
A virtual address has 10 bits of directory index, 10 bits of table index and 12
bits of offset.  A word of a directory or of a table holds the address of a page
and 12 bits of flags; directories and tables have the same format, which is why a
directory can be its own last table (`RECURSIVE_PDE`).

A virtual page is given by its number, `va / PAGE_SIZE`.
-/

import Flopperating.Data.TwoLevel
import Flopperating.Mem.HeapHeaders
import Mathlib.Data.Nat.Bitwise

namespace Flopperating

/-- `PAGE_PRESENT`. -/
abbrev pagePresent : ℕ := 0x1

/-- `PAGE_RW`. -/
abbrev pageRw : ℕ := 0x2

/-- `PAGE_USER`. -/
abbrev pageUser : ℕ := 0x4

/-- `PAGE_ENTRIES`. -/
abbrev pageEntries : ℕ := 1024

/-- `RECURSIVE_PDE`. -/
abbrev recursivePde : ℕ := 1023

/-- `RECURSIVE_ADDR`. -/
abbrev recursiveAddr : ℕ := 0xFFC00000

/-- `USER_SPACE_START`. -/
abbrev userSpaceStart : ℕ := 0x00100000

/-- `USER_SPACE_END`. -/
abbrev userSpaceEnd : ℕ := 0xBFFFFFFF

/-- `pd_index`. -/
def pdIndex (va : ℕ) : ℕ := va / 2 ^ 22 % 2 ^ 10

/-- `pt_index`. -/
def ptIndex (va : ℕ) : ℕ := va / 2 ^ 12 % 2 ^ 10

/-- `word & PAGE_PRESENT`. -/
def present (word : ℕ) : Bool := word.testBit 0

/-- `word & PAGE_USER`. -/
def userBit (word : ℕ) : Bool := word.testBit 2

/-- `(pa & PAGE_MASK) | flags | PAGE_PRESENT`. -/
def pageEntry (pa flags : ℕ) : ℕ := maskLow pa pageSize ||| flags ||| pagePresent

/-- The page that a word links: the address in it, when it is present. -/
def tableLink (word : ℕ) : Option ℕ := if present word then some (maskLow word pageSize) else none

/-! ### Words -/

section Words

variable {x y pa flags word t : ℕ}

theorem testBit_maskLow (x i : ℕ) : (maskLow x pageSize).testBit i = (decide (12 ≤ i) && x.testBit i) := by
  rw [show maskLow x pageSize = x / 2 ^ 12 * 2 ^ 12 from rfl, Nat.testBit_mul_two_pow,
    Nat.testBit_div_two_pow]
  rcases Nat.lt_or_ge i 12 with h | h
  · simp [Nat.not_le.2 h]
  · simp [h, Nat.sub_add_cancel h]

theorem maskLow_or (x y : ℕ) : maskLow (x ||| y) pageSize = maskLow x pageSize ||| maskLow y pageSize := by
  refine Nat.eq_of_testBit_eq fun i => ?_
  rw [Nat.testBit_or, testBit_maskLow, testBit_maskLow, testBit_maskLow, Nat.testBit_or,
    Bool.and_or_distrib_left]

theorem maskLow_of_dvd (h : pageSize ∣ x) : maskLow x pageSize = x := Nat.div_mul_cancel h

theorem maskLow_of_lt (h : x < pageSize) : maskLow x pageSize = 0 := by
  rw [maskLow, Nat.div_eq_of_lt h, Nat.zero_mul]

@[simp] theorem maskLow_maskLow : maskLow (maskLow x pageSize) pageSize = maskLow x pageSize :=
  maskLow_of_dvd (pageSize_dvd_maskLow x)

@[simp] theorem present_pageEntry (pa flags : ℕ) : present (pageEntry pa flags) = true := by
  simp [present, pageEntry]

@[simp] theorem present_zero : present 0 = false := by simp [present]

@[simp] theorem tableLink_zero : tableLink 0 = none := by simp [tableLink]

theorem userBit_pageEntry (pa flags : ℕ) : userBit (pageEntry pa flags) = userBit flags := by
  have hpresent : pagePresent.testBit 2 = false := by decide
  rw [userBit, pageEntry, Nat.testBit_or, Nat.testBit_or, testBit_maskLow, hpresent]
  simp [userBit]

/-- Flags leave the address alone. -/
theorem maskLow_pageEntry (h : flags < pageSize) :
    maskLow (pageEntry pa flags) pageSize = maskLow pa pageSize := by
  rw [pageEntry, maskLow_or, maskLow_or, maskLow_maskLow, maskLow_of_lt h,
    maskLow_of_lt (x := pagePresent) (by decide), Nat.or_zero, Nat.or_zero]

theorem pageEntry_mod (pa flags : ℕ) :
    pageEntry pa flags % pageSize = flags % pageSize ||| pagePresent := by
  have hmask : maskLow pa pageSize % 2 ^ 12 = 0 := Nat.mul_mod_left _ _
  have hpresent : pagePresent % 2 ^ 12 = pagePresent := rfl
  change (maskLow pa pageSize ||| flags ||| pagePresent) % 2 ^ 12 = flags % 2 ^ 12 ||| pagePresent
  rw [Nat.or_mod_two_pow, Nat.or_mod_two_pow, hmask, Nat.zero_or, hpresent]

theorem tableLink_of_present (h : present word = true) :
    tableLink word = some (maskLow word pageSize) := if_pos h

theorem tableLink_eq_none : tableLink word = none ↔ present word = false := by
  simp [tableLink]

theorem tableLink_eq_some : tableLink word = some t ↔ present word = true ∧ maskLow word pageSize = t := by
  simp [tableLink]

/-- A page that is linked is aligned. -/
theorem dvd_of_tableLink (h : tableLink word = some t) : pageSize ∣ t := by
  obtain ⟨-, rfl⟩ := tableLink_eq_some.1 h
  exact pageSize_dvd_maskLow word

theorem tableLink_pageEntry (hpa : pageSize ∣ pa) (h : flags < pageSize) :
    tableLink (pageEntry pa flags) = some pa := by
  rw [tableLink_of_present (present_pageEntry pa flags), maskLow_pageEntry h, maskLow_of_dvd hpa]

end Words

/-! ### Indices -/

section Indices

variable {va n i : ℕ}

theorem pdIndex_eq (h : va < 2 ^ 32) : pdIndex va = va / pageSize / pageEntries := by
  simp only [pdIndex, pageSize, pageEntries]
  omega

theorem ptIndex_eq (va : ℕ) : ptIndex va = va / pageSize % pageEntries := rfl

theorem pdIndex_lt_recursivePde (h : va < recursiveAddr) : pdIndex va < recursivePde := by
  simp only [pdIndex, recursiveAddr, recursivePde] at *
  omega

theorem page_div (va i : ℕ) : (va + i * pageSize) / pageSize = va / pageSize + i :=
  Nat.add_mul_div_right _ _ (by decide)

end Indices

end Flopperating
