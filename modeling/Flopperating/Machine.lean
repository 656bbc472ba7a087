/-
# Machine integers of the i386 target

The kernel is built for `elf32-i386` (`src/kernel/linker.ld`): `uintptr_t`,
`size_t` and `unsigned int` have 32 bits.  Words are natural numbers here, and
`u32` is applied wherever the C expression can leave the range.  An address is
a word, and `NULL` is `0`.
-/

import Mathlib.Algebra.Group.Int.Defs
import Mathlib.Algebra.Group.Nat.Defs

namespace Flopperating

/-- The value of an expression of type `uint32_t`, `size_t` or `uintptr_t`. -/
def u32 (n : ℕ) : ℕ := n % 2 ^ 32

/-- The value of an expression of type `uint64_t`. -/
def u64 (n : ℕ) : ℕ := n % 2 ^ 64

/-- A word read as `int`. -/
def toInt (a : ℕ) : ℤ := if a < 2 ^ 31 then a else a - 2 ^ 32

instance lawfulBEqPair : LawfulBEq (ℕ × ℕ) := inferInstance

/-- `PAGE_SIZE` of `src/mem/pmm.h`. -/
abbrev pageSize : ℕ := 4096

theorem u32_lt (n : ℕ) : u32 n < 2 ^ 32 := Nat.mod_lt _ (by decide)

theorem toInt_of_lt {n : ℕ} (h : n < 2 ^ 31) : toInt n = n := if_pos h

theorem u32_of_lt {n : ℕ} (h : n < 2 ^ 32) : u32 n = n := Nat.mod_eq_of_lt h

/-- `x & ~(a - 1)` for a power of two `a`. -/
def maskLow (x a : ℕ) : ℕ := x / a * a

/-- `align_up` of `src/mem/pmm.c`: `(x + (a - 1)) & ~(a - 1)`. -/
def alignUp (x a : ℕ) : ℕ := maskLow (u32 (x + (a - 1))) a

/-- `PMM_ALIGN`. -/
def pmmAlign (x : ℕ) : ℕ := alignUp x pageSize

/-- A page-aligned word leaves the last page below `2 ^ 32` whole. -/
theorem maskLow_pageSize_le (x : ℕ) : maskLow (u32 x) pageSize ≤ 2 ^ 32 - pageSize := by
  have := u32_lt x
  unfold maskLow
  simp only [pageSize] at *
  omega

theorem pageSize_dvd_maskLow (x : ℕ) : pageSize ∣ maskLow x pageSize := Nat.dvd_mul_left _ _

end Flopperating
