/-
# Memory as bytes

A memory is a function from addresses to bytes.  Words have 32 bits and are
stored low byte first.  The lemmas are of two kinds: what a write leaves at the
place it is made, and that it leaves everything else (the frame).
-/

import Mathlib.Algebra.Group.Nat.Defs
import Mathlib.Logic.Function.Basic

namespace ByteMemory

/-- The byte at each address. -/
abbrev Memory := ℕ → BitVec 8

/-- The word at `a`. -/
def readWord (m : Memory) (a : ℕ) : ℕ :=
  (m a).toNat + 2 ^ 8 * (m (a + 1)).toNat + 2 ^ 16 * (m (a + 2)).toNat +
    2 ^ 24 * (m (a + 3)).toNat

/-- Store the word `w` at `a`. -/
def writeWord (m : Memory) (a w : ℕ) : Memory := fun x =>
  if a ≤ x ∧ x < a + 4 then BitVec.ofNat 8 (w / 2 ^ (8 * (x - a))) else m x

/-- The halfword at `a`. -/
def readHalf (m : Memory) (a : ℕ) : BitVec 16 := m (a + 1) ++ m a

/-- Store the halfword `v` at `a`. -/
def writeHalf (m : Memory) (a : ℕ) (v : BitVec 16) : Memory := fun x =>
  if x = a then v.extractLsb' 0 8 else if x = a + 1 then v.extractLsb' 8 8 else m x

/-- Copy `n` bytes from `src` to `dst`, one after the other from the lowest on. -/
def copy (m : Memory) (dst src : ℕ) : ℕ → Memory
  | 0 => m
  | n + 1 => Function.update (copy m dst src n) (dst + n) (copy m dst src n (src + n))

/-- Store one byte in the `n` bytes from `dst` on. -/
def fill (m : Memory) (dst : ℕ) (v : BitVec 8) (n : ℕ) : Memory := fun x =>
  if dst ≤ x ∧ x < dst + n then v else m x

variable {m m' : Memory} {a b w n dst src x : ℕ}

theorem readWord_lt (m : Memory) (a : ℕ) : readWord m a < 2 ^ 32 := by
  have h₀ := (m a).isLt
  have h₁ := (m (a + 1)).isLt
  have h₂ := (m (a + 2)).isLt
  have h₃ := (m (a + 3)).isLt
  unfold readWord
  omega

/-- A word only depends on its four bytes. -/
theorem readWord_congr (h : ∀ x, a ≤ x → x < a + 4 → m' x = m x) :
    readWord m' a = readWord m a := by
  unfold readWord
  rw [h a (by omega) (by omega), h (a + 1) (by omega) (by omega), h (a + 2) (by omega) (by omega),
    h (a + 3) (by omega) (by omega)]

theorem writeWord_of_not_mem (h : x < a ∨ a + 4 ≤ x) : writeWord m a w x = m x :=
  if_neg (by omega)

theorem toNat_writeWord {k : ℕ} (hk : k < 4) :
    (writeWord m a w (a + k)).toNat = w / 2 ^ (8 * k) % 2 ^ 8 := by
  have hin : a ≤ a + k ∧ a + k < a + 4 := by omega
  rw [writeWord, if_pos hin, BitVec.toNat_ofNat, Nat.add_sub_cancel_left]

@[simp] theorem readWord_writeWord_self (hw : w < 2 ^ 32) : readWord (writeWord m a w) a = w := by
  have h₀ := toNat_writeWord (m := m) (a := a) (w := w) (k := 0) (by decide)
  have h₁ := toNat_writeWord (m := m) (a := a) (w := w) (k := 1) (by decide)
  have h₂ := toNat_writeWord (m := m) (a := a) (w := w) (k := 2) (by decide)
  have h₃ := toNat_writeWord (m := m) (a := a) (w := w) (k := 3) (by decide)
  simp only [Nat.add_zero, Nat.reduceMul, Nat.reducePow, Nat.div_one] at h₀ h₁ h₂ h₃
  unfold readWord
  rw [h₀, h₁, h₂, h₃]
  omega

theorem readWord_writeWord_of_disjoint (h : b + 4 ≤ a ∨ a + 4 ≤ b) :
    readWord (writeWord m a w) b = readWord m b :=
  readWord_congr fun x hx hx' => writeWord_of_not_mem (by omega)

theorem writeHalf_of_not_mem {v : BitVec 16} (h : x < a ∨ a + 2 ≤ x) : writeHalf m a v x = m x := by
  rw [writeHalf, if_neg (by omega), if_neg (by omega)]

@[simp] theorem readHalf_writeHalf_self {v : BitVec 16} : readHalf (writeHalf m a v) a = v := by
  have hlow : writeHalf m a v a = v.extractLsb' 0 8 := if_pos rfl
  have hhigh : writeHalf m a v (a + 1) = v.extractLsb' 8 8 := by
    rw [writeHalf, if_neg (Nat.succ_ne_self a), if_pos rfl]
  rw [readHalf, hlow, hhigh]
  exact BitVec.extractLsb'_append_extractLsb'

/-- A copy leaves everything but its destination. -/
theorem copy_of_not_mem (h : x < dst ∨ dst + n ≤ x) : copy m dst src n x = m x := by
  induction n with
  | zero => rfl
  | succ n ih =>
    rw [copy, Function.update_of_ne (by omega)]
    exact ih (by omega)

/-- A copy between disjoint places copies what was there. -/
theorem copy_of_mem (hd : dst + n ≤ src ∨ src + n ≤ dst) {i : ℕ} (hi : i < n) :
    copy m dst src n (dst + i) = m (src + i) := by
  induction n with
  | zero => exact absurd hi (Nat.not_lt_zero _)
  | succ n ih =>
    rw [copy]
    by_cases hin : i = n
    · rw [hin, Function.update_self]
      exact copy_of_not_mem (by omega)
    · rw [Function.update_of_ne (by omega)]
      exact ih (by omega) (by omega)

end ByteMemory
