/-
# Strings

`flopstrlen`, `flopstrcmp` and `flopstrncmp` of `src/lib/str.c`.  A string is the list of
its bytes up to the `NUL`, none of which is `NUL`; a pointer past the last one reads `0`.
-/

import Mathlib.Data.List.Infix
import Mathlib.Data.UInt

namespace Flopperating

/-- A byte of a string. -/
abbrev CChar : Type := { c : UInt8 // c ≠ 0 }

/-- A string. -/
abbrev CString : Type := List CChar

/-- The string with the given bytes. -/
def CString.ofBytes (bytes : List UInt8) : CString := bytes.filterMap fun c => if h : c ≠ 0 then some ⟨c, h⟩ else none

/-- The string of a literal. -/
def ascii (s : String) : CString := .ofBytes (s.toList.map Char.toUInt8)

/-- The byte that a pointer to the string reads. -/
def charAt : CString → UInt8
  | [] => 0
  | c :: _ => c.1

/-- `flopstrlen`. -/
def flopstrlen (s : CString) : ℕ := s.length

/-- `flopstrncmp`: the loop goes on while the bytes agree and are not `NUL`. -/
def flopstrncmp : CString → CString → ℕ → ℤ
  | _, _, 0 => 0
  | [], s₂, _ + 1 => 0 - (charAt s₂).toNat
  | c :: s₁, s₂, n + 1 => if c.1 = charAt s₂ then flopstrncmp s₁ s₂.tail n else c.1.toNat - (charAt s₂).toNat

/-- `flopstrcmp`. -/
def flopstrcmp : CString → CString → ℤ
  | [], s₂ => 0 - (charAt s₂).toNat
  | c :: s₁, s₂ => if c.1 = charAt s₂ then flopstrcmp s₁ s₂.tail else c.1.toNat - (charAt s₂).toNat

theorem toNat_sub_eq_zero {a b : UInt8} : (a.toNat : ℤ) - b.toNat = 0 ↔ a = b := by
  rw [Int.sub_eq_zero, Int.natCast_inj, UInt8.toNat_inj]

/-- A byte of a string agrees with the first byte of another exactly when the other starts
with it. -/
theorem charAt_eq_iff {c : CChar} {s : CString} : c.1 = charAt s ↔ s = c :: s.tail := by
  rcases s with - | ⟨d, s⟩
  · exact iff_of_false c.2 (List.cons_ne_nil _ _).symm
  · rw [charAt, List.tail_cons]
    constructor
    · intro heq
      rw [Subtype.ext heq]
    · intro heq
      rw [(List.cons.inj heq).1]

/-- Comparing as many bytes as the first string has asks whether it is a prefix. -/
theorem flopstrncmp_eq_zero {s₁ s₂ : CString} : flopstrncmp s₁ s₂ (flopstrlen s₁) = 0 ↔ s₁ <+: s₂ := by
  unfold flopstrlen
  induction s₁ generalizing s₂ with
  | nil => exact iff_of_true rfl List.nil_prefix
  | cons c s₁ ih =>
    rw [List.length_cons, flopstrncmp]
    split
    · next heq =>
      rw [ih, charAt_eq_iff.1 heq, List.cons_prefix_cons]
      simp
    · next hne =>
      refine iff_of_false (fun hzero => hne (toNat_sub_eq_zero.1 hzero)) fun hprefix => hne ?_
      obtain ⟨t, rfl⟩ := hprefix
      rfl

theorem flopstrcmp_eq_zero {s₁ s₂ : CString} : flopstrcmp s₁ s₂ = 0 ↔ s₁ = s₂ := by
  induction s₁ generalizing s₂ with
  | nil =>
    rcases s₂ with - | ⟨d, s₂⟩
    · exact iff_of_true rfl rfl
    · refine iff_of_false (fun hzero => d.2 ?_) (List.cons_ne_nil _ _).symm
      have hzero : ((0 : UInt8).toNat : ℤ) - d.1.toNat = 0 := hzero
      exact (toNat_sub_eq_zero.1 hzero).symm
  | cons c s₁ ih =>
    rw [flopstrcmp]
    split
    · next heq =>
      rw [ih, charAt_eq_iff.1 heq]
      simp
    · next hne =>
      refine iff_of_false (fun hzero => hne (toNat_sub_eq_zero.1 hzero)) fun heq => hne ?_
      rw [← heq]
      rfl

end Flopperating
