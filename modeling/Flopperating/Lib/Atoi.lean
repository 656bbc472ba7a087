/-
# Decimal conversion, there and back

`flopatoi` of `src/lib/str.c`, and `flopitoa` of `Printf` with the buffer it is given.  What
`flopitoa` writes for an `int` is its canonical numeral, and `flopatoi` reads the `int` back
(`flopitoa_flopatoi`): also the most negative one, whose digits overflow to itself before the
sign is applied.
-/

import Flopperating.Lib.PrintfSpec
import Flopperating.Lib.StrCopy
import Mathlib.Tactic.NormNum

namespace Flopperating

open BoundedBuffer Numeral TracedMemory

/-- `c == ' ' || c == '\t' || c == '\n' || c == '\r' || c == '\v' || c == '\f'` -/
def isSpace (c : UInt8) : Bool := c = 32 ∨ c = 9 ∨ c = 10 ∨ c = 13 ∨ c = 11 ∨ c = 12

/-- `c >= '0' && c <= '9'` -/
def isDigit (c : UInt8) : Bool := 48 ≤ c ∧ c ≤ 57

/-- The loop of `flopatoi` over the digits. -/
def atoiDigits : ℤ → CString → ℤ
  | result, [] => result
  | result, c :: str =>
    if isDigit c.1 then atoiDigits (i32 (i32 (result * 10) + (c.1.toNat - 48))) str else result

/-- `flopatoi` behind the white space. -/
def atoiSigned (str : CString) : ℤ :=
  if charAt str = '-'.toUInt8 then i32 (atoiDigits 0 str.tail * -1)
  else if charAt str = '+'.toUInt8 then i32 (atoiDigits 0 str.tail * 1)
  else i32 (atoiDigits 0 str * 1)

/-- `flopatoi`, where `NULL` is no string. -/
def flopatoi (str : Option CString) : ℤ := str.elim 0 fun str => atoiSigned (str.dropWhile fun c => isSpace c.1)

/-- `flopitoa`, into the first `cap` bytes of an array: what it returns, and the array. -/
def flopitoaInto (cap : ℕ) (value width : ℤ) (buffer : CharArray) : Except PrintFault (ℕ × CharArray) :=
  (flopitoa cap value width).map fun text => (text.length, storeFrom (0 + ·) 0 (text ++ [0]) buffer)

/-- The text is the numeral of `value`: a minus for a negative number, digits, and no zero in front
but for the number `0`. -/
structure Canonical (value : ℤ) (text : List UInt8) : Prop where
  digits : ∃ ds : List ℕ, text = (if value < 0 then ['-'.toUInt8] else []) ++ ds.map decimalDigit ∧
    (∀ d ∈ ds, d < 10) ∧ ds.foldl (fun a d => a * 10 + d) 0 = value.natAbs ∧
    (value ≠ 0 → ∃ d rest, 0 < d ∧ ds = d :: rest) ∧ (value = 0 → ds = [0])

variable {value : ℤ} {a : ℕ → UInt8} {bytes : List UInt8} {ds : List ℕ} {r x y : ℤ} {s t digits rest spaces sign : CString}

/-! ### What is written -/

theorem canonical_decimalText : Canonical value (decimalText value) where
  digits := by
    refine ⟨numeral 10 id value.natAbs, ?_, fun d hd => ?_, foldl_numeral (by decide), fun hne => ?_, fun hzero => ?_⟩
    · rw [map_numeral]
      rfl
    · obtain ⟨d', hlt, rfl⟩ := mem_numeral (by decide) hd
      exact hlt
    · obtain ⟨d, rest, hpos, -, heq⟩ : ∃ d rest, 0 < d ∧ d < 10 ∧ numeral 10 id value.natAbs = id d :: rest :=
        head_numeral (by decide) (Int.natAbs_pos.2 hne)
      exact ⟨d, rest, hpos, heq⟩
    · rw [hzero]
      rfl

theorem map_val_ofBytes (h : ∀ c ∈ bytes, c ≠ 0) : (CString.ofBytes bytes).map Subtype.val = bytes := by
  induction bytes with
  | nil => rfl
  | cons c bytes ih =>
    have hc : c ≠ 0 := h c List.mem_cons_self
    rw [CString.ofBytes, List.filterMap_cons_some (dif_pos hc), List.map_cons]
    exact congrArg (c :: ·) (ih fun d hd => h d (List.mem_cons_of_mem c hd))

theorem decimalDigit_eq {d : ℕ} (hd : d < 10) : (decimalDigit d).toNat = 48 + d := by
  rw [decimalDigit, UInt8.toNat_ofNat']
  omega

theorem isDigit_decimalDigit {d : ℕ} (hd : d < 10) : isDigit (decimalDigit d) = true := by
  have := decimalDigit_eq hd
  refine decide_eq_true ⟨UInt8.le_iff_toNat_le.2 ?_, UInt8.le_iff_toNat_le.2 ?_⟩
  · exact (Nat.le_add_right 48 d).trans this.ge
  · exact this.le.trans (show 48 + d ≤ 57 by omega)

/-- No byte of a numeral is the `NUL`. -/
theorem decimalText_ne_zero : ∀ c ∈ decimalText value, c ≠ 0 := by
  intro c hc
  rcases List.mem_append.1 hc with hc | hc
  · split_ifs at hc
    · rw [List.mem_singleton.1 hc]
      decide
    · exact absurd hc List.not_mem_nil
  · obtain ⟨d, hd, rfl⟩ := mem_numeral (by decide) hc
    intro hzero
    have := decimalDigit_eq hd
    rw [hzero] at this
    exact absurd this (by rw [UInt8.toNat_zero]; omega)

theorem length_decimalText_lt (hlow : -2147483648 ≤ value) (hhigh : value < 2147483648) :
    (decimalText value).length < 12 := by
  have := decimal_length_le hlow hhigh
  rw [decimalText, List.length_append]
  split_ifs
  · rw [List.length_singleton]
    omega
  · rw [List.length_nil]
    omega

/-- The numeral as a string. -/
def decimalString (value : ℤ) : CString := .ofBytes (decimalText value)

theorem map_val_decimalString : (decimalString value).map Subtype.val = decimalText value :=
  map_val_ofBytes decimalText_ne_zero

theorem flopitoaInto_eq (hlow : -2147483648 ≤ value) (hhigh : value < 2147483648) (buffer : CharArray) :
    flopitoaInto 12 value 0 buffer = .ok ((decimalString value).length,
      storeFrom (0 + ·) 0 ((decimalString value).map Subtype.val ++ [0]) buffer) := by
  rw [flopitoaInto, flopitoa_eq hlow hhigh, map_val_decimalString, ← List.length_map Subtype.val, map_val_decimalString]
  rfl

/-! ### What is read -/

theorem i32_of_int (hlow : -2147483648 ≤ value) (hhigh : value < 2147483648) : i32 value = value := by
  unfold i32
  rw [Int.bmod_eq_of_le] <;> norm_num <;> omega

/-- The accumulator only matters as an `int`. -/
theorem i32_accumulate : i32 (i32 (i32 x * 10) + y) = i32 (x * 10 + y) := by
  unfold i32
  rw [Int.bmod_add_bmod, ← Int.bmod_add_bmod, Int.bmod_mul_bmod, Int.bmod_add_bmod]

/-- **The loop reads the digits**, as an `int`, up to what is no digit. -/
theorem atoiDigits_eq (rest : CString) (hs : s.map Subtype.val = ds.map decimalDigit) (hds : ∀ d ∈ ds, d < 10)
    (hrest : isDigit (charAt rest) = false) (n : ℕ) :
    atoiDigits (i32 n) (s ++ rest) = i32 ((ds.foldl (fun a d => a * 10 + d) n : ℕ) : ℤ) := by
  induction ds generalizing s n with
  | nil =>
    rw [List.map_eq_nil_iff.1 hs, List.nil_append]
    rcases rest with - | ⟨c, rest⟩
    · rfl
    · rw [atoiDigits, if_neg (by rw [show isDigit c.1 = false from hrest]; exact Bool.false_ne_true)]
      rfl
  | cons d ds ih =>
    rcases s with - | ⟨c, s⟩
    · exact absurd hs (by simp)
    · have hd := hds d List.mem_cons_self
      rw [List.map_cons, List.map_cons, List.cons.injEq] at hs
      have hvalue : ((c.1.toNat : ℤ) - 48) = d := by
        rw [hs.1, decimalDigit_eq hd]
        omega
      have hnext := ih hs.2 (fun e he => hds e (List.mem_cons_of_mem d he)) (n * 10 + d)
      rw [List.cons_append, atoiDigits, hs.1, if_pos (isDigit_decimalDigit hd), ← hs.1, hvalue, i32_accumulate,
        List.foldl_cons, ← hnext]
      push_cast
      rfl

/-- White space in front is skipped. -/
theorem flopatoi_append_spaces (hspaces : ∀ c ∈ spaces, isSpace c.1 = true) :
    flopatoi (some (spaces ++ s)) = flopatoi (some s) := by
  refine congrArg atoiSigned ?_
  rw [List.dropWhile_append_of_pos]
  exact hspaces

/-- A string of digits. -/
theorem exists_digits (hdigits : ∀ c ∈ digits, isDigit c.1 = true) :
    ∃ ds : List ℕ, digits.map Subtype.val = ds.map decimalDigit ∧ ∀ d ∈ ds, d < 10 := by
  refine ⟨digits.map fun c => c.1.toNat - 48, ?_, fun d hd => ?_⟩
  · rw [List.map_map]
    refine List.map_congr_left fun c hc => ?_
    have hdigit := of_decide_eq_true (hdigits c hc)
    have hlow : 48 ≤ c.1.toNat := UInt8.le_iff_toNat_le.1 hdigit.1
    have hhigh : c.1.toNat ≤ 57 := UInt8.le_iff_toNat_le.1 hdigit.2
    refine UInt8.toNat_inj.1 ?_
    rw [Function.comp_apply, decimalDigit_eq (by omega)]
    omega
  · obtain ⟨c, hc, rfl⟩ := List.mem_map.1 hd
    have hdigit := of_decide_eq_true (hdigits c hc)
    have hhigh : c.1.toNat ≤ 57 := UInt8.le_iff_toNat_le.1 hdigit.2
    show c.1.toNat - 48 < 10
    omega

/-- What follows the digits is ignored. -/
theorem atoiDigits_append (hdigits : ∀ c ∈ digits, isDigit c.1 = true) (hrest : isDigit (charAt rest) = false) :
    atoiDigits 0 (digits ++ rest) = atoiDigits 0 digits := by
  obtain ⟨ds, hds, hlt⟩ := exists_digits hdigits
  have hwith := atoiDigits_eq rest hds hlt hrest 0
  have hwithout := atoiDigits_eq [] hds hlt rfl 0
  rw [List.append_nil] at hwithout
  exact hwith.trans hwithout.symm

/-- No sign, or one. -/
def IsSign (sign : CString) : Prop := sign.map Subtype.val ∈ [[], ['-'.toUInt8], ['+'.toUInt8]]

/-- What the digits are multiplied with. -/
def signValue (sign : CString) : ℤ := if charAt sign = '-'.toUInt8 then -1 else 1

theorem signValue_of_minus {c : CChar} (h : c.1 = '-'.toUInt8) : signValue (c :: sign) = -1 := if_pos h

theorem signValue_of_ne {c : CChar} (h : c.1 ≠ '-'.toUInt8) : signValue (c :: sign) = 1 := if_neg h

theorem IsSign.eq_of_cons {c : CChar} (h : IsSign (c :: sign)) :
    sign = [] ∧ (c.1 = '-'.toUInt8 ∨ c.1 = '+'.toUInt8) := by
  rw [IsSign, List.map_cons] at h
  rcases List.mem_cons.1 h with h | h
  · exact absurd h (List.cons_ne_nil _ _)
  · rcases List.mem_cons.1 h with h | h
    · exact ⟨List.map_eq_nil_iff.1 (List.cons.inj h).2, .inl (List.cons.inj h).1⟩
    · have h := List.mem_singleton.1 h
      exact ⟨List.map_eq_nil_iff.1 (List.cons.inj h).2, .inr (List.cons.inj h).1⟩

/-- The sign is told apart from the digits. -/
theorem atoiSigned_append (hsign : IsSign sign) (hs : isDigit (charAt s) = true) :
    atoiSigned (sign ++ s) = i32 (atoiDigits 0 s * signValue sign) := by
  rcases sign with - | ⟨c, sign⟩
  · have hminus : charAt s ≠ '-'.toUInt8 := by
      intro heq
      rw [heq] at hs
      exact absurd hs (by decide)
    have hplus : charAt s ≠ '+'.toUInt8 := by
      intro heq
      rw [heq] at hs
      exact absurd hs (by decide)
    rw [List.nil_append, atoiSigned, if_neg hminus, if_neg hplus]
    rfl
  · obtain ⟨rfl, hc | hc⟩ := hsign.eq_of_cons
    · rw [signValue_of_minus hc]
      exact if_pos hc
    · have hne : c.1 ≠ '-'.toUInt8 := by
        rw [hc]
        decide
      rw [signValue_of_ne hne]
      exact (if_neg hne).trans (if_pos hc)

/-- Behind white space there is no white space. -/
theorem flopatoi_of_digit (hsign : IsSign sign) (hs : isDigit (charAt s) = true) :
    flopatoi (some (sign ++ s)) = i32 (atoiDigits 0 s * signValue sign) := by
  refine Eq.trans (congrArg atoiSigned ?_) (atoiSigned_append hsign hs)
  have hhead : isSpace (charAt (sign ++ s)) = false := by
    rcases sign with - | ⟨c, sign⟩
    · have hdigit := of_decide_eq_true hs
      refine Bool.eq_false_iff.2 fun hspace => ?_
      rcases of_decide_eq_true hspace with h | h | h | h | h | h <;>
        exact absurd (h ▸ hdigit.1 : (48 : UInt8) ≤ _) (by decide)
    · show isSpace c.1 = false
      rcases hsign.eq_of_cons.2 with hc | hc <;> rw [hc] <;> decide
  rcases hlist : sign ++ s with - | ⟨c, t⟩
  · rfl
  · rw [hlist] at hhead
    exact List.dropWhile_cons_of_neg (by rw [show isSpace c.1 = false from hhead]; exact Bool.false_ne_true)

theorem isDigit_charAt_append (rest : CString) (hne : digits ≠ []) (hdigits : ∀ c ∈ digits, isDigit c.1 = true) :
    isDigit (charAt (digits ++ rest)) = true := by
  rcases digits with - | ⟨c, digits⟩
  · exact absurd rfl hne
  · exact hdigits c List.mem_cons_self

/-- **What stands behind the digits is ignored.** -/
theorem flopatoi_append (hsign : IsSign sign) (hne : digits ≠ []) (hdigits : ∀ c ∈ digits, isDigit c.1 = true)
    (hrest : isDigit (charAt rest) = false) :
    flopatoi (some (sign ++ digits ++ rest)) = flopatoi (some (sign ++ digits)) := by
  have hwithout := flopatoi_of_digit hsign (isDigit_charAt_append [] hne hdigits)
  rw [List.append_nil] at hwithout
  rw [List.append_assoc, flopatoi_of_digit hsign (isDigit_charAt_append rest hne hdigits),
    atoiDigits_append hdigits hrest, hwithout]

/-- **`flopatoi` reads the numeral of every `int`.** -/
theorem flopatoi_decimalString (hlow : -2147483648 ≤ value) (hhigh : value < 2147483648) :
    flopatoi (some (decimalString value)) = value := by
  have htext : (decimalString value).map Subtype.val =
      (if value < 0 then ['-'.toUInt8] else []) ++ (numeral 10 id value.natAbs).map decimalDigit := by
    rw [map_val_decimalString, map_numeral]
    rfl
  obtain ⟨sign, digits, heq, hsign, hdigits⟩ := List.map_eq_append_iff.1 htext
  have hlt : ∀ d ∈ numeral 10 id value.natAbs, d < 10 := by
    intro d hd
    obtain ⟨e, he, rfl⟩ := mem_numeral (by decide) hd
    exact he
  have hread := atoiDigits_eq [] hdigits hlt rfl 0
  rw [foldl_numeral (by decide), List.append_nil] at hread
  have hhead : isDigit (charAt digits) = true := by
    rcases digits with - | ⟨c, digits⟩
    · have hlen : (numeral 10 id value.natAbs).length = 0 := by
        rw [← List.length_map decimalDigit, ← hdigits]
        rfl
      exact absurd hlen (Nat.ne_of_gt (length_numeral_pos (by decide)))
    · have hmem : c.1 ∈ (numeral 10 id value.natAbs).map decimalDigit := by
        rw [← hdigits]
        exact List.mem_cons_self
      obtain ⟨d, hd, hc⟩ := List.mem_map.1 hmem
      rw [charAt, ← hc]
      exact isDigit_decimalDigit (hlt d hd)
  have hfinal : flopatoi (some (sign ++ digits)) = i32 (value.natAbs * signValue sign) := by
    have hissign : IsSign sign := by
      rw [IsSign, hsign]
      split_ifs <;> decide
    rw [flopatoi_of_digit hissign hhead]
    refine (congrArg (fun n => i32 (n * signValue sign)) hread).trans ?_
    exact Int.bmod_mul_bmod
  rw [heq, hfinal]
  refine Eq.trans (congrArg i32 ?_) (i32_of_int hlow hhigh)
  rcases Int.lt_or_le value 0 with hneg | hnonneg
  · rw [if_pos hneg] at hsign
    rcases sign with - | ⟨c, sign⟩
    · exact absurd hsign (by simp)
    · rw [signValue_of_minus (List.cons.inj hsign).1]
      omega
  · rw [if_neg (Int.not_lt.2 hnonneg)] at hsign
    rw [List.map_eq_nil_iff.1 hsign, show signValue [] = 1 by decide]
    omega

/-- **Decimal conversion goes there and back**, and `flopatoi` reads past what is around a numeral. -/
theorem flopitoa_flopatoi (hlow : -2147483648 ≤ value) (hhigh : value < 2147483648) :
    (∃ text buffer, flopitoaInto 12 value 0 (.fresh a) = .ok (text.length, buffer) ∧
      Canonical value (text.map Subtype.val) ∧ Respects 12 text buffer ∧ flopatoi (some text) = value) ∧
    (∀ spaces s : CString, (∀ c ∈ spaces, isSpace c.1 = true) → flopatoi (some (spaces ++ s)) = flopatoi (some s)) ∧
    ∀ sign digits rest : CString, IsSign sign → digits ≠ [] → (∀ c ∈ digits, isDigit c.1 = true) →
      isDigit (charAt rest) = false → flopatoi (some (sign ++ digits ++ rest)) = flopatoi (some (sign ++ digits)) := by
  refine ⟨⟨decimalString value, _, flopitoaInto_eq hlow hhigh _, ?_, ⟨fun i hi => ?_, fun _ => ?_⟩,
    flopatoi_decimalString hlow hhigh⟩, fun _ _ => flopatoi_append_spaces, fun _ _ _ => flopatoi_append⟩
  · rw [map_val_decimalString]
    exact canonical_decimalText
  · have hlen := length_decimalText_lt hlow hhigh
    rcases mem_touched_storeFrom.1 hi with hi | ⟨k, hk, rfl⟩
    · exact absurd hi List.not_mem_nil
    · rw [map_val_decimalString, List.length_append, List.length_singleton] at hk
      omega
  · exact holdsAt_storeFrom _

theorem flopitoa_flopatoi_intMin :
    (∃ text buffer, flopitoaInto 12 (-2147483648) 0 (.fresh fun _ => 7) = .ok (text.length, buffer) ∧
      Canonical (-2147483648) (text.map Subtype.val) ∧ Respects 12 text buffer ∧
      flopatoi (some text) = -2147483648) :=
  (flopitoa_flopatoi (by decide) (by decide)).1

end Flopperating
