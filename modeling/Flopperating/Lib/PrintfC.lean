/-
# Printing as C defines it

The formats are sequences of ordinary characters, `%%` and directives
`%[-][0][width]c`.  C defines the flag `0` for the conversions to numbers, and
the width of `x` and `X` is at most `8`.

| directive | C | `flopsnprintf` |
| --- | --- | --- |
| `0` without `-` | zeros behind the sign | blanks for `d` and `u`, zeros for `x` |
| `u` from `2 ^ 31` on | the number | the number minus `2 ^ 32` |
| `x` of `0` | `0` | a byte that was never written, and zeros |
| `x` with a width and no `0` | blanks | zeros in front |

Everything else is as in C, and a call differs as soon as one directive does:
the texts disagree at a place that both have, and what comes later cannot mend it.
-/

import Flopperating.Lib.PrintfWithin

namespace Flopperating

open BoundedBuffer Numeral

/-! ### Formats -/

/-- What stands in a format of C. -/
inductive CItem
  | text (c : CChar) (h : c.1 ≠ '%'.toUInt8)
  | percent
  | int (leftAlign zero : Bool) (width : ℕ) (isSigned : Bool)
  | hex (leftAlign zero : Bool) (width : ℕ) (h : width ≤ 8) (isUpper : Bool)
  | str (leftAlign : Bool) (width : ℕ)
  | chr (leftAlign : Bool) (width : ℕ)

/-- The letter of a case. -/
def Conv.letter : Conv → UInt8
  | .d => 'd'.toUInt8
  | .u => 'u'.toUInt8
  | .x isUpper => if isUpper then 'X'.toUInt8 else 'x'.toUInt8
  | .s => 's'.toUInt8
  | .c => 'c'.toUInt8
  | .p => 'p'.toUInt8
  | .percent => '%'.toUInt8
  | .default byte => byte

/-- `[0][width]`. -/
def widthBytes (zero : Bool) (width : ℕ) : List UInt8 :=
  (if zero then ['0'.toUInt8] else []) ++ (if width = 0 then [] else decimal width)

/-- `%[-][0][width]c`. -/
def directiveBytes (leftAlign zero : Bool) (width : ℕ) (conv : Conv) : List UInt8 :=
  '%'.toUInt8 :: ((if leftAlign then ['-'.toUInt8] else []) ++ (widthBytes zero width ++ [conv.letter]))

/-- How an item is written. -/
def CItem.render : CItem → List UInt8
  | .text c _ => [c.1]
  | .percent => directiveBytes false false 0 .percent
  | .int leftAlign zero width isSigned => directiveBytes leftAlign zero width (if isSigned then .d else .u)
  | .hex leftAlign zero width _ isUpper => directiveBytes leftAlign zero width (.x isUpper)
  | .str leftAlign width => directiveBytes leftAlign false width .s
  | .chr leftAlign width => directiveBytes leftAlign false width .c

/-- The format. -/
def render (items : List CItem) : CString := .ofBytes (items.flatMap CItem.render)

/-- What `flopsnprintf` takes the item for. -/
def CItem.printItem : CItem → PrintItem
  | .text c _ => .char c.1
  | .percent => .directive false 0 .percent
  | .int leftAlign _ width isSigned => .directive leftAlign width (if isSigned then .d else .u)
  | .hex leftAlign _ width _ isUpper => .directive leftAlign width (.x isUpper)
  | .str leftAlign width => .directive leftAlign width .s
  | .chr leftAlign width => .directive leftAlign width .c

/-- The width of an item. -/
def CItem.width : CItem → ℕ
  | .text _ _ | .percent => 0
  | .int _ _ width _ | .hex _ _ width _ _ | .str _ width | .chr _ width => width

/-! ### What C defines -/

/-- A number in a field. -/
def cNumber (leftAlign zero : Bool) (width : ℕ) (sign digits : List UInt8) : List UInt8 :=
  if zero = true ∧ leftAlign = false then
    sign ++ (List.replicate (width - (sign ++ digits).length) '0'.toUInt8 ++ digits)
  else field leftAlign (width - (sign ++ digits).length) (sign ++ digits)

/-- The sign of an `int`. -/
def signText (value : ℤ) : List UInt8 := if value < 0 then ['-'.toUInt8] else []

/-- What C prints for an item, with the next argument `word`. -/
def CItem.output (args : VaList) (word : UInt32) : CItem → List UInt8
  | .text c _ => [c.1]
  | .percent => ['%'.toUInt8]
  | .int leftAlign zero width isSigned =>
    if isSigned then
      cNumber leftAlign zero width (signText (toInt word.toNat)) (decimal (toInt word.toNat).natAbs)
    else cNumber leftAlign zero width [] (decimal word.toNat)
  | .hex leftAlign zero width _ isUpper => cNumber leftAlign zero width [] (hexadecimal isUpper word.toNat)
  | .str leftAlign width => field leftAlign (width - (args.str word).length) ((args.str word).map Subtype.val)
  | .chr leftAlign width => field leftAlign (width - 1) [word.toUInt8]

/-- What C prints. -/
def cOutput (args : VaList) : ℕ → List CItem → List UInt8
  | _, [] => []
  | k, item :: items => item.output args (args.word k) ++ cOutput args (k + item.printItem.args) items

/-! ### Reading the format -/

section Reading

variable {bytes : List UInt8} {c : UInt8}

theorem ofBytes_cons (h : c ≠ 0) : CString.ofBytes (c :: bytes) = ⟨c, h⟩ :: CString.ofBytes bytes := by
  unfold CString.ofBytes
  rw [List.filterMap_cons, dif_pos h]

theorem ofBytes_append {bytes' : List UInt8} :
    CString.ofBytes (bytes ++ bytes') = CString.ofBytes bytes ++ CString.ofBytes bytes' :=
  List.filterMap_append

/-- What a digit is. -/
theorem decimalDigit_spec {d : ℕ} (hd : d < 10) :
    decimalDigit d ≠ 0 ∧ decimalDigit d ≠ '-'.toUInt8 ∧ decimalDigit d ≠ ' '.toUInt8 ∧
      '0'.toUInt8 ≤ decimalDigit d ∧ decimalDigit d ≤ '9'.toUInt8 ∧ (decimalDigit d).toNat = 48 + d := by
  revert d
  decide

theorem i32_of_bounds {x : ℤ} (hlow : 0 ≤ x) (hhigh : x < 2147483648) : i32 x = x := by
  obtain ⟨n, rfl⟩ := Int.eq_ofNat_of_zero_le hlow
  exact i32_of_lt (by omega)

theorem readWidth_digit {d : ℕ} (hd : d < 10) (width : ℤ) :
    readWidth (.ofBytes (decimalDigit d :: bytes)) width = readWidth (.ofBytes bytes) (i32 (width * 10 + d)) := by
  obtain ⟨hne, -, -, hlow, hhigh, hval⟩ := decimalDigit_spec hd
  rw [ofBytes_cons hne, readWidth, if_pos ⟨hlow, hhigh⟩]
  change readWidth _ (i32 (width * 10 + (((decimalDigit d).toNat : ℤ) - 48))) = _
  rw [hval]
  congr 2
  omega

/-- **A decimal numeral is read as its number.** -/
theorem readWidth_decimal {n : ℕ} (hn : n < 2147483648) :
    readWidth (.ofBytes (decimal n ++ bytes)) 0 = readWidth (.ofBytes bytes) n := by
  induction n using Nat.strong_induction_on generalizing bytes with
  | _ n ih =>
    rcases Nat.lt_or_ge n 10 with hlt | hge
    · rw [decimal, numeral_of_lt hlt, List.singleton_append, readWidth_digit hlt, i32_of_bounds (by omega) (by omega)]
      congr 1
      omega
    · rw [decimal, numeral_of_le (by decide) hge, List.append_assoc, List.singleton_append]
      refine (ih (n / 10) (by omega) (by omega)).trans ?_
      rw [readWidth_digit (Nat.mod_lt _ (by decide)), i32_of_bounds (by omega) (by omega)]
      congr 1
      omega

theorem readWidth_widthBytes {zero : Bool} {width : ℕ} (hwidth : width < 2147483648) :
    readWidth (.ofBytes (widthBytes zero width ++ bytes)) 0 = readWidth (.ofBytes bytes) width := by
  have hdecimal : readWidth (.ofBytes ((if width = 0 then [] else decimal width) ++ bytes)) 0 =
      readWidth (.ofBytes bytes) width := by
    split_ifs with hzero
    · rw [hzero]
      rfl
    · exact readWidth_decimal hwidth
  rw [widthBytes, List.append_assoc]
  by_cases hflag : zero = true
  · rw [if_pos hflag, List.singleton_append]
    exact (readWidth_digit (d := 0) (by decide) 0).trans hdecimal
  · rw [if_neg hflag, List.nil_append, hdecimal]

/-- The first byte behind the flag `-` is not that flag. -/
theorem widthBytes_head {zero : Bool} {width : ℕ} {conv : Conv} (hconv : conv.letter ≠ 0 ∧ conv.letter ≠ '-'.toUInt8) :
    ∃ b rest, widthBytes zero width ++ conv.letter :: bytes = b :: rest ∧ b ≠ 0 ∧ b ≠ '-'.toUInt8 := by
  cases hlist : widthBytes zero width with
  | nil => exact ⟨conv.letter, bytes, rfl, hconv.1, hconv.2⟩
  | cons b rest =>
    have hb : b ∈ widthBytes zero width := hlist ▸ List.mem_cons_self
    obtain ⟨d, hd, rfl⟩ : ∃ d, d < 10 ∧ b = decimalDigit d := by
      rw [widthBytes, List.mem_append] at hb
      rcases hb with hb | hb
      · split_ifs at hb
        · exact ⟨0, by decide, List.mem_singleton.1 hb⟩
        · exact absurd hb List.not_mem_nil
      · split_ifs at hb
        · exact absurd hb List.not_mem_nil
        · exact mem_numeral (by decide) hb
    exact ⟨_, _, rfl, (decimalDigit_spec hd).1, (decimalDigit_spec hd).2.1⟩

theorem readFlag_flagBytes {leftAlign : Bool} {b : UInt8} (hne : b ≠ 0) (hminus : b ≠ '-'.toUInt8) :
    readFlag (.ofBytes ((if leftAlign then ['-'.toUInt8] else []) ++ b :: bytes)) = (leftAlign, .ofBytes (b :: bytes)) := by
  by_cases hleft : leftAlign = true
  · rw [if_pos hleft, List.singleton_append, ofBytes_cons (by decide), readFlag, if_pos rfl, hleft]
  · rw [if_neg hleft, List.nil_append, ofBytes_cons hne, readFlag, if_neg hminus, Bool.eq_false_of_not_eq_true hleft]

/-- The letter of a case stands for it, and for nothing else in a directive. -/
def Conv.Readable (conv : Conv) : Prop :=
  convOf conv.letter = conv ∧ conv.letter ≠ 0 ∧ conv.letter ≠ '-'.toUInt8 ∧
    ¬ ('0'.toUInt8 ≤ conv.letter ∧ conv.letter ≤ '9'.toUInt8)

instance (conv : Conv) : Decidable conv.Readable := inferInstanceAs (Decidable (_ ∧ _))

/-- **A directive is read as it was written.** -/
theorem itemsFrom_directive {leftAlign zero : Bool} {width steps : ℕ} {conv : Conv} (hwidth : width < 2147483648)
    (hreadable : conv.Readable) :
    itemsFrom (steps + 1) (.ofBytes (directiveBytes leftAlign zero width conv ++ bytes)) =
      .directive leftAlign width conv :: itemsFrom steps (.ofBytes bytes) := by
  obtain ⟨hconv, hne, hminus, hdigit⟩ := hreadable
  obtain ⟨b, rest, hbytes, hb, hflag⟩ :
      ∃ b rest, widthBytes zero width ++ conv.letter :: bytes = b :: rest ∧ b ≠ 0 ∧ b ≠ '-'.toUInt8 :=
    widthBytes_head ⟨hne, hminus⟩
  have hread : readWidth (.ofBytes (b :: rest)) 0 = ((width : ℤ), ⟨conv.letter, hne⟩ :: CString.ofBytes bytes) := by
    rw [← hbytes, readWidth_widthBytes hwidth, ofBytes_cons hne, readWidth, if_neg hdigit]
  have hmore : CString.ofBytes ((if leftAlign then ['-'.toUInt8] else []) ++ b :: rest) ≠ [] := by
    rw [ofBytes_append, ofBytes_cons hb]
    exact List.append_ne_nil_of_right_ne_nil _ (List.cons_ne_nil _ _)
  rw [directiveBytes, List.cons_append, List.append_assoc, List.append_assoc, List.singleton_append, hbytes,
    ofBytes_cons (by decide), itemsFrom, if_pos ⟨rfl, hmore⟩, readFlag_flagBytes hb hflag]
  simp only [hread, hconv]

/-- **The format is read as its items.** -/
theorem itemsFrom_render {items : List CItem} {steps : ℕ} (hwidth : ∀ item ∈ items, item.width < 2147483648)
    (hsteps : items.length ≤ steps) :
    itemsFrom steps (render items) = items.map CItem.printItem := by
  induction items generalizing steps with
  | nil => cases steps <;> rfl
  | cons item items ih =>
    obtain ⟨steps, rfl⟩ : ∃ m, steps = m + 1 := ⟨steps - 1, by rw [List.length_cons] at hsteps; omega⟩
    rw [List.length_cons, Nat.add_le_add_iff_right] at hsteps
    have hrest := ih (fun item hitem => hwidth item (List.mem_cons_of_mem _ hitem)) hsteps
    have hitem := hwidth item List.mem_cons_self
    rw [render, List.flatMap_cons, List.map_cons, ← hrest]
    cases item with
    | text c h =>
      rw [CItem.render, List.singleton_append, ofBytes_cons c.2, itemsFrom, if_neg (fun hpercent => h hpercent.1)]
      rfl
    | percent =>
      have hpercent : Conv.percent.Readable := by decide
      exact itemsFrom_directive hitem hpercent
    | int leftAlign zero width isSigned =>
      have hint : (if isSigned then Conv.d else Conv.u).Readable := by cases isSigned <;> decide
      exact itemsFrom_directive hitem hint
    | hex leftAlign zero width h isUpper =>
      have hhex : (Conv.x isUpper).Readable := by cases isUpper <;> decide
      exact itemsFrom_directive hitem hhex
    | str leftAlign width =>
      have hstr : Conv.s.Readable := by decide
      exact itemsFrom_directive hitem hstr
    | chr leftAlign width =>
      have hchr : Conv.c.Readable := by decide
      exact itemsFrom_directive hitem hchr

end Reading

/-! ### Texts that differ -/

/-- The texts disagree at a place that `ys` has. -/
def Differs (xs ys : List UInt8) : Prop := ∃ p a, p < ys.length ∧ xs[p]? = some a ∧ ys[p]? ≠ some a

section Texts

variable {xs ys zs sign digits : List UInt8} {leftAlign zero : Bool} {width room : ℕ}

theorem Differs.of_not_mem {p : ℕ} {a : UInt8} (hp : p < ys.length) (ha : xs[p]? = some a) (hmem : a ∉ ys) :
    Differs xs ys :=
  ⟨p, a, hp, ha, fun heq => hmem (List.mem_of_getElem? heq)⟩

/-- **What is printed behind the texts cannot mend it.** -/
theorem Differs.not_extended (h : Differs xs ys) (hroom : ys.length ≤ room) : ¬ xs.take room <+: ys ++ zs := by
  rintro ⟨rest, heq⟩
  obtain ⟨p, a, hp, hx, hy⟩ := h
  have htake : (xs.take room)[p]? = some a := by rw [List.getElem?_take_of_lt (by omega), hx]
  have hlen : p < (xs.take room).length := (List.getElem?_eq_some_iff.1 htake).1
  have hboth : (ys ++ zs)[p]? = some a := by rw [← heq, List.getElem?_append_left hlen, htake]
  exact hy ((List.getElem?_append_left hp).symm.trans hboth)

theorem cNumber_length : (cNumber leftAlign zero width sign digits).length = max width (sign ++ digits).length := by
  unfold cNumber
  split_ifs
  · simp only [List.length_append, List.length_replicate]
    omega
  · rw [field_length]
    omega

theorem mem_cNumber {b : UInt8} (h : b ∈ cNumber leftAlign zero width sign digits) :
    b ∈ sign ∨ b ∈ digits ∨ b = '0'.toUInt8 ∨ b = ' '.toUInt8 := by
  unfold cNumber field at h
  split_ifs at h <;> simp only [List.mem_append, List.mem_replicate] at h <;> tauto

/-- **Without zeros to put in, C pads with blanks.** -/
theorem cNumber_eq_field (h : ¬ (zero = true ∧ leftAlign = false ∧ (sign ++ digits).length < width)) :
    cNumber leftAlign zero width sign digits = field leftAlign (width - (sign ++ digits).length) (sign ++ digits) := by
  unfold cNumber
  split_ifs with hzero
  · have hwidth : width - (sign ++ digits).length = 0 := Nat.sub_eq_zero_of_le (Nat.not_lt.1 fun hlt => h ⟨hzero.1, hzero.2, hlt⟩)
    rw [hwidth, hzero.2]
    rfl
  · rfl

/-- **Where C puts zeros in, blanks differ.** -/
theorem field_differs_cNumber (hzero : zero = true) (hleft : leftAlign = false)
    (hwidth : (sign ++ digits).length < width) (hblank : ' '.toUInt8 ∉ sign ++ digits) :
    Differs (field leftAlign (width - (sign ++ digits).length) (sign ++ digits))
      (cNumber leftAlign zero width sign digits) := by
  obtain ⟨n, hn⟩ : ∃ n, width - (sign ++ digits).length = n + 1 := ⟨width - (sign ++ digits).length - 1, by omega⟩
  refine Differs.of_not_mem (p := 0) (a := ' '.toUInt8) (by rw [cNumber_length]; omega) ?_ ?_
  · rw [field, hleft, hn]
    rfl
  · rw [cNumber, if_pos ⟨hzero, hleft⟩]
    simp only [List.mem_append, List.mem_replicate, not_or] at hblank ⊢
    exact ⟨hblank.1, fun h => absurd h.2 (by decide), hblank.2⟩

theorem fieldPadding_eq {len : ℕ} (hwidth : width < 2147483648) : fieldPadding width len = width - len := by
  unfold fieldPadding
  split_ifs with hlt
  · rw [i32_of_bounds (by omega) (by omega)]
    omega
  · omega

theorem decimal_spec {n : ℕ} {b : UInt8} (h : b ∈ decimal n) : b ≠ ' '.toUInt8 ∧ b ≠ '-'.toUInt8 := by
  obtain ⟨d, hd, rfl⟩ := mem_numeral (by decide) h
  exact ⟨(decimalDigit_spec hd).2.2.1, (decimalDigit_spec hd).2.1⟩

theorem blank_not_mem_decimalText (value : ℤ) : ' '.toUInt8 ∉ signText value ++ decimal value.natAbs := by
  rw [List.mem_append, not_or]
  refine ⟨?_, fun h => (decimal_spec h).1 rfl⟩
  unfold signText
  split_ifs <;> decide

end Texts

/-! ### Directive by directive -/

/-- What `flopsnprintf` prints for an item is what C prints. -/
def CItem.Agrees (word : UInt32) : CItem → Prop
  | .text _ _ | .percent | .str _ _ | .chr _ _ => True
  | .int leftAlign zero width isSigned =>
    (isSigned = true ∨ word.toNat < 2 ^ 31) ∧
      ¬ (zero = true ∧ leftAlign = false ∧ (decimalText (toInt word.toNat)).length < width)
  | .hex leftAlign zero width _ isUpper =>
    word.toNat ≠ 0 ∧ (width ≤ (hexadecimal isUpper word.toNat).length ∨ zero = true ∧ leftAlign = false)

section Items

variable {args : VaList} {stack : ℕ → UInt8} {k width : ℕ} {leftAlign zero isSigned isUpper : Bool} {item : CItem}

theorem field_zero (text : List UInt8) : field leftAlign 0 text = text := by
  unfold field
  split_ifs
  · exact List.append_nil _
  · rfl

/-- `d` and `u` print the text of an `int`. -/
theorem int_piece (hwidth : width < 2147483648) :
    (CItem.int leftAlign zero width isSigned).printItem.piece args stack k =
      field leftAlign (width - (decimalText (toInt (args.word k).toNat)).length)
        (decimalText (toInt (args.word k).toNat)) := by
  rw [← fieldPadding_eq hwidth]
  cases isSigned <;> rfl

theorem signed_output :
    (CItem.int leftAlign zero width true).output args (args.word k) =
      cNumber leftAlign zero width (signText (toInt (args.word k).toNat)) (decimal (toInt (args.word k).toNat).natAbs) :=
  rfl

/-- Below `2 ^ 31` there is no difference between `d` and `u`. -/
theorem unsigned_output (hlt : (args.word k).toNat < 2 ^ 31) :
    (CItem.int leftAlign zero width false).output args (args.word k) =
      cNumber leftAlign zero width (signText (toInt (args.word k).toNat)) (decimal (toInt (args.word k).toNat).natAbs) := by
  rw [toInt_of_lt hlt, Int.natAbs_natCast, signText, if_neg (by omega)]
  rfl

/-- A number from `2 ^ 31` on is printed with a sign. -/
theorem unsigned_differs (hwidth : width < 2147483648) (hge : 2 ^ 31 ≤ (args.word k).toNat) :
    Differs ((CItem.int leftAlign zero width false).printItem.piece args stack k)
      ((CItem.int leftAlign zero width false).output args (args.word k)) := by
  have hword := (args.word k).toNat_lt
  have hneg : toInt (args.word k).toNat < 0 := by
    unfold toInt
    rw [if_neg (by omega)]
    omega
  have hout : (CItem.int leftAlign zero width false).output args (args.word k) =
      cNumber leftAlign zero width [] (decimal (args.word k).toNat) := rfl
  have hdigits : 0 < (decimal (args.word k).toNat).length := length_numeral_pos (by decide)
  have habs : 0 < (decimal (toInt (args.word k).toNat).natAbs).length := length_numeral_pos (by decide)
  have hminus : '-'.toUInt8 ∉ cNumber leftAlign zero width [] (decimal (args.word k).toNat) := by
    intro hmem
    obtain h | h | h | h := mem_cNumber hmem
    · exact absurd h List.not_mem_nil
    · exact (decimal_spec h).2 rfl
    · exact absurd h (by decide)
    · exact absurd h (by decide)
  have htext : decimalText (toInt (args.word k).toNat) =
      '-'.toUInt8 :: decimal (toInt (args.word k).toNat).natAbs := by
    rw [decimalText, if_pos hneg, List.singleton_append]
  rw [int_piece hwidth, hout, htext]
  -- the sign stands behind the blanks, where C has a digit or a blank
  refine Differs.of_not_mem
    (p := if leftAlign = true then 0 else
      width - ('-'.toUInt8 :: decimal (toInt (args.word k).toNat).natAbs).length) (a := '-'.toUInt8) ?_ ?_ hminus
  · rw [cNumber_length, List.nil_append, List.length_cons]
    split_ifs <;> omega
  · unfold field
    split_ifs
    · rfl
    · rw [List.getElem?_append_right (by rw [List.length_replicate]), List.length_replicate, Nat.sub_self]
      rfl

/-- `x` prints zeros in front of the digits. -/
theorem hex_piece {h : width ≤ 8} (hne : (args.word k).toNat ≠ 0) :
    (CItem.hex leftAlign zero width h isUpper).printItem.piece args stack k =
      List.replicate (width - (hexadecimal isUpper (args.word k).toNat).length) '0'.toUInt8 ++
        hexadecimal isUpper (args.word k).toNat := by
  have htext : hexText (stack k) (args.word k).toNat width isUpper =
      List.replicate (width - (hexadecimal isUpper (args.word k).toNat).length) '0'.toUInt8 ++
        hexadecimal isUpper (args.word k).toNat := by
    rw [hexText, if_neg hne, Int.toNat_sub]
  have hlen : fieldPadding width (hexText (stack k) (args.word k).toNat width isUpper).length = 0 := by
    rw [fieldPadding_eq (by omega), htext, List.length_append, List.length_replicate]
    omega
  change field leftAlign (fieldPadding width (hexText (stack k) (args.word k).toNat width isUpper).length) _ = _
  rw [hlen, field_zero, htext]

theorem hexDigit_spec {d : ℕ} (hd : d < 16) : hexDigit isUpper d ≠ 0 ∧ (0 < d → hexDigit isUpper d ≠ '0'.toUInt8) := by
  revert d isUpper
  decide

/-- The byte in front of the zeros of `0` was never written. -/
theorem hex_zero_differs {h : width ≤ 8} (hzero : (args.word k).toNat = 0) :
    Differs ((CItem.hex leftAlign zero width h isUpper).printItem.piece args (fun _ => 0) k)
      ((CItem.hex leftAlign zero width h isUpper).output args (args.word k)) := by
  have hlen : fieldPadding width (hexText 0 (args.word k).toNat width isUpper).length = 0 := by
    rw [fieldPadding_eq (by omega), hexText, if_pos hzero, List.length_cons, List.length_replicate]
    omega
  have hpiece : (CItem.hex leftAlign zero width h isUpper).printItem.piece args (fun _ => 0) k =
      0 :: List.replicate width '0'.toUInt8 := by
    change field leftAlign (fieldPadding width (hexText 0 (args.word k).toNat width isUpper).length) _ = _
    rw [hlen, field_zero, hexText, if_pos hzero, Int.toNat_natCast]
  have hout : (CItem.hex leftAlign zero width h isUpper).output args (args.word k) =
      cNumber leftAlign zero width [] (hexadecimal isUpper (args.word k).toNat) := rfl
  have hdigits : 0 < (hexadecimal isUpper (args.word k).toNat).length := length_numeral_pos (by decide)
  rw [hpiece, hout]
  refine Differs.of_not_mem (p := 0) (a := 0) (by rw [cNumber_length, List.nil_append]; omega) rfl fun hmem => ?_
  obtain hmem | hmem | hmem | hmem := mem_cNumber hmem
  · exact absurd hmem List.not_mem_nil
  · obtain ⟨d, hd, heq⟩ := mem_numeral (by decide) hmem
    exact (hexDigit_spec hd).1 heq.symm
  · exact absurd hmem (by decide)
  · exact absurd hmem (by decide)

/-- Where C puts blanks, in front or behind, zeros in front differ. -/
theorem hex_width_differs {h : width ≤ 8} (hne : (args.word k).toNat ≠ 0)
    (hwidth : (hexadecimal isUpper (args.word k).toNat).length < width) (hblanks : ¬ (zero = true ∧ leftAlign = false)) :
    Differs ((CItem.hex leftAlign zero width h isUpper).printItem.piece args stack k)
      ((CItem.hex leftAlign zero width h isUpper).output args (args.word k)) := by
  obtain ⟨n, hn⟩ : ∃ n, width - (hexadecimal isUpper (args.word k).toNat).length = n + 1 :=
    ⟨width - (hexadecimal isUpper (args.word k).toNat).length - 1, by omega⟩
  obtain ⟨d, rest, hpos, hd, hdigits⟩ :
      ∃ d rest, 0 < d ∧ d < 16 ∧ hexadecimal isUpper (args.word k).toNat = hexDigit isUpper d :: rest :=
    head_numeral (by decide) (Nat.pos_of_ne_zero hne)
  have hout : (CItem.hex leftAlign zero width h isUpper).output args (args.word k) =
      field leftAlign (n + 1) (hexadecimal isUpper (args.word k).toNat) := by
    change cNumber leftAlign zero width [] (hexadecimal isUpper (args.word k).toNat) = _
    rw [cNumber, if_neg hblanks, List.nil_append, hn]
  rw [hex_piece hne, hn, hout]
  refine ⟨0, '0'.toUInt8, by rw [field_length]; omega, rfl, ?_⟩
  unfold field
  split_ifs
  · rw [hdigits, List.cons_append, List.getElem?_cons_zero]
    exact fun heq => (hexDigit_spec hd).2 hpos (Option.some.inj heq)
  · rw [List.replicate_succ, List.cons_append, List.getElem?_cons_zero]
    decide

/-- `%d`, and `%u` of a word that is not negative as an `int`. -/
theorem int_output {leftAlign zero isSigned : Bool} {width : ℕ} (hsigned : isSigned = true ∨ (args.word k).toNat < 2 ^ 31) :
    (CItem.int leftAlign zero width isSigned).output args (args.word k) =
      cNumber leftAlign zero width (signText (toInt (args.word k).toNat)) (decimal (toInt (args.word k).toNat).natAbs) := by
  cases isSigned with
  | true => exact signed_output
  | false => exact unsigned_output (hsigned.resolve_left Bool.false_ne_true)

/-- **Where an item agrees, its piece is what C prints.** -/
theorem CItem.piece_eq_output (hout : (item.output args (args.word k)).length < 2147483648)
    (h : item.Agrees (args.word k)) :
    item.printItem.piece args stack k = item.output args (args.word k) := by
  cases item with
  | text c hc => rfl
  | percent => rfl
  | int leftAlign zero width isSigned =>
    obtain ⟨hsigned, hzero⟩ := h
    rw [int_output hsigned, cNumber_length] at hout
    rw [int_piece (by omega), int_output hsigned]
    exact (cNumber_eq_field hzero).symm
  | hex leftAlign zero width hw isUpper =>
    obtain ⟨hne, hwidth⟩ := h
    rw [hex_piece hne]
    change _ = cNumber leftAlign zero width [] (hexadecimal isUpper (args.word k).toNat)
    rcases hwidth with hwidth | hzero
    · rw [cNumber_eq_field (fun hlt => Nat.not_lt.2 hwidth hlt.2.2), List.nil_append, Nat.sub_eq_zero_of_le hwidth,
        field_zero]
      rfl
    · rw [cNumber, if_pos hzero]
      rfl
  | str leftAlign width =>
    have hlen : (CItem.str leftAlign width).output args (args.word k) =
        field leftAlign (width - (args.str (args.word k)).length) ((args.str (args.word k)).map Subtype.val) := rfl
    rw [hlen, field_length, List.length_map] at hout
    rw [hlen, ← fieldPadding_eq (by omega)]
    change field leftAlign (fieldPadding width (i32 (args.str (args.word k)).length)) _ = _
    rw [i32_of_lt (by omega)]
  | chr leftAlign width =>
    have hlen : (CItem.chr leftAlign width).output args (args.word k) =
        field leftAlign (width - 1) [(args.word k).toUInt8] := rfl
    rw [hlen, field_length, List.length_singleton] at hout
    rw [hlen, ← fieldPadding_eq (by omega)]
    rfl

/-- **Where it does not, the texts differ.** -/
theorem CItem.piece_differs (hout : (item.output args (args.word k)).length < 2147483648)
    (h : ¬ item.Agrees (args.word k)) :
    Differs (item.printItem.piece args (fun _ => 0) k) (item.output args (args.word k)) := by
  cases item with
  | text c hc => exact absurd trivial h
  | percent => exact absurd trivial h
  | int leftAlign zero width isSigned =>
    have hwidth : width < 2147483648 := by
      refine Nat.lt_of_le_of_lt ?_ hout
      cases isSigned <;> exact Nat.le_trans (Nat.le_max_left _ _) cNumber_length.ge
    by_cases hsigned : isSigned = true ∨ (args.word k).toNat < 2 ^ 31
    · obtain ⟨hzero, hleft, hlt⟩ := Classical.not_not.1 fun hnot => h ⟨hsigned, hnot⟩
      rw [int_piece hwidth, int_output hsigned]
      exact field_differs_cNumber hzero hleft hlt (blank_not_mem_decimalText _)
    · obtain ⟨hunsigned, hge⟩ := not_or.1 hsigned
      rw [Bool.eq_false_of_not_eq_true hunsigned]
      exact unsigned_differs hwidth (Nat.not_lt.1 hge)
  | hex leftAlign zero width hw isUpper =>
    by_cases hzero : (args.word k).toNat = 0
    · exact hex_zero_differs hzero
    · obtain ⟨hwidth, hblanks⟩ := not_or.1 fun hor => h ⟨hzero, hor⟩
      exact hex_width_differs hzero (Nat.not_le.1 hwidth) hblanks
  | str leftAlign width => exact absurd trivial h
  | chr leftAlign width => exact absurd trivial h

/-- An item is safe where C's text has room. -/
theorem CItem.printItem_safe {room : ℕ} (hout : (item.output args (args.word k)).length < 2147483648)
    (hroom : (item.output args (args.word k)).length ≤ room) : item.printItem.Safe room := by
  cases item with
  | text c hc => trivial
  | percent => trivial
  | int leftAlign zero width isSigned => cases isSigned <;> trivial
  | hex leftAlign zero width hw isUpper => exact (show (width : ℤ) ≤ 9 by omega)
  | str leftAlign width => trivial
  | chr leftAlign width =>
    change (field leftAlign (width - 1) [(args.word k).toUInt8]).length < _ at hout
    change (field leftAlign (width - 1) [(args.word k).toUInt8]).length ≤ _ at hroom
    rw [field_length, List.length_singleton] at hout hroom
    have hpadding : fieldPadding width (1 : ℕ) = width - 1 := fieldPadding_eq (by omega)
    exact .inr (show fieldPadding width (1 : ℕ) < room by omega)

/-- The text of an item is as long as its width. -/
theorem CItem.width_le_output (word : UInt32) : item.width ≤ (item.output args word).length := by
  cases item with
  | text c hc => exact Nat.zero_le _
  | percent => exact Nat.zero_le _
  | int leftAlign zero width isSigned =>
    cases isSigned <;> exact Nat.le_trans (Nat.le_max_left _ _) cNumber_length.ge
  | hex leftAlign zero width hw isUpper => exact Nat.le_trans (Nat.le_max_left _ _) cNumber_length.ge
  | str leftAlign width =>
    change width ≤ (field leftAlign (width - (args.str word).length) ((args.str word).map Subtype.val)).length
    rw [field_length, List.length_map]
    omega
  | chr leftAlign width =>
    change width ≤ (field leftAlign (width - 1) [word.toUInt8]).length
    rw [field_length, List.length_singleton]
    omega

end Items

/-! ### Whole formats -/

/-- Every item agrees. -/
def AgreesFrom (args : VaList) : ℕ → List CItem → Prop
  | _, [] => True
  | k, item :: items => item.Agrees (args.word k) ∧ AgreesFrom args (k + item.printItem.args) items

/-- `flopsnprintf` prints and returns what C defines, whatever was in its temporaries before. -/
def PrintsAsC (size : ℕ) (args : VaList) (items : List CItem) : Prop :=
  ∀ stack, flopsnprintf size args stack (render items) =
    .ok (cOutput args 0 items, ((cOutput args 0 items).length : ℤ))

section Formats

variable {size k : ℕ} {args : VaList} {stack : ℕ → UInt8} {items : List CItem} {printItems : List PrintItem}
  {out rest : List UInt8}

theorem width_le_cOutput {item : CItem} (h : item ∈ items) : item.width ≤ (cOutput args k items).length := by
  induction items generalizing k with
  | nil => exact absurd h List.not_mem_nil
  | cons first items ih =>
    rw [cOutput, List.length_append]
    rcases List.mem_cons.1 h with rfl | h
    · exact Nat.le_trans (CItem.width_le_output _) (Nat.le_add_right _ _)
    · exact Nat.le_trans (ih h) (Nat.le_add_left _ _)

/-- A run only goes on behind what is printed. -/
theorem runItems_extends (h : runItems size args stack k printItems out = .ok rest) : out <+: rest := by
  induction printItems generalizing k out with
  | nil => exact Except.ok.inj h ▸ List.prefix_refl _
  | cons item items ih =>
    rw [runItems] at h
    split_ifs at h with hfull
    · exact Except.ok.inj h ▸ List.prefix_refl _
    · have hroom : out.length < size - 1 := Nat.not_le.1 hfull
      by_cases hsafe : item.Safe (size - 1 - out.length)
      · rw [PrintItem.run_safe hroom hsafe, ok_bind] at h
        exact (List.prefix_append _ _).trans (ih h)
      · obtain ⟨fault, hrun⟩ | ⟨more, hrun, -⟩ :
            (∃ fault, item.run size args stack k out = .error fault) ∨
              ∃ more, item.run size args stack k out = .ok (out ++ more) ∧ (out ++ more).length = size :=
          PrintItem.run_overruns hroom hsafe
        · rw [hrun, error_bind] at h
          cases h
        · rw [hrun, ok_bind] at h
          exact (List.prefix_append _ _).trans (ih h)

/-- An empty text leaves nothing to differ in. -/
theorem agreesFrom_of_nil (h : cOutput args k items = []) : AgreesFrom args k items := by
  induction items generalizing k with
  | nil => trivial
  | cons item items ih =>
    rw [cOutput, List.append_eq_nil_iff] at h
    refine ⟨Classical.not_not.1 fun hnot => ?_, ih h.2⟩
    obtain ⟨p, -, hp, -⟩ := CItem.piece_differs (by rw [h.1]; decide) hnot
    rw [h.1] at hp
    exact Nat.not_lt_zero p hp

/-- **A run prints what C prints exactly if every item agrees.** -/
theorem runItems_c_iff (hroom : out.length + (cOutput args k items).length ≤ size - 1)
    (hint : (cOutput args k items).length < 2147483648) :
    (∀ stack, runItems size args stack k (items.map CItem.printItem) out = .ok (out ++ cOutput args k items)) ↔
      AgreesFrom args k items := by
  induction items generalizing k out with
  | nil => exact iff_of_true (fun _ => congrArg Except.ok (List.append_nil out).symm) trivial
  | cons item items ih =>
    rcases Nat.lt_or_ge out.length (size - 1) with hlt | hge
    · rw [cOutput, List.length_append] at hroom hint
      have hlen : (item.output args (args.word k)).length < 2147483648 := by omega
      have hsafe : item.printItem.Safe (size - 1 - out.length) := CItem.printItem_safe hlen (by omega)
      have hrun : ∀ stack, runItems size args stack k ((item :: items).map CItem.printItem) out =
          runItems size args stack (k + item.printItem.args) (items.map CItem.printItem)
            (out ++ (item.printItem.piece args stack k).take (size - 1 - out.length)) := by
        intro stack
        rw [List.map_cons, runItems, if_neg (Nat.not_le.2 hlt), PrintItem.run_safe hlt hsafe, ok_bind]
      by_cases hagrees : item.Agrees (args.word k)
      · have hpiece : ∀ stack, out ++ (item.printItem.piece args stack k).take (size - 1 - out.length) =
            out ++ item.output args (args.word k) := by
          intro stack
          rw [CItem.piece_eq_output hlen hagrees, List.take_of_length_le (by omega)]
        have hrest : (∀ stack, runItems size args stack (k + item.printItem.args) (items.map CItem.printItem)
            (out ++ item.output args (args.word k)) = .ok (out ++ item.output args (args.word k) ++
              cOutput args (k + item.printItem.args) items)) ↔ AgreesFrom args (k + item.printItem.args) items :=
          ih (by rw [List.length_append]; omega) (by omega)
        simp only [hrun, hpiece, cOutput, ← List.append_assoc]
        exact hrest.trans (and_iff_right hagrees).symm
      · refine iff_of_false (fun hall => ?_) fun h => hagrees h.1
        have hfirst := hall fun _ => 0
        rw [hrun, cOutput] at hfirst
        exact (CItem.piece_differs hlen hagrees).not_extended (by omega)
          ((List.prefix_append_right_inj out).1 (runItems_extends hfirst))
    · have hnil : cOutput args k (item :: items) = [] := List.length_eq_zero_iff.1 (by omega)
      refine iff_of_true (fun _ => ?_) (agreesFrom_of_nil hnil)
      rw [runItems_of_le hge, hnil, List.append_nil]

theorem length_le_render (items : List CItem) : items.length ≤ (render items).length := by
  induction items with
  | nil => exact Nat.le_refl 0
  | cons item items ih =>
    obtain ⟨b, bytes, hrender, hb⟩ : ∃ b bytes, item.render = b :: bytes ∧ b ≠ 0 := by
      cases item with
      | text c h => exact ⟨c.1, [], rfl, c.2⟩
      | percent | int | hex | str | chr => exact ⟨_, _, rfl, by decide⟩
    unfold render at ih ⊢
    rw [List.flatMap_cons, hrender, List.cons_append, ofBytes_cons hb, ofBytes_append, List.length_cons,
      List.length_cons, List.length_append]
    omega

theorem flopvsnprintf_eq_ok {format : CString} {n : ℤ} (h : flopvsnprintf size args stack format = .ok (out, n)) :
    flopvsnprintfFrom size args stack format.length 0 format [] = .ok out := by
  unfold flopvsnprintf at h
  cases hfrom : flopvsnprintfFrom size args stack format.length 0 format [] with
  | error fault =>
    rw [hfrom, error_bind] at h
    cases h
  | ok text =>
    rw [hfrom, ok_bind] at h
    rcases Nat.lt_or_ge text.length size with hlt | hge
    · rw [terminate_of_lt hlt, ok_bind] at h
      exact congrArg Except.ok (Prod.mk.inj (Except.ok.inj h)).1
    · rw [terminate_of_le hge, error_bind] at h
      cases h

/-- **Where the result fits, printing is C's exactly if every item agrees.** -/
theorem flopsnprintf_c_iff (hroom : (cOutput args 0 items).length < size)
    (hint : (cOutput args 0 items).length < 2 ^ 31) :
    PrintsAsC size args items ↔ AgreesFrom args 0 items := by
  have hread : itemsFrom (render items).length (render items) = items.map CItem.printItem :=
    itemsFrom_render (fun item hitem => Nat.lt_of_le_of_lt (width_le_cOutput hitem) hint) (length_le_render items)
  have hruns : (∀ stack, runItems size args stack 0 (items.map CItem.printItem) [] = .ok ([] ++ cOutput args 0 items)) ↔
      AgreesFrom args 0 items :=
    runItems_c_iff (by rw [List.length_nil]; omega) hint
  rw [← hruns, List.nil_append, ← hread]
  refine forall_congr' fun stack => ?_
  rw [flopsnprintf, ← flopvsnprintfFrom_eq le_rfl]
  constructor
  · exact flopvsnprintf_eq_ok
  · intro hfrom
    rw [flopvsnprintf, hfrom, ok_bind, terminate_of_lt hroom, ok_bind, i32_of_lt hint]
    rfl

end Formats

/-- The format of a time. -/
def timeItems : List CItem :=
  [.int false true 2 true, .text ⟨':'.toUInt8, by decide⟩ (by decide), .int false true 2 true]

example : render timeItems = ascii "%02d:%02d" := by decide

theorem time_printsAsC : PrintsAsC 6 (numbers [23, 59]) timeItems :=
  (flopsnprintf_c_iff (by decide +kernel) (by decide +kernel)).2
    ⟨⟨.inl rfl, by decide +kernel⟩, trivial, ⟨.inl rfl, by decide +kernel⟩, trivial⟩

/-- `time_to_string` of the fifth minute: a blank in place of the zero. -/
theorem time_not_printsAsC : ¬ PrintsAsC 6 (numbers [23, 5]) timeItems := by
  intro h
  have hprinted : flopsnprintf 6 (numbers [23, 5]) (fun _ => 0) (render timeItems) =
      .ok ("23: 5".toList.map Char.toUInt8, 5) := by decide +kernel
  have hdefined : cOutput (numbers [23, 5]) 0 timeItems = "23:05".toList.map Char.toUInt8 := by decide +kernel
  have htexts := (Prod.mk.inj (Except.ok.inj ((h fun _ => 0).symm.trans hprinted))).1
  rw [hdefined] at htexts
  exact absurd htexts (by decide)

end Flopperating
