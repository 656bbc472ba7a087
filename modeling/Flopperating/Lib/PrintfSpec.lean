/-
# What a format prints

The format is a list of items: bytes to copy and directives.  An item has a
piece of text, and a run of the interpreter puts the pieces one behind the
other for as long as there is room.  The last place of the buffer is for the
`NUL`, and an item is safe where it keeps to the room in front of it:

| item | safe where |
| --- | --- |
| a byte, `%%`, `%d`, `%u`, `%s`, `%-c` | always |
| `%x`, `%X`, `%p` | the width is not more than the `9` places of `temp` |
| `%c` | there is room for the padding and the character |
| an unknown conversion | there is room for two bytes |
| a directive that the terminator cuts off | never |
-/

import Flopperating.Data.Numeral
import Flopperating.Lib.Printf

namespace Flopperating

open BoundedBuffer Numeral

/-! ### Numbers -/

/-- The decimal numeral. -/
def decimal (n : ℕ) : List UInt8 := numeral 10 decimalDigit n

/-- The hexadecimal numeral. -/
def hexadecimal (isUpper : Bool) (n : ℕ) : List UInt8 := numeral 16 (hexDigit isUpper) n

/-- What `flopitoa` writes. -/
def decimalText (value : ℤ) : List UInt8 := (if value < 0 then ['-'.toUInt8] else []) ++ decimal value.natAbs

/-- What `flopitoa_hex` writes. -/
def hexText (garbage : UInt8) (value : ℕ) (width : ℤ) (isUpper : Bool) : List UInt8 :=
  if value = 0 then garbage :: List.replicate width.toNat '0'.toUInt8
  else List.replicate (width - (hexadecimal isUpper value).length).toNat '0'.toUInt8 ++ hexadecimal isUpper value

theorem digitLoop_eq {base cap steps value : ℕ} {digit : ℕ → UInt8} {temp : List UInt8} (hbase : 2 ≤ base)
    (hsteps : 0 < steps) (hvalue : value < base ^ steps)
    (hcap : temp.length + (numeral base digit value).length ≤ cap) :
    digitLoop base digit cap steps value temp = .ok (temp ++ (numeral base digit value).reverse) := by
  induction steps generalizing value temp with
  | zero => exact absurd hsteps (Nat.lt_irrefl 0)
  | succ steps ih =>
    have hroom : temp.length < cap := by
      have : 0 < (numeral base digit value).length := length_numeral_pos hbase
      omega
    rw [digitLoop, push_of_lt hroom, ok_bind]
    rcases Nat.lt_or_ge value base with hlt | hge
    · rw [if_pos (Nat.div_eq_of_lt hlt), numeral_of_lt hlt, Nat.mod_eq_of_lt hlt, List.reverse_singleton]
      rfl
    · have hquot : value / base ≠ 0 := (Nat.div_pos hge (Nat.zero_lt_of_lt hbase)).ne'
      have hlow : value / base < base ^ steps := Nat.div_lt_of_lt_mul (by rwa [← Nat.pow_succ'])
      have hmore : 0 < steps := by
        refine Nat.pos_of_ne_zero fun hzero => hquot ?_
        rw [hzero, Nat.pow_zero] at hlow
        exact Nat.lt_one_iff.1 hlow
      rw [numeral_of_le hbase hge, List.length_append, List.length_singleton] at hcap
      rw [if_neg hquot, numeral_of_le hbase hge, List.reverse_append, List.reverse_singleton,
        ih hmore hlow (by rw [List.length_append, List.length_singleton]; omega), List.append_assoc]

theorem terminate_of_lt {cap : ℕ} {e : PrintFault} {a : List UInt8} (h : a.length < cap) : terminate cap e a = .ok a := by
  rw [terminate, push_of_lt h]
  rfl

theorem terminate_of_le {cap : ℕ} {e : PrintFault} {a : List UInt8} (h : cap ≤ a.length) :
    terminate cap e a = .error e := by
  rw [terminate, push_of_le h]
  rfl

theorem toInt_bounds (word : UInt32) : -2147483648 ≤ toInt word.toNat ∧ toInt word.toNat < 2147483648 := by
  have := word.toNat_lt
  unfold toInt
  split_ifs <;> omega

theorem decimal_length_le {value : ℤ} (hlow : -2147483648 ≤ value) (hhigh : value < 2147483648) :
    (decimal value.natAbs).length ≤ 10 :=
  length_numeral_le (by decide) (by decide) (by omega)

theorem hexadecimal_length_le {isUpper : Bool} {value : ℕ} (hvalue : value < 2 ^ 32) :
    (hexadecimal isUpper value).length ≤ 8 :=
  length_numeral_le (by decide) (by decide) hvalue

/-- **`flopitoa` writes the decimal numeral of every `int`.** -/
theorem flopitoa_eq {value : ℤ} (hlow : -2147483648 ≤ value) (hhigh : value < 2147483648) :
    flopitoa 12 value 0 = .ok (decimalText value) := by
  unfold flopitoa
  by_cases hmin : value = -2147483648
  · rw [hmin]
    decide +kernel
  · have hlen := decimal_length_le hlow hhigh
    have hpos : 0 < (decimal value.natAbs).length := length_numeral_pos (by decide)
    have hloop : digitLoop 10 decimalDigit 12 digitSteps value.natAbs [] = .ok (decimal value.natAbs).reverse :=
      digitLoop_eq (by decide) (by decide) (show value.natAbs < 10 ^ 32 by omega)
        (Nat.le_trans (Nat.zero_add _).le (Nat.le_trans hlen (by decide)))
    have hsign : (if value < 0 then ['-'.toUInt8] else []).length ≤ 1 := by split_ifs <;> decide
    have hpadding : (0 - ((decimal value.natAbs).reverse.length : ℤ) - if value < 0 then 1 else 0).toNat = 0 := by
      rw [List.length_reverse]
      split_ifs <;> omega
    rw [if_neg hmin, hloop, ok_bind]
    simp only [hpadding, List.replicate_zero]
    rw [pushAll_of_le (by simp only [List.length_reverse, List.length_nil]; omega), ok_bind, List.append_nil,
      List.reverse_reverse, pushAll_of_le (by simp only [List.length_nil]; omega), ok_bind, List.nil_append,
      pushAll_of_le (by omega), ok_bind, terminate_of_lt (by rw [List.length_append]; omega)]
    rfl

section Hex

variable {cap value : ℕ} {garbage : UInt8} {width : ℤ} {isUpper : Bool}

/-- What `flopitoa_hex` has in `temp` for the digits. -/
theorem hexDigits_eq (hvalue : value < 2 ^ 32) :
    (if value = 0 then pure [] else digitLoop 16 (hexDigit isUpper) 9 digitSteps value []) =
      Except.ok (if value = 0 then [] else (hexadecimal isUpper value).reverse) := by
  split_ifs with hzero
  · rfl
  · exact digitLoop_eq (by decide) (by decide) (show value < 16 ^ 32 by omega)
      (Nat.le_trans (Nat.zero_add _).le (Nat.le_trans (hexadecimal_length_le hvalue) (by decide)))

/-- **Up to `9` places fit into `temp`.** -/
theorem flopitoaHex_eq (hcap : 12 ≤ cap) (hvalue : value < 2 ^ 32) (hwidth : width ≤ 9) :
    flopitoaHex cap garbage value width isUpper = .ok (hexText garbage value width isUpper) := by
  have hlen : (hexadecimal isUpper value).length ≤ 8 := hexadecimal_length_le hvalue
  unfold flopitoaHex
  rw [hexDigits_eq hvalue, ok_bind]
  unfold hexText
  split_ifs with hzero
  · rw [pushAll_of_le (by simp only [List.length_nil, List.length_replicate]; omega), ok_bind, List.nil_append,
      List.reverse_replicate, List.length_nil, Nat.cast_zero, Int.sub_zero,
      pushAll_of_le (by simp only [List.length_singleton, List.length_replicate]; omega), ok_bind,
      terminate_of_lt (by simp only [List.length_append, List.length_singleton, List.length_replicate]; omega)]
    rfl
  · rw [List.length_reverse, pushAll_of_le (by simp only [List.length_reverse, List.length_replicate]; omega), ok_bind,
      List.reverse_append, List.reverse_reverse, List.reverse_replicate,
      pushAll_of_le (by simp only [List.length_nil, List.length_append, List.length_replicate]; omega), ok_bind,
      List.nil_append, terminate_of_lt (by simp only [List.length_append, List.length_replicate]; omega)]

/-- **More than `9` places do not.** -/
theorem flopitoaHex_wide (hvalue : value < 2 ^ 32) (hwidth : 9 < width) :
    flopitoaHex cap garbage value width isUpper = .error .temp := by
  have hlen : (hexadecimal isUpper value).length ≤ 8 := hexadecimal_length_le hvalue
  have hdigits : (if value = 0 then [] else (hexadecimal isUpper value).reverse).length ≤ 8 := by
    split_ifs
    · exact Nat.zero_le _
    · rwa [List.length_reverse]
  unfold flopitoaHex
  rw [hexDigits_eq hvalue, ok_bind, pushAll_of_lt (by omega) (by rw [List.length_replicate]; omega), error_bind]

end Hex

/-! ### Items -/

/-- What stands in a format. -/
inductive PrintItem
  | char (byte : UInt8)
  | directive (leftAlign : Bool) (width : ℤ) (conv : Conv)
  | cut
  deriving DecidableEq

/-- The number of arguments that an item takes. -/
def PrintItem.args : PrintItem → ℕ
  | .directive _ _ conv => conv.args
  | .char _ | .cut => 0

/-- The items of a format. -/
def itemsFrom : ℕ → CString → List PrintItem
  | _, [] => []
  | 0, _ :: _ => []
  | steps + 1, ch :: rest =>
    if ch.1 = '%'.toUInt8 ∧ rest ≠ [] then
      let (leftAlign, rest) := readFlag rest
      let (width, rest) := readWidth rest 0
      match rest with
      | [] => [.cut]
      | byte :: rest => .directive leftAlign width (convOf byte.1) :: itemsFrom steps rest
    else .char ch.1 :: itemsFrom steps rest

/-- The items of a format. -/
def printItems (format : CString) : List PrintItem := itemsFrom format.length format

/-- A turn of the loop of `flopvsnprintf`. -/
def PrintItem.run (size : ℕ) (args : VaList) (stack : ℕ → UInt8) (k : ℕ) (out : List UInt8) :
    PrintItem → Except PrintFault (List UInt8)
  | .char byte => push size .buffer out byte
  | .directive leftAlign width conv => convert size args (args.word k) (stack k) leftAlign width out conv
  | .cut => do
    let out ← push size .buffer out '%'.toUInt8
    let _ ← push size .buffer out 0
    .error .format

/-- The loop of `flopvsnprintf` over the items. -/
def runItems (size : ℕ) (args : VaList) (stack : ℕ → UInt8) :
    ℕ → List PrintItem → List UInt8 → Except PrintFault (List UInt8)
  | _, [], out => .ok out
  | k, item :: items, out =>
    if size - 1 ≤ out.length then .ok out
    else item.run size args stack k out >>= runItems size args stack (k + item.args) items

section Loop

variable {size k steps : ℕ} {args : VaList} {stack : ℕ → UInt8} {out : List UInt8}

theorem readFlag_length_le (s : CString) : (readFlag s).2.length ≤ s.length := by
  cases s with
  | nil => exact Nat.le_refl 0
  | cons c rest =>
    rw [readFlag]
    split_ifs
    · exact Nat.le_succ _
    · exact Nat.le_refl _

theorem readWidth_length_le (s : CString) (width : ℤ) : (readWidth s width).2.length ≤ s.length := by
  induction s generalizing width with
  | nil => exact Nat.le_refl 0
  | cons c rest ih =>
    rw [readWidth]
    split_ifs
    · exact Nat.le_trans (ih _) (Nat.le_succ _)
    · exact Nat.le_refl _

theorem runItems_of_le {items : List PrintItem} (h : size - 1 ≤ out.length) :
    runItems size args stack k items out = .ok out := by
  cases items with
  | nil => rfl
  | cons item items => exact if_pos h

/-- **The loop goes through the items.** -/
theorem flopvsnprintfFrom_eq {format : CString} (hsteps : format.length ≤ steps) :
    flopvsnprintfFrom size args stack steps k format out = runItems size args stack k (itemsFrom steps format) out := by
  induction steps generalizing format k out with
  | zero =>
    rw [List.length_eq_zero_iff.1 (Nat.le_zero.1 hsteps)]
    rfl
  | succ steps ih =>
    rcases format with - | ⟨ch, rest⟩
    · rfl
    · rw [List.length_cons, Nat.add_le_add_iff_right] at hsteps
      rw [flopvsnprintfFrom, itemsFrom]
      by_cases hfull : size - 1 ≤ out.length
      · rw [if_pos hfull, runItems_of_le hfull]
      · rw [if_neg hfull]
        by_cases hdirective : ch.1 = '%'.toUInt8 ∧ rest ≠ []
        · have hflag := readFlag_length_le rest
          have hwidth := readWidth_length_le (readFlag rest).2 0
          rw [if_pos hdirective, if_pos hdirective]
          rcases hflagged : readFlag rest with ⟨leftAlign, rest₁⟩
          rw [hflagged] at hflag hwidth
          rcases hread : readWidth rest₁ 0 with ⟨width, - | ⟨byte, rest₂⟩⟩
          · simp only [hread]
            rw [runItems, if_neg hfull, PrintItem.run, bind_assoc]
            refine bind_congr fun out => ?_
            rw [bind_assoc]
            exact bind_congr fun _ => rfl
          · simp only [hread, List.length_cons] at hflag hwidth ⊢
            rw [runItems, if_neg hfull]
            exact bind_congr fun out => ih (by omega)
        · rw [if_neg hdirective, if_neg hdirective, runItems, if_neg hfull]
          exact bind_congr fun out => ih hsteps

end Loop

/-! ### Pieces -/

/-- The padding of a field on its side. -/
def field (leftAlign : Bool) (padding : ℕ) (chars : List UInt8) : List UInt8 :=
  if leftAlign then chars ++ List.replicate padding ' '.toUInt8 else List.replicate padding ' '.toUInt8 ++ chars

/-- The text of a directive. -/
def Conv.piece (args : VaList) (word : UInt32) (garbage : UInt8) (leftAlign : Bool) (width : ℤ) : Conv → List UInt8
  | .d | .u =>
    let temp := decimalText (toInt word.toNat)
    field leftAlign (fieldPadding width temp.length) temp
  | .x isUpper =>
    let temp := hexText garbage word.toNat width isUpper
    field leftAlign (fieldPadding width temp.length) temp
  | .p =>
    let temp := hexText garbage word.toNat width false
    field leftAlign (fieldPadding width temp.length) temp
  | .s => field leftAlign (fieldPadding width (i32 (args.str word).length)) ((args.str word).map Subtype.val)
  | .c => field leftAlign (fieldPadding width 1) [word.toUInt8]
  | .percent => ['%'.toUInt8]
  | .default byte => ['%'.toUInt8, byte]

/-- The text of an item. -/
def PrintItem.piece (args : VaList) (stack : ℕ → UInt8) (k : ℕ) : PrintItem → List UInt8
  | .char byte => [byte]
  | .directive leftAlign width conv => conv.piece args (args.word k) (stack k) leftAlign width
  | .cut => ['%'.toUInt8, 0]

/-- The text of all items. -/
def pieces (args : VaList) (stack : ℕ → UInt8) : ℕ → List PrintItem → List UInt8
  | _, [] => []
  | k, item :: items => item.piece args stack k ++ pieces args stack (k + item.args) items

/-- A directive keeps to `room` places. -/
def Conv.Safe (room : ℕ) (leftAlign : Bool) (width : ℤ) : Conv → Prop
  | .d | .u | .s | .percent => True
  | .x _ | .p => width ≤ 9
  | .c => leftAlign = true ∨ fieldPadding width 1 < room
  | .default _ => 2 ≤ room

instance (room : ℕ) (leftAlign : Bool) (width : ℤ) : (conv : Conv) → Decidable (conv.Safe room leftAlign width)
  | .d | .u | .s | .percent => inferInstanceAs (Decidable True)
  | .x _ | .p => inferInstanceAs (Decidable (width ≤ 9))
  | .c => inferInstanceAs (Decidable (leftAlign = true ∨ fieldPadding width 1 < room))
  | .default _ => inferInstanceAs (Decidable (2 ≤ room))

/-- An item keeps to `room` places. -/
def PrintItem.Safe (room : ℕ) : PrintItem → Prop
  | .char _ => True
  | .directive leftAlign width conv => conv.Safe room leftAlign width
  | .cut => False

instance (room : ℕ) : (item : PrintItem) → Decidable (item.Safe room)
  | .char _ => inferInstanceAs (Decidable True)
  | .directive leftAlign width conv => inferInstanceAs (Decidable (conv.Safe room leftAlign width))
  | .cut => inferInstanceAs (Decidable False)

/-- Every item that the loop comes to keeps to the room that is left. -/
def ItemsSafe (args : VaList) (stack : ℕ → UInt8) : ℕ → ℕ → List PrintItem → Prop
  | _, _, [] => True
  | k, room, item :: items =>
    room = 0 ∨ item.Safe room ∧
      ItemsSafe args stack (k + item.args) (room - (item.piece args stack k).length) items

instance decidableItemsSafe (args : VaList) (stack : ℕ → UInt8) :
    (k room : ℕ) → (items : List PrintItem) → Decidable (ItemsSafe args stack k room items)
  | _, _, [] => inferInstanceAs (Decidable True)
  | k, room, item :: items =>
    have := decidableItemsSafe args stack (k + item.args) (room - (item.piece args stack k).length) items
    inferInstanceAs (Decidable (_ ∨ _ ∧ _))

section Pieces

variable {size k : ℕ} {args : VaList} {stack : ℕ → UInt8} {out chars : List UInt8} {leftAlign : Bool} {padding : ℕ}

theorem writeField_eq (hout : out.length ≤ size - 1) :
    writeField size leftAlign padding chars out =
      .ok (out ++ (field leftAlign padding chars).take (size - 1 - out.length)) := by
  rw [writeField, field, ← pushWhile_eq (Nat.sub_le size 1) hout]
  by_cases hleft : leftAlign = true
  · simp only [if_pos hleft]
    exact pushWhile_bind
  · simp only [if_neg hleft]
    refine Eq.trans ?_ pushWhile_bind
    exact bind_congr fun out => bind_pure _

theorem field_length : (field leftAlign padding chars).length = chars.length + padding := by
  unfold field
  split_ifs
  · rw [List.length_append, List.length_replicate]
  · rw [List.length_append, List.length_replicate, Nat.add_comm]

/-- **Where the field fits, its character is in its place.** -/
theorem writeChar_safe {ch : UInt8} (hout : out.length < size - 1)
    (hfits : leftAlign = true ∨ padding < size - 1 - out.length) :
    writeChar size leftAlign padding ch out =
      .ok (out ++ (field leftAlign padding [ch]).take (size - 1 - out.length)) := by
  rw [writeChar, field, ← pushWhile_eq (Nat.sub_le size 1) hout.le]
  by_cases hleft : leftAlign = true
  · simp only [if_pos hleft]
    rw [← pushWhile_bind, pushWhile_singleton hout]
    rfl
  · have hpadding := hfits.resolve_left hleft
    have hlen : (out ++ List.replicate padding ' '.toUInt8).length = out.length + padding := by
      rw [List.length_append, List.length_replicate]
    simp only [if_neg hleft]
    rw [← pushWhile_bind, pushWhile_eq (Nat.sub_le size 1) hout.le,
      List.take_of_length_le (by rw [List.length_replicate]; omega), ok_bind, ok_bind,
      pushWhile_singleton (by omega)]
    exact bind_pure _

/-- **Where it does not, the character takes the last place.** -/
theorem writeChar_overruns {ch : UInt8} (hout : out.length < size - 1) (hleft : leftAlign ≠ true)
    (hpadding : size - 1 - out.length ≤ padding) :
    ∃ rest, writeChar size leftAlign padding ch out = .ok (out ++ rest) ∧ (out ++ rest).length = size := by
  have hlen : (out ++ List.replicate (size - 1 - out.length) ' '.toUInt8).length = size - 1 := by
    rw [List.length_append, List.length_replicate]
    omega
  refine ⟨List.replicate (size - 1 - out.length) ' '.toUInt8 ++ [ch], ?_, ?_⟩
  · rw [writeChar, if_neg hleft, pushWhile_eq (Nat.sub_le size 1) hout.le, List.take_replicate,
      Nat.min_eq_left hpadding, ok_bind, push_of_lt (by omega), ok_bind, if_neg hleft, List.append_assoc]
    rfl
  · rw [← List.append_assoc, List.length_append, hlen, List.length_singleton]
    omega

/-- **A safe item prints as much of its piece as there is room for.** -/
theorem PrintItem.run_safe {item : PrintItem} (hout : out.length < size - 1)
    (hsafe : item.Safe (size - 1 - out.length)) :
    item.run size args stack k out = .ok (out ++ (item.piece args stack k).take (size - 1 - out.length)) := by
  have hword := (args.word k).toNat_lt
  have hint := toInt_bounds (args.word k)
  obtain ⟨m, hm⟩ : ∃ m, size - 1 - out.length = m + 1 := ⟨size - 1 - out.length - 1, by omega⟩
  cases item with
  | char byte =>
    rw [PrintItem.run, PrintItem.piece, push_of_lt (by omega), hm, List.take_succ_cons, List.take_nil]
  | cut => exact hsafe.elim
  | directive leftAlign width conv =>
    rw [PrintItem.run, PrintItem.piece]
    cases conv with
    | d | u =>
      rw [convert, flopitoa_eq hint.1 hint.2, ok_bind]
      exact writeField_eq hout.le
    | x isUpper =>
      rw [convert, flopitoaHex_eq (by decide) hword hsafe, ok_bind]
      exact writeField_eq hout.le
    | p =>
      rw [convert, flopitoaHex_eq (by decide) hword hsafe, ok_bind]
      exact writeField_eq hout.le
    | s => exact writeField_eq hout.le
    | c => exact writeChar_safe hout hsafe
    | percent =>
      rw [convert, Conv.piece, push_of_lt (by omega), hm, List.take_succ_cons, List.take_nil]
    | default byte =>
      have hroom : 2 ≤ size - 1 - out.length := hsafe
      rw [convert, Conv.piece, push_of_lt (by omega), ok_bind,
        push_of_lt (by rw [List.length_append, List.length_singleton]; omega), List.append_assoc,
        List.take_of_length_le hroom]
      rfl

/-- **An item that is not safe ends in a fault or takes the last place.** -/
theorem PrintItem.run_overruns {item : PrintItem} (hout : out.length < size - 1)
    (hover : ¬ item.Safe (size - 1 - out.length)) :
    (∃ fault, item.run size args stack k out = .error fault) ∨
      ∃ rest, item.run size args stack k out = .ok (out ++ rest) ∧ (out ++ rest).length = size := by
  have hword := (args.word k).toNat_lt
  cases item with
  | char byte => exact absurd trivial hover
  | cut =>
    left
    rw [PrintItem.run, push_of_lt (by omega), ok_bind,
      push_of_lt (by rw [List.length_append, List.length_singleton]; omega), ok_bind]
    exact ⟨_, rfl⟩
  | directive leftAlign width conv =>
    rw [PrintItem.run]
    cases conv with
    | d | u | s | percent => exact absurd trivial hover
    | x isUpper =>
      left
      rw [convert, flopitoaHex_wide hword (Int.not_le.1 hover)]
      exact ⟨_, rfl⟩
    | p =>
      left
      rw [convert, flopitoaHex_wide hword (Int.not_le.1 hover)]
      exact ⟨_, rfl⟩
    | c =>
      obtain ⟨hleft, hpadding⟩ := not_or.1 hover
      exact .inr (writeChar_overruns hout hleft (Nat.not_lt.1 hpadding))
    | default byte =>
      have hroom : ¬ 2 ≤ size - 1 - out.length := hover
      right
      refine ⟨['%'.toUInt8, byte], ?_, by simp only [List.length_append, List.length_cons, List.length_nil]; omega⟩
      rw [convert, push_of_lt (by omega), ok_bind,
        push_of_lt (by rw [List.length_append, List.length_singleton]; omega), List.append_assoc]
      rfl

end Pieces

end Flopperating
