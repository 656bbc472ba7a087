/-
# The kernel's log

`echo` of `src/apps/echo.c`, and `memflopitoa`, `log`, `log_uint`, `log_address` and `log_error` of
`src/lib/logging.c`.  What they send to `framebuffer_term_write` is a list of bytes.

`echo` puts its text between the control sequences of its colour and of a reset.  So a terminal that
follows these shows what has been logged, and every call in its own colours, as long as no text
contains `ESC` and all of them fit into the buffer of `echo` (`runLog_seen`).  A text that does not fit is
cut, and with it the reset: its colour stays selected (`echo_cut`).
-/

import Flopperating.Data.ColoredText
import Flopperating.Data.Reversal
import Flopperating.Lib.Atoi
import Flopperating.Lib.PrintfWithin

namespace Flopperating

open BoundedBuffer ColoredText Numeral Reversal

/-! ### `echo` -/

/-- `switch (color)`: the cases from `BLACK` to `WHITE`, and `default`. -/
def ansiColor (color : ℕ) : ℕ :=
  [0, 4, 2, 6, 1, 5, 3, 7, 8, 12, 10, 14, 9, 13, 3, 15].getD color 7

/-- `sizeof(buf)`. -/
def echoBufSize : ℕ := 8192

/-- `"\x1b[38;5;%um%s\x1b[0m"`. -/
def echoFormat : CString := .ofBytes (esc :: "[38;5;%um%s".toList.map Char.toUInt8 ++ reset)

/-- `ansi_color, str`. -/
def echoArgs (ansi : ℕ) (str : CString) : VaList := ⟨fun k => if k = 0 then .ofNat ansi else 0, fun _ => str⟩

/-- `echo`: what is written to the terminal. -/
def echo (stack : ℕ → UInt8) (str : CString) (color : ℕ) : Except PrintFault (List UInt8) := do
  let (buf, len) ← flopsnprintf echoBufSize (echoArgs (ansiColor color) str) stack echoFormat
  return if len > 0 ∧ len < echoBufSize then buf else []

/-! ### Numbers -/

/-- `while (value) { *end++ = digits[value % base]; value /= base; }` -/
def digitWhile (base : ℕ) (digit : ℕ → UInt8) (cap : ℕ) : ℕ → ℕ → List UInt8 → Except PrintFault (List UInt8)
  | 0, _, _ => .error .steps
  | steps + 1, value, buffer =>
    if value = 0 then return buffer
    else do
      let buffer ← push cap .buffer buffer (digit (value % base))
      digitWhile base digit cap steps (value / base) buffer

/-- `memflopitoa`, into an array of `cap` bytes: what is in front of the `NUL`. -/
def memflopitoa (cap value base : ℕ) : Except PrintFault (List UInt8) :=
  if base < 2 ∨ base > 16 then terminate cap .buffer []
  else if value = 0 then do
    let buffer ← push cap .buffer [] '0'.toUInt8
    terminate cap .buffer buffer
  else do
    let buffer ← digitWhile base (hexDigit true) cap (digitSteps + 1) value []
    let buffer ← terminate cap .buffer buffer
    return swapLoop buffer.length 0 (buffer.length - 1) buffer

/-! ### The calls -/

/-- `LIGHT_GRAY`, `CYAN` and `RED`. -/
abbrev lightGray : ℕ := 7

abbrev cyan : ℕ := 3

abbrev red : ℕ := 4

/-- One call of `echo` after the other. -/
def echoAll (stack : ℕ → UInt8) : List (CString × ℕ) → Except PrintFault (List UInt8)
  | [] => return []
  | (str, color) :: rest => do
    let written ← echo stack str color
    let more ← echoAll stack rest
    return written ++ more

/-- `log`. -/
def log (stack : ℕ → UInt8) (message : CString) (color : ℕ) : Except PrintFault (List UInt8) :=
  echoAll stack [(ascii "[ LOG ] ", color), (message, color)]

/-- `log_uint`. -/
def logUint (stack : ℕ → UInt8) (msg : CString) (value : ℕ) : Except PrintFault (List UInt8) := do
  let buffer ← memflopitoa 16 value 10
  echoAll stack [(ascii "[ DEBUG ] ", lightGray), (msg, lightGray), (.ofBytes buffer, cyan), (ascii "\n", lightGray)]

/-- `log_address`. -/
def logAddress (stack : ℕ → UInt8) (msg : CString) (address : ℕ) : Except PrintFault (List UInt8) := do
  let buffer ← memflopitoa 16 address 16
  echoAll stack [(ascii "[ DEBUG ] ", lightGray), (msg, lightGray), (ascii "0x", cyan), (.ofBytes buffer, cyan),
    (ascii "\n", lightGray)]

/-- `log_error`. -/
def logError (stack : ℕ → UInt8) (message : CString) (color : ℕ) : Except PrintFault (List UInt8) :=
  echoAll stack [(ascii "-> ", lightGray), (ascii "floppaOS has run into an error.\n Or flopped :(\n", red),
    (ascii "-> Error description: ", lightGray), (message, color)]

/-- A call that writes to the terminal. -/
inductive LogCall
  | echo (str : CString) (color : ℕ)
  | log (message : CString) (color : ℕ)
  | logUint (msg : CString) (value : UInt32)
  | logAddress (msg : CString) (address : UInt32)
  | logError (message : CString) (color : ℕ)

/-- What a call writes. -/
def LogCall.run (stack : ℕ → UInt8) : LogCall → Except PrintFault (List UInt8)
  | .echo str color => Flopperating.echo stack str color
  | .log message color => Flopperating.log stack message color
  | .logUint msg value => Flopperating.logUint stack msg value.toNat
  | .logAddress msg address => Flopperating.logAddress stack msg address.toNat
  | .logError message color => Flopperating.logError stack message color

/-- And what calls do, one after the other. -/
def runLog (stack : ℕ → UInt8) : List LogCall → Except PrintFault (List UInt8)
  | [] => return []
  | call :: calls => do
    let written ← call.run stack
    let more ← runLog stack calls
    return written ++ more

/-! ### What `echo` writes -/

section Echo

variable {stack : ℕ → UInt8} {str : CString} {color : ℕ}

/-- Items that keep to any room are safe. -/
theorem itemsSafe_of_forall {args : VaList} {items : List PrintItem} {k room : ℕ}
    (h : ∀ item ∈ items, ∀ left, item.Safe left) : ItemsSafe args stack k room items := by
  induction items generalizing k room with
  | nil => exact trivial
  | cons item items ih =>
    exact .inr ⟨h item List.mem_cons_self room, ih fun i hi => h i (List.mem_cons_of_mem _ hi)⟩

/-- The text of a call, in its colour. -/
def segment (str : CString) (color : ℕ) : Segment := ⟨str.map Subtype.val, ansiColor color⟩

theorem ansiColor_lt : ansiColor color < 16 := by
  unfold ansiColor
  rcases Nat.lt_or_ge color 16 with h | h
  · interval_cases color <;> decide
  · rw [List.getD_eq_getElem?_getD, List.getElem?_eq_none h]
    decide

theorem printItems_echoFormat :
    printItems echoFormat = (esc :: "[38;5;".toList.map Char.toUInt8).map PrintItem.char ++
      (.directive false 0 .u :: .char 'm'.toUInt8 :: .directive false 0 .s :: reset.map PrintItem.char) := by
  decide +kernel

theorem pieces_chars {args : VaList} {k : ℕ} {bytes : List UInt8} {items : List PrintItem} :
    pieces args stack k (bytes.map PrintItem.char ++ items) = bytes ++ pieces args stack k items := by
  induction bytes with
  | nil => rfl
  | cons c bytes ih => rw [List.map_cons, List.cons_append, pieces, PrintItem.piece, PrintItem.args, Nat.add_zero, ih]; rfl

theorem decimalText_small {n : ℕ} (hn : n < 2 ^ 31) : decimalText (toInt n) = numeral 10 digitByte n := by
  rw [decimalText, toInt_of_lt hn, if_neg (by omega), Int.natAbs_natCast, List.nil_append]
  rfl

theorem field_unpadded {leftAlign : Bool} {chars : List UInt8} {len : ℤ} (hlen : 0 ≤ len) :
    field leftAlign (fieldPadding 0 len) chars = chars := by
  rw [fieldPadding, if_neg (not_lt.2 hlen), field, List.replicate_zero, List.append_nil, List.nil_append, ite_self]

/-- **The pieces of the format are those of the coloured text.** -/
theorem pieces_echoFormat (hstr : str.length < 2 ^ 31) :
    pieces (echoArgs (ansiColor color) str) stack 0 (printItems echoFormat) = (segment str color).bytes := by
  have hword : ((echoArgs (ansiColor color) str).word 0).toNat = ansiColor color :=
    UInt32.toNat_ofNat_of_lt' (ansiColor_lt.trans (by decide))
  have hcolor : ((.directive false 0 .u : PrintItem)).piece (echoArgs (ansiColor color) str) stack 0 =
      numeral 10 digitByte (ansiColor color) := by
    rw [PrintItem.piece, Conv.piece, hword]
    exact (field_unpadded (Int.natCast_nonneg _)).trans (decimalText_small (ansiColor_lt.trans (by decide)))
  have htext : ((.directive false 0 .s : PrintItem)).piece (echoArgs (ansiColor color) str) stack 1 =
      str.map Subtype.val := by
    rw [PrintItem.piece, Conv.piece]
    exact field_unpadded ((Int.natCast_nonneg str.length).trans_eq (i32_of_lt hstr).symm)
  have hreset : pieces (echoArgs (ansiColor color) str) stack 2 (reset.map PrintItem.char) = reset := rfl
  rw [printItems_echoFormat, pieces_chars, pieces, hcolor, pieces, pieces]
  change _ ++ (_ ++ (_ ++ (PrintItem.piece _ stack 1 _ ++ pieces _ stack 2 _))) = _
  rw [htext, hreset, Segment.bytes, setColour]
  simp only [List.append_assoc, List.cons_append]
  rfl

/-- **`echo` writes its text in its colour**, as far as that fits. -/
theorem echo_eq (hstr : str.length < 2 ^ 31) :
    echo stack str color = .ok ((segment str color).bytes.take (echoBufSize - 1)) := by
  have hsafe : ItemsSafe (echoArgs (ansiColor color) str) stack 0 (echoBufSize - 1) (printItems echoFormat) := by
    refine itemsSafe_of_forall fun item hitem left => ?_
    rw [printItems_echoFormat, List.mem_append, List.mem_map] at hitem
    obtain ⟨c, -, rfl⟩ | hitem := hitem
    · exact trivial
    · rcases hitem with - | ⟨_, - | ⟨_, - | ⟨_, hitem⟩⟩⟩
      · exact trivial
      · exact trivial
      · exact trivial
      · obtain ⟨c, -, rfl⟩ := List.mem_map.1 hitem
        exact trivial
  have hprint : printed echoBufSize (echoArgs (ansiColor color) str) stack echoFormat =
      (segment str color).bytes.take (echoBufSize - 1) := by rw [printed, pieces_echoFormat hstr]
  have hlen : ((segment str color).bytes.take (echoBufSize - 1)).length < echoBufSize := by
    rw [List.length_take]
    exact (Nat.min_le_left _ _).trans_lt (by decide)
  have hpos : 0 < ((segment str color).bytes.take (echoBufSize - 1)).length := by
    rw [List.length_take, Segment.bytes, List.length_append, List.length_append, length_setColour]
    exact lt_min (by decide) (by omega)
  have hsmall : ((segment str color).bytes.take (echoBufSize - 1)).length < 2 ^ 31 := hlen.trans (by decide)
  rw [echo, flopsnprintf, flopvsnprintf_safe (by decide) hsafe, hprint, i32_of_lt hsmall]
  exact congrArg Except.ok (if_pos ⟨Int.natCast_pos.2 hpos, Int.ofNat_lt.2 hlen⟩)

end Echo

/-! ### What `memflopitoa` writes -/

section Numbers

variable {base cap value steps : ℕ} {digit : ℕ → UInt8} {buffer : List UInt8}

/-- The loop leaves the digits from the last to the first. -/
theorem digitWhile_eq (hbase : 2 ≤ base) (hsteps : (Nat.digits base value).length < steps)
    (hcap : buffer.length + (Nat.digits base value).length ≤ cap) :
    digitWhile base digit cap steps value buffer = .ok (buffer ++ (Nat.digits base value).map digit) := by
  induction steps generalizing value buffer with
  | zero => exact absurd hsteps (Nat.not_lt_zero _)
  | succ steps ih =>
    rw [digitWhile]
    split_ifs with hzero
    · rw [hzero, Nat.digits_zero, List.map_nil, List.append_nil]
      rfl
    · have hdigits := Nat.digits_of_two_le_of_pos hbase (Nat.pos_of_ne_zero hzero)
      rw [hdigits, List.length_cons] at hsteps hcap
      rw [push_of_lt (by omega), ok_bind, ih (by omega) (by rw [List.length_append, List.length_singleton]; omega),
        hdigits, List.map_cons, List.append_assoc, List.singleton_append]

/-- **A number that fits is written as its numeral.** -/
theorem memflopitoa_eq (hbase : 2 ≤ base) (hbase' : base ≤ 16) (hvalue : value < 2 ^ 32)
    (hcap : (numeral base (hexDigit true) value).length < cap) :
    memflopitoa cap value base = .ok (numeral base (hexDigit true) value) := by
  rw [memflopitoa, if_neg (by omega)]
  by_cases hzero : value = 0
  · have hzeroDigit : numeral base (hexDigit true) value = ['0'.toUInt8] := if_pos hzero
    rw [hzeroDigit, List.length_singleton] at hcap
    rw [hzeroDigit, if_pos hzero, push_of_lt (Nat.zero_lt_of_lt hcap), ok_bind]
    exact terminate_of_lt hcap
  · have hnum : numeral base (hexDigit true) value = ((Nat.digits base value).map (hexDigit true)).reverse :=
      numeral_of_ne_zero hzero
    have hlen : (Nat.digits base value).length ≤ 32 :=
      (Nat.digits_length_le_iff hbase value).2 (hvalue.trans_le (Nat.pow_le_pow_left hbase 32))
    rw [hnum, List.length_reverse, List.length_map] at hcap
    have hloop : digitWhile base (hexDigit true) cap (digitSteps + 1) value [] =
        .ok ((Nat.digits base value).map (hexDigit true)) :=
      digitWhile_eq hbase (Nat.lt_succ_of_le hlen) (by rw [List.length_nil]; omega)
    rw [if_neg hzero, hloop, ok_bind, terminate_of_lt (by rwa [List.length_map]), ok_bind,
      swapLoop_eq_reverse (Nat.le_succ _), hnum]
    rfl

/-- The digits of `log_uint` and `log_address` fit into their `char[16]`. -/
theorem length_numeral_lt (hbase : 10 ≤ base) (hvalue : value < 2 ^ 32) : (numeral base digit value).length < 16 := by
  have hpow : 2 ^ 32 ≤ base ^ 10 := le_trans (by decide) (Nat.pow_le_pow_left hbase 10)
  exact (length_numeral_le (by omega) (by decide) (hvalue.trans_le hpow)).trans_lt (by decide)

end Numbers

/-! ### What is seen of the log -/

/-- The texts of a call, each with its colour. -/
def LogCall.segments : LogCall → List Segment
  | .echo str color => [segment str color]
  | .log message color => [segment (ascii "[ LOG ] ") color, segment message color]
  | .logUint msg value =>
    [segment (ascii "[ DEBUG ] ") lightGray, segment msg lightGray,
      ⟨numeral 10 (hexDigit true) value.toNat, ansiColor cyan⟩, segment (ascii "\n") lightGray]
  | .logAddress msg address =>
    [segment (ascii "[ DEBUG ] ") lightGray, segment msg lightGray, segment (ascii "0x") cyan,
      ⟨numeral 16 (hexDigit true) address.toNat, ansiColor cyan⟩, segment (ascii "\n") lightGray]
  | .logError message color =>
    [segment (ascii "-> ") lightGray, segment (ascii "floppaOS has run into an error.\n Or flopped :(\n") red,
      segment (ascii "-> Error description: ") lightGray, segment message color]

/-- The text that the caller gives. -/
def LogCall.text : LogCall → CString
  | .echo str _ | .log str _ | .logUint str _ | .logAddress str _ | .logError str _ => str

/-- A text that can be shown: there is no `ESC` in it, and it fits into the buffer of `echo` together with the
sequences around it. -/
def Showable (str : CString) : Prop := esc ∉ str.map Subtype.val ∧ str.length ≤ 8177

instance (str : CString) : Decidable (Showable str) := inferInstanceAs (Decidable (_ ∧ _))

section Log

variable {stack : ℕ → UInt8} {str : CString} {color base value : ℕ} {l : List (CString × ℕ)}

theorem echo_showable (h : Showable str) : echo stack str color = .ok (segment str color).bytes := by
  have hcolour : (numeral 10 digitByte (ansiColor color)).length ≤ 2 :=
    length_numeral_le (by decide) (by decide) (ansiColor_lt.trans (by decide))
  have hlen : (segment str color).bytes.length ≤ echoBufSize - 1 := by
    rw [Segment.bytes, List.length_append, List.length_append, length_setColour]
    change (numeral 10 digitByte (ansiColor color)).length + 8 + (str.map Subtype.val).length + 4 ≤ 8191
    have := h.2
    rw [List.length_map]
    omega
  rw [echo_eq (h.2.trans_lt (by decide)), List.take_of_length_le hlen]

theorem echoAll_eq (h : ∀ p ∈ l, Showable p.1) :
    echoAll stack l = .ok ((l.map fun p => segment p.1 p.2).flatMap Segment.bytes) := by
  induction l with
  | nil => rfl
  | cons p l ih =>
    rw [echoAll, echo_showable (h p List.mem_cons_self), ok_bind, ih fun q hq => h q (List.mem_cons_of_mem _ hq)]
    rfl

/-- The digits of a numeral are letters and figures. -/
theorem hexDigit_plain {d : ℕ} (hd : d < 16) : hexDigit true d ≠ 0 ∧ hexDigit true d ≠ esc := by
  revert d
  decide +kernel

theorem mem_numeral_plain (hbase : 2 ≤ base) (hbase' : base ≤ 16) {c : UInt8}
    (hc : c ∈ numeral base (hexDigit true) value) : c ≠ 0 ∧ c ≠ esc := by
  obtain ⟨d, hd, rfl⟩ := mem_numeral hbase hc
  exact hexDigit_plain (hd.trans_le hbase')

/-- A number is a text that can be shown. -/
theorem segment_numeral (base color : ℕ) (hbase : 10 ≤ base) (hbase' : base ≤ 16) (hvalue : value < 2 ^ 32) :
    Showable (.ofBytes (numeral base (hexDigit true) value)) ∧
      segment (.ofBytes (numeral base (hexDigit true) value)) color =
        ⟨numeral base (hexDigit true) value, ansiColor color⟩ := by
  have hplain : ∀ c ∈ numeral base (hexDigit true) value, c ≠ 0 ∧ c ≠ esc := fun c hc =>
    mem_numeral_plain (by omega) hbase' hc
  have hbytes := map_val_ofBytes fun c hc => (hplain c hc).1
  refine ⟨⟨?_, ?_⟩, congrArg (Segment.mk · _) hbytes⟩
  · rw [hbytes]
    exact fun hesc => (hplain _ hesc).2 rfl
  · rw [← List.length_map (f := Subtype.val), hbytes]
    exact (length_numeral_lt hbase hvalue).le.trans (by decide)

/-- The texts that the calls put around a message can be shown. -/
theorem showable_fixed :
    Showable (ascii "[ LOG ] ") ∧ Showable (ascii "[ DEBUG ] ") ∧ Showable (ascii "0x") ∧ Showable (ascii "\n") ∧
      Showable (ascii "-> ") ∧ Showable (ascii "floppaOS has run into an error.\n Or flopped :(\n") ∧
      Showable (ascii "-> Error description: ") := by
  decide +kernel

/-- **A call writes its texts.** -/
theorem LogCall.run_eq (call : LogCall) (h : Showable call.text) :
    call.run stack = .ok (call.segments.flatMap Segment.bytes) := by
  obtain ⟨hlog, hdebug, hhex, hline, harrow, herror, hdescription⟩ := showable_fixed
  cases call with
  | echo str color => exact (echo_showable h).trans (congrArg Except.ok (List.append_nil _).symm)
  | log message color => exact echoAll_eq (List.forall_mem_cons.2 ⟨hlog, List.forall_mem_singleton.2 h⟩)
  | logUint msg value =>
    obtain ⟨hnum, hsegment⟩ := segment_numeral 10 cyan (by decide) (by decide) value.toNat_lt
    rw [LogCall.run, Flopperating.logUint,
      memflopitoa_eq (by decide) (by decide) value.toNat_lt (length_numeral_lt (by decide) value.toNat_lt), ok_bind,
      echoAll_eq (List.forall_mem_cons.2 ⟨hdebug, List.forall_mem_cons.2
        ⟨h, List.forall_mem_cons.2 ⟨hnum, List.forall_mem_singleton.2 hline⟩⟩⟩),
      List.map_cons, List.map_cons, List.map_cons, hsegment]
    rfl
  | logAddress msg address =>
    obtain ⟨hnum, hsegment⟩ := segment_numeral 16 cyan (by decide) (by decide) address.toNat_lt
    rw [LogCall.run, Flopperating.logAddress,
      memflopitoa_eq (by decide) (by decide) address.toNat_lt (length_numeral_lt (by decide) address.toNat_lt), ok_bind,
      echoAll_eq (List.forall_mem_cons.2 ⟨hdebug, List.forall_mem_cons.2
        ⟨h, List.forall_mem_cons.2 ⟨hhex, List.forall_mem_cons.2 ⟨hnum, List.forall_mem_singleton.2 hline⟩⟩⟩⟩),
      List.map_cons, List.map_cons, List.map_cons, List.map_cons, hsegment]
    rfl
  | logError message color =>
    exact echoAll_eq (List.forall_mem_cons.2 ⟨harrow, List.forall_mem_cons.2
      ⟨herror, List.forall_mem_cons.2 ⟨hdescription, List.forall_mem_singleton.2 h⟩⟩⟩)

theorem runLog_eq {calls : List LogCall} (h : ∀ call ∈ calls, Showable call.text) :
    runLog stack calls = .ok ((calls.flatMap LogCall.segments).flatMap Segment.bytes) := by
  induction calls with
  | nil => rfl
  | cons call calls ih =>
    rw [runLog, call.run_eq (h call List.mem_cons_self), ok_bind, ih fun c hc => h c (List.mem_cons_of_mem _ hc),
      List.flatMap_cons, List.flatMap_append]
    rfl

theorem LogCall.not_mem_segments {call : LogCall} (h : Showable call.text) : ∀ s ∈ call.segments, esc ∉ s.text := by
  obtain ⟨hlog, hdebug, hhex, hline, harrow, herror, hdescription⟩ := showable_fixed
  have hnum : ∀ {b n : ℕ}, 2 ≤ b → b ≤ 16 → esc ∉ numeral b (hexDigit true) n := fun hb hb' hesc =>
    (mem_numeral_plain hb hb' hesc).2 rfl
  cases call with
  | echo str color => exact List.forall_mem_singleton.2 h.1
  | log message color => exact List.forall_mem_cons.2 ⟨hlog.1, List.forall_mem_singleton.2 h.1⟩
  | logUint msg value =>
    exact List.forall_mem_cons.2 ⟨hdebug.1, List.forall_mem_cons.2
      ⟨h.1, List.forall_mem_cons.2 ⟨hnum (by decide) (by decide), List.forall_mem_singleton.2 hline.1⟩⟩⟩
  | logAddress msg address =>
    exact List.forall_mem_cons.2 ⟨hdebug.1, List.forall_mem_cons.2 ⟨h.1, List.forall_mem_cons.2
      ⟨hhex.1, List.forall_mem_cons.2 ⟨hnum (by decide) (by decide), List.forall_mem_singleton.2 hline.1⟩⟩⟩⟩
  | logError message color =>
    exact List.forall_mem_cons.2 ⟨harrow.1, List.forall_mem_cons.2
      ⟨herror.1, List.forall_mem_cons.2 ⟨hdescription.1, List.forall_mem_singleton.2 h.1⟩⟩⟩

theorem segments_plain {calls : List LogCall} (h : ∀ call ∈ calls, Showable call.text) :
    ∀ s ∈ calls.flatMap LogCall.segments, esc ∉ s.text := by
  intro s hs
  obtain ⟨call, hcall, hs⟩ := List.mem_flatMap.1 hs
  exact call.not_mem_segments (h call hcall) s hs

/-- A text that does not fit is cut, and the sequence behind it is lost. -/
theorem echo_cut (hesc : esc ∉ str.map Subtype.val) (hlong : 8183 ≤ str.length) (hstr : str.length < 2 ^ 31) :
    ∃ bytes, echo stack str color = .ok bytes ∧ feedAll home bytes =
      ⟨.text, some (ansiColor color),
        (segment str color).seen.take (echoBufSize - 1 - (setColour (ansiColor color)).length)⟩ := by
  have hpos : 0 < (numeral 10 digitByte (ansiColor color)).length := length_numeral_pos (by decide)
  have hcolour : (numeral 10 digitByte (ansiColor color)).length ≤ 2 :=
    length_numeral_le (by decide) (by decide) (ansiColor_lt.trans (by decide))
  have hset : (setColour (ansiColor color)).length = _ := length_setColour
  have hcut : echoBufSize - 1 =
      (setColour (segment str color).colour).length + (echoBufSize - 1 - (setColour (ansiColor color)).length) := by
    change 8191 = (setColour (ansiColor color)).length + (8191 - (setColour (ansiColor color)).length)
    omega
  have hfits : echoBufSize - 1 - (setColour (ansiColor color)).length ≤ (segment str color).text.length := by
    change 8191 - (setColour (ansiColor color)).length ≤ (str.map Subtype.val).length
    rw [List.length_map]
    omega
  have hbytes : (segment str color).bytes.take (echoBufSize - 1) = (segment str color).bytes.take _ :=
    congrArg (List.take · _) hcut
  exact ⟨_, echo_eq hstr, (congrArg (feedAll home) hbytes).trans (feedAll_cut hesc hfits)⟩

/-- **The log is seen as it was written.**  Whatever calls are made with texts that can be shown, a terminal that
follows the control sequences shows their texts, every one in its own colour and every number as its numeral, and
is left as it was.  A text that is too long is cut, and leaves its colour selected. -/
theorem runLog_seen :
    (∀ calls : List LogCall, (∀ call ∈ calls, Showable call.text) →
      ∃ bytes, runLog stack calls = .ok bytes ∧
        feedAll home bytes = ⟨.text, none, (calls.flatMap LogCall.segments).flatMap Segment.seen⟩) ∧
    ∀ str color, esc ∉ str.map Subtype.val → 8183 ≤ str.length → str.length < 2 ^ 31 →
      ∃ bytes, echo stack str color = .ok bytes ∧ feedAll home bytes =
        ⟨.text, some (ansiColor color),
          (segment str color).seen.take (echoBufSize - 1 - (setColour (ansiColor color)).length)⟩ :=
  ⟨fun _ h => ⟨_, runLog_eq h, feedAll_segments (segments_plain h)⟩, fun _ _ => echo_cut⟩

end Log

theorem runLog_seen_fault :
    ∃ bytes, runLog (fun _ => 0) [.log (ascii "isr14: page fault\n") red, .logUint (ascii "err code: ") 6] = .ok bytes ∧
      (feedAll home bytes).shown.map Prod.fst =
        "[ LOG ] isr14: page fault\n[ DEBUG ] err code: 6\n".toList.map Char.toUInt8 := by
  obtain ⟨bytes, hrun, hseen⟩ := runLog_seen.1
    [.log (ascii "isr14: page fault\n") red, .logUint (ascii "err code: ") 6] (by decide +kernel)
  have hsix : numeral 10 (hexDigit true) (6 : UInt32).toNat = ['6'.toUInt8] := numeral_of_lt (by decide)
  refine ⟨bytes, hrun, ?_⟩
  rw [hseen, List.flatMap_cons, List.flatMap_cons, LogCall.segments, LogCall.segments, hsix]
  decide +kernel

end Flopperating
