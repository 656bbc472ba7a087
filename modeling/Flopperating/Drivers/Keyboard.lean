/-
# The keyboard

`key_to_char` and `keyboard_handler` of `src/drivers/keyboard/keyboard.c`.

| source | here |
| --- | --- |
| `shift_pressed`, `ctrl_pressed`, `alt_pressed` | the fields of `Keys` |
| the string that `key_to_char` returns | its bytes; `none` where the table is read past its end |
| `inb(0x60)` | the scan codes, one for each interrupt |
| `echo(str, color)` | a `LogCall` |

`kbd_map_normal` has 90 entries and `kbd_map_shifted` only 58, but the check is made against the first.
The keys of `strayKeys` are beyond the second: one of these while shift is down reads past it
(`keyboard_run`).
-/

import Flopperating.Data.Latch
import Flopperating.Lib.Logging

namespace Flopperating

open ColoredText Latch

/-! ### Scan codes -/

abbrev keyLshift : UInt8 := 0x2A
abbrev keyRshift : UInt8 := 0x36
abbrev keyLshiftRelease : UInt8 := 0xAA
abbrev keyRshiftRelease : UInt8 := 0xB6
abbrev keyCtrl : UInt8 := 0x1D
abbrev keyCtrlRelease : UInt8 := 0x9D
abbrev keyAlt : UInt8 := 0x38
abbrev keyAltRelease : UInt8 := 0xB8

/-- The keys of the second `switch`, from `KEY_ESC` to `KEY_DELETE`. -/
def namedKeys : List (UInt8 × String) :=
  [(0x01, "Esc"), (0x3B, "F1"), (0x3C, "F2"), (0x3D, "F3"), (0x3E, "F4"), (0x3F, "F5"), (0x40, "F6"), (0x41, "F7"),
    (0x42, "F8"), (0x43, "F9"), (0x44, "F10"), (0x57, "F11"), (0x58, "F12"), (0x52, "ArrowUp"), (0x53, "ArrowLeft"),
    (0x54, "ArrowRight"), (0x55, "ArrowDown"), (0x4D, "Delete")]

/-- The bytes of some entries. -/
def row (s : String) : List UInt8 := s.toList.map Char.toUInt8

/-- `kbd_map_normal`. -/
def kbdMapNormal : List UInt8 :=
  [0, 27] ++ row "1234567890-=" ++ [8, 9] ++ row "qwertyuiop[]\n" ++ [0] ++ row "asdfghjkl;" ++ [39, 96, 0] ++
    row "\\zxcvbnm,./" ++ [0] ++ row "*" ++ [0] ++ row " " ++ List.replicate 16 0 ++ row "-" ++ [0, 0, 0] ++ row "+" ++
    List.replicate 11 0

/-- `kbd_map_shifted`. -/
def kbdMapShifted : List UInt8 :=
  [0, 27] ++ row "!@#$%^&*()_+" ++ [8, 9] ++ row "QWERTYUIOP\x7b\x7d\n" ++ [0] ++ row "ASDFGHJKL:" ++ [34, 126, 0] ++
    row "|ZXCVBNM<>?" ++ [0] ++ row "*" ++ [0] ++ row " "

/-! ### The driver -/

/-- The modifiers. -/
structure Keys where
  shiftPressed : Bool
  ctrlPressed : Bool
  altPressed : Bool
  deriving DecidableEq

/-- None of them is down. -/
def Keys.start : Keys := ⟨false, false, false⟩

/-- The first `switch` of `key_to_char`. -/
def modifier (s : Keys) (key : UInt8) : Option Keys :=
  if key = keyLshift ∨ key = keyRshift then some { s with shiftPressed := true }
  else if key = keyLshiftRelease ∨ key = keyRshiftRelease then some { s with shiftPressed := false }
  else if key = keyCtrl then some { s with ctrlPressed := true }
  else if key = keyCtrlRelease then some { s with ctrlPressed := false }
  else if key = keyAlt then some { s with altPressed := true }
  else if key = keyAltRelease then some { s with altPressed := false }
  else none

/-- The second `switch`, and the tables behind it. -/
def keyText (shiftPressed : Bool) (key : UInt8) : Option CString :=
  match namedKeys.lookup key with
  | some name => some (ascii name)
  | none =>
    if key.toNat < kbdMapNormal.length then
      (if shiftPressed then kbdMapShifted[key.toNat]? else kbdMapNormal[key.toNat]?).map fun c => .ofBytes [c]
    else some []

/-- `key_to_char`. -/
def keyToChar (s : Keys) (key : UInt8) : Option CString × Keys :=
  match modifier s key with
  | some s => (some [], s)
  | none => (keyText s.shiftPressed key, s)

/-- `BLACK`. -/
abbrev black : ℕ := 0

/-- `WHITE`. -/
abbrev white : ℕ := 15

/-- What `keyboard_handler` does with a string. -/
def echoKey (str : CString) : List LogCall :=
  if charAt str = 0 then []
  else if charAt str = 8 then [.echo (.ofBytes [8]) black]
  else [.echo str white]

/-- `keyboard_handler`: what is echoed. -/
def keyboardHandler (s : Keys) (scancode : UInt8) : Option (List LogCall) × Keys :=
  let (str, s) := keyToChar s scancode
  (str.map echoKey, s)

/-- One interrupt after the other. -/
def keyboardRun (s : Keys) : List UInt8 → Option (List LogCall) × Keys
  | [] => (some [], s)
  | scancode :: rest =>
    let (calls, s) := keyboardHandler s scancode
    let (more, s) := keyboardRun s rest
    (calls.bind fun calls => more.map (calls ++ ·), s)

/-! ### Modifiers -/

/-- What sets and what clears a modifier. -/
abbrev shiftOn : List UInt8 := [keyLshift, keyRshift]
abbrev shiftOff : List UInt8 := [keyLshiftRelease, keyRshiftRelease]
abbrev ctrlOn : List UInt8 := [keyCtrl]
abbrev ctrlOff : List UInt8 := [keyCtrlRelease]
abbrev altOn : List UInt8 := [keyAlt]
abbrev altOff : List UInt8 := [keyAltRelease]

/-- The keys that are not in `kbd_map_shifted`, and for which the tables are read. -/
def strayKeys : List UInt8 := [58, 69, 70, 71, 72, 73, 74, 75, 76, 78, 79, 80, 81, 86, 89]

/-- What is true of all bytes. -/
theorem forall_byte {p : UInt8 → Prop} (h : ∀ n < 256, p (.ofNat n)) (key : UInt8) : p key := by
  have := h key.toNat key.toNat_lt
  rwa [UInt8.ofNat_toNat] at this

section Modifiers

variable {s : Keys} {key : UInt8} {codes : List UInt8}

/-- The modifiers after a key. -/
def Keys.press (s : Keys) (key : UInt8) : Keys := (modifier s key).getD s

theorem press_shiftPressed :
    (s.press key).shiftPressed = if key ∈ shiftOn then true else if key ∈ shiftOff then false else s.shiftPressed := by
  grind [Keys.press, modifier]

theorem press_ctrlPressed :
    (s.press key).ctrlPressed = if key ∈ ctrlOn then true else if key ∈ ctrlOff then false else s.ctrlPressed := by
  grind [Keys.press, modifier]

theorem press_altPressed :
    (s.press key).altPressed = if key ∈ altOn then true else if key ∈ altOff then false else s.altPressed := by
  grind [Keys.press, modifier]

/-- The keys of the first `switch`. -/
def modifierKeys : List UInt8 := shiftOn ++ shiftOff ++ ctrlOn ++ ctrlOff ++ altOn ++ altOff

theorem modifier_eq_none_iff : modifier s key = none ↔ key ∉ modifierKeys := by
  grind [modifier, modifierKeys]

theorem keyToChar_snd : (keyToChar s key).2 = s.press key := by
  unfold keyToChar Keys.press
  cases modifier s key <;> rfl

theorem keyToChar_fst :
    (keyToChar s key).1 = if key ∈ modifierKeys then some [] else keyText s.shiftPressed key := by
  unfold keyToChar
  cases hmod : modifier s key with
  | none => rw [if_neg (modifier_eq_none_iff.1 hmod)]
  | some s' => rw [if_pos (not_not.1 fun h => nomatch hmod.symm.trans (modifier_eq_none_iff.2 h))]

theorem keyboardRun_snd : (keyboardRun s codes).2 = codes.foldl Keys.press s := by
  induction codes generalizing s with
  | nil => rfl
  | cons key codes ih => exact ih.trans (congrArg (List.foldl Keys.press · codes) keyToChar_snd)

end Modifiers

/-! ### Texts -/

section Texts

variable {s : Keys} {key : UInt8} {codes : List UInt8} {shift : Bool} {str : CString} {stack : ℕ → UInt8}

theorem keyText_eq_none_iff : keyText shift key = none ↔ shift = true ∧ key ∈ strayKeys :=
  forall_byte (p := fun key => keyText shift key = none ↔ shift = true ∧ key ∈ strayKeys)
    (by cases shift <;> decide +kernel) key

/-- The text of a key can be shown: `ESC` has a name.  A text that starts with a backspace is one. -/
theorem keyText_some (h : keyText shift key = some str) :
    Showable str ∧ (charAt str = 8 → str = .ofBytes [8]) := by
  have hkey : (keyText shift key).all fun str => Showable str ∧ (charAt str = 8 → str = .ofBytes [8]) :=
    forall_byte (p := fun key => (keyText shift key).all fun str =>
      Showable str ∧ (charAt str = 8 → str = .ofBytes [8])) (by cases shift <;> decide +kernel) key
  rw [h] at hkey
  exact of_decide_eq_true hkey

theorem strayKeys_not_modifier : ∀ key ∈ strayKeys, key ∉ modifierKeys := by decide +kernel

/-- What a key types. -/
def keySegments (shift : Bool) (key : UInt8) : List Segment :=
  if key ∈ modifierKeys then []
  else (keyText shift key).elim [] fun str =>
    if str = [] then [] else [segment str (if charAt str = 8 then black else white)]

/-- **A key is lost exactly if it is a stray key and shift is down.** -/
theorem keyToChar_eq_none_iff : (keyToChar s key).1 = none ↔ s.shiftPressed = true ∧ key ∈ strayKeys := by
  rw [keyToChar_fst]
  split_ifs with hmod
  · exact iff_of_false id fun h => strayKeys_not_modifier key h.2 hmod
  · exact keyText_eq_none_iff

theorem charAt_eq_zero : charAt str = 0 ↔ str = [] := by
  cases str with
  | nil => exact iff_of_true rfl rfl
  | cons c str => exact iff_of_false c.2 (List.cons_ne_nil c str)

/-- Otherwise its text is echoed. -/
theorem echoKey_segments (h : (keyToChar s key).1 = some str) :
    (echoKey str).flatMap LogCall.segments = keySegments s.shiftPressed key ∧
      ∀ call ∈ echoKey str, Showable call.text := by
  rw [keyToChar_fst] at h
  unfold keySegments echoKey
  split_ifs at h with hmod
  · obtain rfl := Option.some.inj h
    rw [if_pos hmod]
    exact ⟨rfl, fun call hcall => absurd hcall List.not_mem_nil⟩
  · obtain ⟨hshow, hback⟩ := keyText_some h
    rw [if_neg hmod, h, Option.elim_some]
    simp only [charAt_eq_zero]
    split_ifs with hnil hchar
    · exact ⟨rfl, fun call hcall => absurd hcall List.not_mem_nil⟩
    · rw [← hback hchar]
      exact ⟨rfl, List.forall_mem_singleton.2 hshow⟩
    · exact ⟨rfl, List.forall_mem_singleton.2 hshow⟩

/-- What is typed by the keys, in front of which others have been pressed. -/
def Typed : List UInt8 → List UInt8 → List Segment → Prop
  | _, [], l => l = []
  | before, key :: rest, l => ∃ shift more, (shift = true ↔ Held shiftOn shiftOff before) ∧
      l = keySegments shift key ++ more ∧ Typed (before ++ [key]) rest more

/-- The modifiers after some keys. -/
theorem shiftPressed_iff : (codes.foldl Keys.press .start).shiftPressed = true ↔ Held shiftOn shiftOff codes :=
  latch_run rfl (fun _ _ => press_shiftPressed) codes

theorem keyboardRun_typed (before : List UInt8) {calls : List LogCall}
    (h : (keyboardRun (before.foldl Keys.press .start) codes).1 = some calls) :
    Typed before codes (calls.flatMap LogCall.segments) ∧ ∀ call ∈ calls, Showable call.text := by
  induction codes generalizing before calls with
  | nil =>
    obtain rfl := Option.some.inj h
    exact ⟨rfl, fun call hcall => absurd hcall List.not_mem_nil⟩
  | cons key codes ih =>
    obtain ⟨first, hfirst, hrest⟩ := Option.bind_eq_some_iff.1 h
    obtain ⟨more, hmore, rfl⟩ := Option.map_eq_some_iff.1 hrest
    obtain ⟨str, hstr, rfl⟩ := Option.map_eq_some_iff.1 hfirst
    obtain ⟨hsegments, hshow⟩ := echoKey_segments hstr
    have hpress : (keyToChar (before.foldl Keys.press .start) key).2 = (before ++ [key]).foldl Keys.press .start := by
      rw [keyToChar_snd, List.foldl_append, List.foldl_cons, List.foldl_nil]
    obtain ⟨htyped, hshowMore⟩ := ih (before ++ [key]) (hpress ▸ hmore)
    refine ⟨⟨_, _, shiftPressed_iff, ?_, htyped⟩, fun call hcall => ?_⟩
    · rw [List.flatMap_append, hsegments]
    · exact (List.mem_append.1 hcall).elim (hshow call) (hshowMore call)

theorem keyboardRun_cons_eq_none :
    (keyboardRun s (key :: codes)).1 = none ↔
      (keyToChar s key).1 = none ∨ (keyboardRun (s.press key) codes).1 = none := by
  have hrun : (keyboardRun s (key :: codes)).1 = ((keyToChar s key).1.map echoKey).bind fun calls =>
      (keyboardRun (keyToChar s key).2 codes).1.map (calls ++ ·) := rfl
  rw [hrun, keyToChar_snd]
  cases (keyToChar s key).1 with
  | none => exact iff_of_true rfl (.inl rfl)
  | some str =>
    cases (keyboardRun (s.press key) codes).1 with
    | none => exact iff_of_true rfl (.inr rfl)
    | some calls => exact iff_of_false (fun h => nomatch h) fun h => h.elim (fun h => nomatch h) fun h => nomatch h

theorem keyboardRun_eq_none_iff (before : List UInt8) :
    (keyboardRun (before.foldl Keys.press .start) codes).1 = none ↔
      ∃ more key after, codes = more ++ key :: after ∧ Held shiftOn shiftOff (before ++ more) ∧ key ∈ strayKeys := by
  induction codes generalizing before with
  | nil =>
    refine iff_of_false (fun h => nomatch h) ?_
    rintro ⟨more, key, after, heq, -⟩
    exact List.append_ne_nil_of_right_ne_nil more (List.cons_ne_nil key after) heq.symm
  | cons key codes ih =>
    have hpress : (before.foldl Keys.press .start).press key = (before ++ [key]).foldl Keys.press .start := by
      rw [List.foldl_append, List.foldl_cons, List.foldl_nil]
    rw [keyboardRun_cons_eq_none, keyToChar_eq_none_iff, shiftPressed_iff, hpress, ih]
    constructor
    · rintro (⟨hheld, hkey⟩ | ⟨more, stray, after, rfl, hheld, hstray⟩)
      · exact ⟨[], key, codes, rfl, by rwa [List.append_nil], hkey⟩
      · exact ⟨key :: more, stray, after, rfl, by rwa [List.append_cons], hstray⟩
    · rintro ⟨more, stray, after, heq, hheld, hstray⟩
      rcases more with - | ⟨first, more⟩
      · obtain ⟨rfl, -⟩ := List.cons.inj heq
        exact .inl ⟨by rwa [List.append_nil] at hheld, hstray⟩
      · obtain ⟨rfl, rfl⟩ := List.cons.inj heq
        exact .inr ⟨more, stray, after, rfl, by rwa [← List.append_cons], hstray⟩

/-- **What the keyboard does.**  A modifier is down exactly if one of its keys has been pressed and none of them
released since, whichever of the two shift keys that was.  The driver reads past its table exactly if a stray key is
pressed while shift is down.  Otherwise the terminal shows the text of each key, as shift was when it was pressed,
in white or, for a backspace, in black. -/
theorem keyboard_run :
    ((keyboardRun .start codes).2.shiftPressed = true ↔ Held shiftOn shiftOff codes) ∧
    ((keyboardRun .start codes).2.ctrlPressed = true ↔ Held ctrlOn ctrlOff codes) ∧
    ((keyboardRun .start codes).2.altPressed = true ↔ Held altOn altOff codes) ∧
    ((keyboardRun .start codes).1 = none ↔
      ∃ before key after, codes = before ++ key :: after ∧ Held shiftOn shiftOff before ∧ key ∈ strayKeys) ∧
    ∀ calls, (keyboardRun .start codes).1 = some calls → ∃ bytes l, runLog stack calls = .ok bytes ∧
      Typed [] codes l ∧ feedAll home bytes = ⟨.text, none, l.flatMap Segment.seen⟩ := by
  rw [keyboardRun_snd]
  refine ⟨shiftPressed_iff, latch_run rfl (fun _ _ => press_ctrlPressed) codes,
    latch_run rfl (fun _ _ => press_altPressed) codes, keyboardRun_eq_none_iff [], fun calls hcalls => ?_⟩
  obtain ⟨htyped, hshow⟩ := keyboardRun_typed [] hcalls
  exact ⟨_, _, runLog_eq hshow, htyped, feedAll_segments (segments_plain hshow)⟩

end Texts

end Flopperating
