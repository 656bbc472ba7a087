/-
# Coloured text

A terminal that follows the control sequences for colours.  `ESC [ 38 ; 5 ; n m` selects colour `n`
and `ESC [ 0 m` the default rendition; what is not part of a control sequence is shown as it is.

A text in colours is a list of segments.  Each one is sent with its colour in front and a reset
behind, and the terminal shows the characters of the segments, each in the colour of its own
segment, and is left as it was.
-/

import Flopperating.Data.Numeral
import Mathlib.Data.UInt

namespace ColoredText

open Numeral

/-- `ESC`. -/
def esc : UInt8 := 27

/-- Where a terminal is in its input. -/
inductive Mode
  | text
  | escape
  | sequence (params : List ℕ) (param : ℕ)
  deriving DecidableEq

/-- A terminal: the colour that is selected, and what has been shown. -/
structure Terminal where
  mode : Mode
  colour : Option ℕ
  shown : List (UInt8 × Option ℕ)
  deriving DecidableEq

/-- A terminal that has been reset. -/
def home : Terminal := ⟨.text, none, []⟩

/-- The parameters of a sequence that ends in `m`. -/
def selectColour : Option ℕ → List ℕ → Option ℕ
  | colour, [] => colour
  | _, 38 :: 5 :: n :: params => selectColour (some n) params
  | _, 0 :: params => selectColour none params
  | colour, _ :: params => selectColour colour params

/-- A terminal reads a byte. -/
def feed (t : Terminal) (c : UInt8) : Terminal :=
  match t.mode with
  | .text => if c = esc then { t with mode := .escape } else { t with shown := t.shown ++ [(c, t.colour)] }
  | .escape => { t with mode := if c = '['.toUInt8 then .sequence [] 0 else .text }
  | .sequence params param =>
    if '0'.toUInt8 ≤ c ∧ c ≤ '9'.toUInt8 then { t with mode := .sequence params (param * 10 + (c.toNat - 48)) }
    else if c = ';'.toUInt8 then { t with mode := .sequence (params ++ [param]) 0 }
    else if c = 'm'.toUInt8 then { t with mode := .text, colour := selectColour t.colour (params ++ [param]) }
    else if 64 ≤ c ∧ c ≤ 126 then { t with mode := .text }
    else t

/-- And one byte after the other. -/
def feedAll (t : Terminal) (bytes : List UInt8) : Terminal := bytes.foldl feed t

/-- A digit. -/
def digitByte (d : ℕ) : UInt8 := .ofNat (48 + d)

/-- The sequence that selects a colour. -/
def setColour (n : ℕ) : List UInt8 :=
  esc :: ("[38;5;".toList.map Char.toUInt8 ++ numeral 10 digitByte n ++ ['m'.toUInt8])

/-- The sequence that selects the default rendition. -/
def reset : List UInt8 := esc :: "[0m".toList.map Char.toUInt8

/-- Some text in a colour. -/
structure Segment where
  text : List UInt8
  colour : ℕ
  deriving DecidableEq

namespace Segment

/-- What is sent. -/
def bytes (s : Segment) : List UInt8 := setColour s.colour ++ s.text ++ reset

/-- What should be seen. -/
def seen (s : Segment) : List (UInt8 × Option ℕ) := s.text.map fun c => (c, some s.colour)

end Segment

section Feed

variable {t : Terminal} {xs ys : List UInt8} {n param : ℕ} {params : List ℕ} {colour : Option ℕ}
  {shown : List (UInt8 × Option ℕ)}

theorem feedAll_append : feedAll t (xs ++ ys) = feedAll (feedAll t xs) ys := List.foldl_append

/-- Text is shown as it is. -/
theorem feedAll_text (hxs : esc ∉ xs) :
    feedAll ⟨.text, colour, shown⟩ xs = ⟨.text, colour, shown ++ xs.map fun c => (c, colour)⟩ := by
  induction xs generalizing shown with
  | nil => rw [List.map_nil, List.append_nil, feedAll, List.foldl_nil]
  | cons c xs ih =>
    obtain ⟨hc, hxs⟩ := not_or.1 (mt List.mem_cons.2 hxs)
    have hfeed : feed ⟨.text, colour, shown⟩ c = ⟨.text, colour, shown ++ [(c, colour)]⟩ := if_neg (Ne.symm hc)
    rw [feedAll, List.foldl_cons, hfeed, ← feedAll, ih hxs, List.map_cons, List.append_assoc, List.singleton_append]

theorem digitByte_spec {d : ℕ} (hd : d < 10) :
    ('0'.toUInt8 ≤ digitByte d ∧ digitByte d ≤ '9'.toUInt8) ∧ (digitByte d).toNat - 48 = d := by
  revert d
  decide

/-- A digit adds to the parameter. -/
theorem feed_digit {d : ℕ} (hd : d < 10) :
    feed ⟨.sequence params param, colour, shown⟩ (digitByte d) = ⟨.sequence params (param * 10 + d), colour, shown⟩ := by
  obtain ⟨hdigit, hval⟩ := digitByte_spec hd
  refine (if_pos hdigit).trans ?_
  rw [hval]

/-- And the digits of a numeral make up the number. -/
theorem feedAll_digits {digits : List ℕ} (h : ∀ d ∈ digits, d < 10) :
    feedAll ⟨.sequence params param, colour, shown⟩ (digits.map digitByte) =
      ⟨.sequence params (digits.foldl (fun a d => a * 10 + d) param), colour, shown⟩ := by
  induction digits generalizing param with
  | nil => rfl
  | cons d digits ih =>
    rw [List.map_cons, feedAll, List.foldl_cons, feed_digit (h d List.mem_cons_self), ← feedAll,
      ih fun e he => h e (List.mem_cons_of_mem _ he), List.foldl_cons]

theorem feedAll_setColour : feedAll ⟨.text, colour, shown⟩ (setColour n) = ⟨.text, some n, shown⟩ := by
  have hlead : feedAll ⟨.text, colour, shown⟩ (esc :: "[38;5;".toList.map Char.toUInt8) =
      ⟨.sequence [38, 5] 0, colour, shown⟩ := rfl
  have hdigits : ∀ d ∈ numeral 10 id n, d < 10 := by
    intro d hd
    obtain ⟨e, he, rfl⟩ := mem_numeral (by decide) hd
    exact he
  rw [setColour, ← List.cons_append, ← List.cons_append, feedAll_append, feedAll_append, hlead,
    ← map_numeral, feedAll_digits hdigits, foldl_numeral (by decide)]
  rfl

theorem feedAll_reset : feedAll ⟨.text, colour, shown⟩ reset = ⟨.text, none, shown⟩ := rfl

/-- **A segment is seen in its colour.** -/
theorem feedAll_segment {s : Segment} (hs : esc ∉ s.text) :
    feedAll ⟨.text, colour, shown⟩ s.bytes = ⟨.text, none, shown ++ s.seen⟩ := by
  rw [Segment.bytes, feedAll_append, feedAll_append, feedAll_setColour, feedAll_text hs, feedAll_reset]
  rfl

/-- **Segments are seen one behind the other, each in its own colour.** -/
theorem feedAll_segments {l : List Segment} (hl : ∀ s ∈ l, esc ∉ s.text) :
    feedAll ⟨.text, none, shown⟩ (l.flatMap Segment.bytes) = ⟨.text, none, shown ++ l.flatMap Segment.seen⟩ := by
  induction l generalizing shown with
  | nil => exact congrArg _ (List.append_nil shown).symm
  | cons s l ih =>
    rw [List.flatMap_cons, feedAll_append, feedAll_segment (hl s List.mem_cons_self),
      ih fun s' hs' => hl s' (List.mem_cons_of_mem _ hs'), List.flatMap_cons, List.append_assoc]

/-- **A segment that is cut short inside of its text leaves its colour behind.** -/
theorem feedAll_cut {s : Segment} {k : ℕ} (hs : esc ∉ s.text) (hk : k ≤ s.text.length) :
    feedAll ⟨.text, colour, shown⟩ (s.bytes.take ((setColour s.colour).length + k)) =
      ⟨.text, some s.colour, shown ++ s.seen.take k⟩ := by
  rw [Segment.bytes, List.append_assoc, List.take_length_add_append, List.take_append_of_le_length hk, feedAll_append,
    feedAll_setColour, feedAll_text fun h => hs (List.mem_of_mem_take h), Segment.seen, List.map_take]

end Feed

theorem length_setColour {n : ℕ} : (setColour n).length = (numeral 10 digitByte n).length + 8 := by
  rw [setColour, List.length_cons, List.length_append, List.length_append]
  change 6 + _ + 1 + 1 = _
  omega

end ColoredText
