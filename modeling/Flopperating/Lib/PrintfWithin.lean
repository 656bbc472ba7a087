/-
# Printing stays within its buffers

A run stays within its buffers exactly if every item that it comes to is safe
in the room that is left, and the length that is returned is an `int`.  The
items in front of the end of the buffer decide: behind it nothing is looked at.
-/

import Flopperating.Lib.PrintfSpec

namespace Flopperating

open BoundedBuffer

section Runs

variable {size k : ℕ} {args : VaList} {stack : ℕ → UInt8} {items : List PrintItem} {out : List UInt8}

/-- **Safe items print their pieces as far as there is room.** -/
theorem runItems_safe (hout : out.length ≤ size - 1) (hsafe : ItemsSafe args stack k (size - 1 - out.length) items) :
    runItems size args stack k items out =
      .ok (out ++ (pieces args stack k items).take (size - 1 - out.length)) := by
  induction items generalizing k out with
  | nil => rw [runItems, pieces, List.take_nil, List.append_nil]
  | cons item items ih =>
    rcases Nat.eq_or_lt_of_le hout with hfull | hroom
    · rw [runItems_of_le hfull.ge, hfull, Nat.sub_self, List.take_zero, List.append_nil]
    · obtain hzero | ⟨hitem, hrest⟩ := hsafe
      · omega
      · have hlen : (out ++ (item.piece args stack k).take (size - 1 - out.length)).length =
            out.length + min (size - 1 - out.length) (item.piece args stack k).length := by
          rw [List.length_append, List.length_take]
        have hleft : size - 1 - (out ++ (item.piece args stack k).take (size - 1 - out.length)).length =
            size - 1 - out.length - (item.piece args stack k).length := by omega
        rw [runItems, if_neg (Nat.not_le.2 hroom), PrintItem.run_safe hroom hitem, ok_bind,
          ih (by omega) (by rwa [hleft]), hleft, pieces, List.take_append, List.append_assoc]

/-- **An item that is not safe ends in a fault or fills the buffer.** -/
theorem runItems_overruns (hout : out.length ≤ size - 1)
    (hover : ¬ ItemsSafe args stack k (size - 1 - out.length) items) :
    (∃ fault, runItems size args stack k items out = .error fault) ∨
      ∃ rest, runItems size args stack k items out = .ok rest ∧ rest.length = size := by
  induction items generalizing k out with
  | nil => exact absurd trivial hover
  | cons item items ih =>
    obtain ⟨hroom, hover⟩ := not_or.1 hover
    have hroom : out.length < size - 1 := by omega
    rw [runItems, if_neg (Nat.not_le.2 hroom)]
    by_cases hitem : item.Safe (size - 1 - out.length)
    · have hlen : (out ++ (item.piece args stack k).take (size - 1 - out.length)).length =
          out.length + min (size - 1 - out.length) (item.piece args stack k).length := by
        rw [List.length_append, List.length_take]
      rw [PrintItem.run_safe hroom hitem, ok_bind]
      refine ih (by omega) fun hrest => hover ⟨hitem, ?_⟩
      rwa [show size - 1 - (out ++ (item.piece args stack k).take (size - 1 - out.length)).length =
        size - 1 - out.length - (item.piece args stack k).length by omega] at hrest
    · obtain ⟨fault, hrun⟩ | ⟨rest, hrun, hfull⟩ := PrintItem.run_overruns hroom hitem
      · exact .inl ⟨fault, by rw [hrun, error_bind]⟩
      · exact .inr ⟨out ++ rest, by rw [hrun, ok_bind, runItems_of_le (by omega)], hfull⟩

end Runs

section Within

variable {size : ℕ} {args : VaList} {stack : ℕ → UInt8} {format : CString}

theorem i32_of_lt {n : ℕ} (h : n < 2 ^ 31) : i32 n = n := by
  unfold i32
  rw [Int.bmod_eq_of_le] <;> omega

theorem i32_eq_iff {n : ℕ} : i32 n = n ↔ n < 2 ^ 31 := by
  refine ⟨fun heq => ?_, i32_of_lt⟩
  have hlt : i32 n < 2 ^ 31 := Int.bmod_lt (by decide)
  omega

/-- The run ends, within the buffers, and returns the index of the `NUL`. -/
def PrintsWithin (size : ℕ) (result : Except PrintFault (List UInt8 × ℤ)) : Prop :=
  ∃ out, result = .ok (out, (out.length : ℤ)) ∧ out.length < size

/-- What is printed of the items of a format. -/
def printed (size : ℕ) (args : VaList) (stack : ℕ → UInt8) (format : CString) : List UInt8 :=
  (pieces args stack 0 (printItems format)).take (size - 1)

theorem flopvsnprintf_safe (hsize : 0 < size) (hsafe : ItemsSafe args stack 0 (size - 1) (printItems format)) :
    flopvsnprintf size args stack format =
      .ok (printed size args stack format, i32 (printed size args stack format).length) := by
  have hlen : (printed size args stack format).length < size := by
    rw [printed, List.length_take]
    omega
  have hrun : flopvsnprintfFrom size args stack format.length 0 format [] = .ok (printed size args stack format) :=
    (flopvsnprintfFrom_eq le_rfl).trans (runItems_safe (Nat.zero_le _) hsafe)
  rw [flopvsnprintf, hrun, ok_bind, terminate_of_lt hlen]
  rfl

theorem flopvsnprintf_overruns (hover : ¬ ItemsSafe args stack 0 (size - 1) (printItems format)) :
    ∃ fault, flopvsnprintf size args stack format = .error fault := by
  rw [flopvsnprintf, flopvsnprintfFrom_eq le_rfl]
  obtain ⟨fault, hrun⟩ | ⟨rest, hrun, hfull⟩ :
      (∃ fault, runItems size args stack 0 (printItems format) [] = .error fault) ∨
        ∃ rest, runItems size args stack 0 (printItems format) [] = .ok rest ∧ rest.length = size :=
    runItems_overruns (Nat.zero_le _) hover
  · exact ⟨fault, congrArg (· >>= _) hrun⟩
  · refine ⟨.buffer, (congrArg (· >>= _) hrun).trans ?_⟩
    rw [ok_bind, terminate_of_le hfull.ge, error_bind]

/-- **Printing stays within its buffers exactly for safe items and a length that an `int` can hold.** -/
theorem flopvsnprintf_within_iff (hsize : 0 < size) :
    PrintsWithin size (flopvsnprintf size args stack format) ↔
      ItemsSafe args stack 0 (size - 1) (printItems format) ∧
        (size ≤ 2 ^ 31 ∨ (pieces args stack 0 (printItems format)).length < 2 ^ 31) := by
  have hlen : (printed size args stack format).length =
      min (size - 1) (pieces args stack 0 (printItems format)).length := List.length_take
  constructor
  · rintro ⟨out, hrun, -⟩
    by_cases hsafe : ItemsSafe args stack 0 (size - 1) (printItems format)
    · rw [flopvsnprintf_safe hsize hsafe] at hrun
      obtain ⟨rfl, hint⟩ := Prod.mk.inj (Except.ok.inj hrun)
      have hlt := i32_eq_iff.1 hint
      exact ⟨hsafe, by omega⟩
    · obtain ⟨fault, hfault⟩ := flopvsnprintf_overruns hsafe
      cases hfault.symm.trans hrun
  · rintro ⟨hsafe, hint⟩
    exact ⟨_, by rw [flopvsnprintf_safe hsize hsafe, i32_of_lt (by omega)], by omega⟩

end Within

/-- The arguments of a call with numbers only. -/
def numbers (words : List UInt32) : VaList := ⟨fun k => words.getD k 0, fun _ => []⟩

theorem timeFormat_within :
    PrintsWithin 9 (flopvsnprintf 9 (numbers [7, 30, 59]) (fun _ => 0) (ascii "%02d:%02d:%02d")) :=
  (flopvsnprintf_within_iff (by decide)).2 (by decide +kernel)

/-- The character stands in `buffer[4]`, and the `NUL` goes behind the end. -/
theorem flopvsnprintf_char_overruns :
    ¬ PrintsWithin 5 (flopvsnprintf 5 (numbers [65]) (fun _ => 0) (ascii "%5c")) := by
  rintro ⟨out, hrun, -⟩
  have hfault : flopvsnprintf 5 (numbers [65]) (fun _ => 0) (ascii "%5c") = .error .buffer := by decide +kernel
  cases hfault.symm.trans hrun

end Flopperating
