/-
# Numerals

The numeral of a number in a base, the highest digit in front.  There are no
leading zeros, and `0` has one digit.  A digit `d` is written as `digit d`.
-/

import Mathlib.Data.Nat.Digits.Lemmas

namespace Numeral

variable {α : Type*} {base n k : ℕ} {digit : ℕ → α}

/-- The numeral of `n`. -/
def numeral (base : ℕ) (digit : ℕ → α) (n : ℕ) : List α :=
  if n = 0 then [digit 0] else ((Nat.digits base n).map digit).reverse

theorem numeral_of_ne_zero (hn : n ≠ 0) : numeral base digit n = ((Nat.digits base n).map digit).reverse :=
  if_neg hn

theorem numeral_of_lt (h : n < base) : numeral base digit n = [digit n] := by
  unfold numeral
  split_ifs with hn
  · rw [hn]
  · rw [Nat.digits_of_lt _ _ hn h, List.map_singleton, List.reverse_singleton]

/-- **The lowest digit stands at the end.** -/
theorem numeral_of_le (hbase : 2 ≤ base) (h : base ≤ n) :
    numeral base digit n = numeral base digit (n / base) ++ [digit (n % base)] := by
  have hquot : n / base ≠ 0 := (Nat.div_pos h (by omega)).ne'
  rw [numeral_of_ne_zero (by omega), numeral_of_ne_zero hquot,
    Nat.digits_of_two_le_of_pos hbase (by omega), List.map_cons, List.reverse_cons]

theorem mem_numeral (hbase : 2 ≤ base) {c : α} (h : c ∈ numeral base digit n) : ∃ d, d < base ∧ c = digit d := by
  unfold numeral at h
  split_ifs at h with hn
  · exact ⟨0, by omega, List.mem_singleton.1 h⟩
  · obtain ⟨d, hd, rfl⟩ := List.mem_map.1 (List.mem_reverse.1 h)
    exact ⟨d, Nat.digits_lt_base (by omega) hd, rfl⟩

theorem length_numeral_le (hbase : 2 ≤ base) (hk : 0 < k) (h : n < base ^ k) :
    (numeral base digit n).length ≤ k := by
  unfold numeral
  split_ifs with hn
  · exact hk
  · rw [List.length_reverse, List.length_map]
    exact (Nat.digits_length_le_iff (by omega) n).2 h

/-- **The first digit of a positive number is not `0`.** -/
theorem head_numeral (hbase : 2 ≤ base) (hn : 0 < n) :
    ∃ d rest, 0 < d ∧ d < base ∧ numeral base digit n = digit d :: rest := by
  induction n using Nat.strong_induction_on with
  | _ n ih =>
    rcases Nat.lt_or_ge n base with hlt | hge
    · exact ⟨n, [], hn, hlt, numeral_of_lt hlt⟩
    · obtain ⟨d, rest, hd, hdlt, heq⟩ := ih (n / base) (Nat.div_lt_self hn (by omega)) (Nat.div_pos hge (by omega))
      exact ⟨d, rest ++ [digit (n % base)], hd, hdlt, by rw [numeral_of_le hbase hge, heq, List.cons_append]⟩

theorem length_numeral_pos (hbase : 2 ≤ base) : 0 < (numeral base digit n).length := by
  rcases Nat.eq_zero_or_pos n with rfl | hn
  · exact Nat.one_pos
  · obtain ⟨d, rest, -, -, heq⟩ : ∃ d rest, 0 < d ∧ d < base ∧ numeral base digit n = digit d :: rest :=
      head_numeral hbase hn
    rw [heq, List.length_cons]
    exact Nat.succ_pos _

theorem map_numeral : (numeral base id n).map digit = numeral base digit n := by
  unfold numeral
  split_ifs
  · rfl
  · rw [List.map_reverse, List.map_id]

/-- **Reading the digits from the first to the last gives the number back.** -/
theorem foldl_numeral (hbase : 2 ≤ base) : (numeral base id n).foldl (fun a d => a * base + d) 0 = n := by
  induction n using Nat.strong_induction_on with
  | _ n ih =>
    rcases Nat.lt_or_ge n base with hlt | hge
    · rw [numeral_of_lt hlt, List.foldl_cons, List.foldl_nil, Nat.zero_mul, Nat.zero_add]
      rfl
    · rw [numeral_of_le hbase hge, List.foldl_append, ih (n / base) (Nat.div_lt_self (by omega) (by omega)),
        List.foldl_cons, List.foldl_nil]
      exact Nat.div_add_mod' n base

end Numeral
