/-
# Reversal in place

Two indices start at the ends of a part of an array and move towards each other; what they point to
is swapped until they meet.  That reverses the part and leaves the rest as it was.
-/

import Mathlib.Data.List.Basic

namespace Reversal

variable {α : Type*}

/-- Swap two elements. -/
def swap (xs : List α) (i j : ℕ) : List α :=
  (xs[i]?).elim xs fun a => (xs[j]?).elim xs fun b => (xs.set i b).set j a

/-- `for (; i < j; i++, j--)` with a swap in the body, for at most `fuel` rounds. -/
def swapLoop : ℕ → ℕ → ℕ → List α → List α
  | 0, _, _, xs => xs
  | fuel + 1, i, j, xs => if i < j then swapLoop fuel (i + 1) (j - 1) (swap xs i j) else xs

variable {xs : List α} {i j k fuel : ℕ}

theorem length_swap : (swap xs i j).length = xs.length := by
  unfold swap
  cases xs[i]? with
  | none => rfl
  | some a =>
    cases xs[j]? with
    | none => rfl
    | some b => exact List.length_set.trans List.length_set

theorem getElem?_swap (hi : i < xs.length) (hj : j < xs.length) :
    (swap xs i j)[k]? = if k = j then xs[i]? else if k = i then xs[j]? else xs[k]? := by
  rw [swap, List.getElem?_eq_getElem hi, List.getElem?_eq_getElem hj]
  change ((xs.set i xs[j]).set j xs[i])[k]? = _
  rw [List.getElem?_set, List.getElem?_set, List.length_set]
  grind

/-- **The loop reverses what is between the indices.** -/
theorem getElem?_swapLoop (hj : j < xs.length) (hfuel : j ≤ i + fuel) :
    (swapLoop fuel i j xs)[k]? = if i ≤ k ∧ k ≤ j then xs[i + j - k]? else xs[k]? := by
  induction fuel generalizing i j xs with
  | zero =>
    rw [swapLoop]
    split_ifs with hk
    · rw [show i + j - k = k by omega]
    · rfl
  | succ fuel ih =>
    rw [swapLoop]
    split_ifs with hlt hk hk
    · rw [ih (by rw [length_swap]; omega) (by omega), getElem?_swap (Nat.lt_trans hlt hj) hj, getElem?_swap (Nat.lt_trans hlt hj) hj]
      grind
    · rw [ih (by rw [length_swap]; omega) (by omega), getElem?_swap (Nat.lt_trans hlt hj) hj, getElem?_swap (Nat.lt_trans hlt hj) hj]
      grind
    · rw [show i + j - k = k by omega]
    · rfl

/-- **From end to end, it reverses the array.** -/
theorem swapLoop_eq_reverse (hfuel : xs.length ≤ fuel + 1) : swapLoop fuel 0 (xs.length - 1) xs = xs.reverse := by
  rcases Nat.eq_zero_or_pos xs.length with hnil | hpos
  · obtain rfl := List.length_eq_zero_iff.1 hnil
    cases fuel <;> rfl
  · refine List.ext_getElem? fun k => ?_
    rw [getElem?_swapLoop (by omega) (by omega)]
    rcases Nat.lt_or_ge k xs.length with hk | hk
    · rw [if_pos ⟨Nat.zero_le k, by omega⟩, List.getElem?_reverse hk, Nat.zero_add]
    · rw [if_neg (by omega), List.getElem?_eq_none hk, List.getElem?_eq_none (by rwa [List.length_reverse])]

end Reversal
