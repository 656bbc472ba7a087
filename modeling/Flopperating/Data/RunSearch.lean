/-
# Searching for a run

A walk over the places `lo`, `lo + 1`, … that looks for `n` places in a row that are
free, beginning at a place where a run may begin.  It counts the free places behind it;
at a place that is not free the count begins anew, and the walk may leap over places
where no run may begin.  `Searched` is what the walk knows, and each way of going on
keeps it.  When the count is full the run is the first one (`Searched.found`).  Where a
run may begin at the multiples of `m` only, the walk leaps to the next of them.
-/

import Mathlib.Order.Bounds.Basic

namespace RunSearch

/-- The `n` places from `p` on are free. -/
def Run (free : ℕ → Prop) (n p : ℕ) : Prop := ∀ q, p ≤ q → q < p + n → free q

/-- The runs from `lo` on. -/
def runs (free start : ℕ → Prop) (n lo : ℕ) : Set ℕ := {p | lo ≤ p ∧ start p ∧ Run free n p}

/-- The walk is at `q` and has counted `k` free places; there is no run in front of them. -/
structure Searched (free start : ℕ → Prop) (n lo q k : ℕ) : Prop where
  le : lo + k ≤ q
  lt : k < n
  clear : ∀ i, q - k ≤ i → i < q → free i
  begins : 0 < k → start (q - k)
  least : ∀ p, p ∈ runs free start n lo → q - k ≤ p

variable {free start : ℕ → Prop} {n lo q k p : ℕ}

/-- At the first place. -/
theorem Searched.zero (hn : 0 < n) : Searched free start n lo lo 0 where
  le := Nat.le_refl lo
  lt := hn
  clear _ hi hlt := absurd hi (Nat.not_le.2 hlt)
  begins h := absurd h (Nat.lt_irrefl 0)
  least _ hp := hp.1

namespace Searched

variable (h : Searched free start n lo q k)

include h

/-- The free places with one more. -/
theorem free_succ (hq : free q) {i : ℕ} (hi : q - k ≤ i) (hlt : i < q + 1) : free i :=
  (Nat.lt_succ_iff_lt_or_eq.1 hlt).elim (h.clear i hi) fun heq => heq ▸ hq

/-- Where the places that are counted begin, a run may begin. -/
theorem begins_of (hstart : k = 0 → start q) : start (q - k) := by
  rcases Nat.eq_zero_or_pos k with rfl | hpos
  · exact hstart rfl
  · exact h.begins hpos

/-- **A free place.** -/
theorem extend (hq : free q) (hstart : k = 0 → start q) (hk : k + 1 < n) : Searched free start n lo (q + 1) (k + 1) where
  le := by have := h.le; omega
  lt := hk
  clear i hi hlt := h.free_succ hq (by omega) hlt
  begins _ := by
    rw [Nat.add_sub_add_right]
    exact h.begins_of hstart
  least p hp := by
    rw [Nat.add_sub_add_right]
    exact h.least p hp

/-- **The last free place of the first run.** -/
theorem found (hq : free q) (hstart : k = 0 → start q) (hk : n ≤ k + 1) : IsLeast (runs free start n lo) (q - k) := by
  have hle := h.le
  exact ⟨⟨by omega, h.begins_of hstart, fun i hi hlt => h.free_succ hq hi (by omega)⟩, fun p hp => h.least p hp⟩

/-- No run has a place that is not free. -/
theorem lt_of_not_free (hq : ¬ free q) (hp : p ∈ runs free start n lo) : q < p := by
  refine Nat.lt_of_not_le fun hle => hq (hp.2.2 q hle ?_)
  have hbegin := h.least p hp
  have hlt := h.lt
  omega

/-- **A place that is not free**, and those behind it where no run may begin. -/
theorem block {q' : ℕ} (hq : ¬ free q) (hlt : q < q') (hleap : ∀ p, q < p → p < q' → ¬ start p) :
    Searched free start n lo q' 0 where
  le := by have := h.le; omega
  lt := Nat.zero_lt_of_lt h.lt
  clear i hi hlt' := absurd hi (Nat.not_le.2 hlt')
  begins h0 := absurd h0 (Nat.lt_irrefl 0)
  least p hp := Nat.le_of_not_lt fun hp' => hleap p (h.lt_of_not_free hq hp) hp' hp.2.1

/-- **A place where no run may begin**, with nothing counted. -/
theorem skip (hk : k = 0) (hq : ¬ start q) : Searched free start n lo (q + 1) 0 where
  le := by have := h.le; omega
  lt := Nat.zero_lt_of_lt h.lt
  clear _ hi hlt := absurd hi (Nat.not_le.2 hlt)
  begins h0 := absurd h0 (Nat.lt_irrefl 0)
  least p hp := by
    have hle := h.least p hp
    rcases Nat.eq_or_lt_of_le hle with heq | hlt
    · rw [hk, Nat.sub_zero] at heq
      exact absurd (heq ▸ hp.2.1) hq
    · omega

end Searched

/-! ### Multiples -/

/-- The place the walk leaps to from `q`: the next place, or the next multiple of `m`. -/
def leap (m q : ℕ) : ℕ := if m ∣ q then q + 1 else (q / m + 1) * m

section Leap

variable {m c : ℕ}

theorem lt_leap (hm : 0 < m) (q : ℕ) : q < leap m q := by
  unfold leap
  split_ifs with hdvd
  · exact Nat.lt_succ_self q
  · exact Nat.lt_mul_of_div_lt (Nat.lt_succ_self _) hm

/-- No multiple of `m` is leapt over. -/
theorem leap_le (hc : m ∣ c) (hlt : q < c) : leap m q ≤ c := by
  unfold leap
  split_ifs with hdvd
  · exact hlt
  · obtain ⟨t, rfl⟩ := hc
    rw [Nat.mul_comm m]
    exact Nat.mul_le_mul_right m (Nat.div_lt_of_lt_mul hlt)

theorem not_dvd_of_lt_leap (hlt : q < p) (hleap : p < leap m q) : ¬ m ∣ p := fun hdvd =>
  Nat.not_le.2 hleap (leap_le hdvd hlt)

/-- The last multiple in front of a multiple. -/
theorem le_sub_of_dvd (hc : m ∣ c) (hp : m ∣ p) (hlt : p < c) : p ≤ c - m := by
  have hle := Nat.le_of_dvd (Nat.sub_pos_of_lt hlt) (Nat.dvd_sub hc hp)
  omega

/-- From behind it the walk leaps to the next. -/
theorem leap_eq (hm : 0 < m) (hc : m ∣ c) (hgt : c - m < q) (hlt : q < c) : leap m q = c := by
  have hdvd : ¬ m ∣ q := fun hdvd => Nat.not_le.2 hgt (le_sub_of_dvd hc hdvd hlt)
  refine Nat.le_antisymm (leap_le hc hlt) (Nat.not_lt.1 fun hleap => ?_)
  have hmultiple : m ∣ leap m q := by
    rw [leap, if_neg hdvd]
    exact Nat.dvd_mul_left _ _
  exact Nat.not_le.2 (hgt.trans (lt_leap hm q)) (le_sub_of_dvd hc hmultiple hleap)

end Leap

end RunSearch
