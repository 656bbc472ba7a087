/-
# Bitmaps over bytes

A map of bits kept in bytes, bit `i` in byte `i / 8`.  A run of bits is set or
cleared one bit after the other, and the first run of clear bits of a given
length is found by one pass over the map (`findRun`).
-/

import Mathlib.Algebra.Group.Nat.Defs
import Mathlib.Logic.Function.Basic
import Mathlib.Tactic.Set

namespace Bitmap

/-- The bytes of a map. -/
abbrev Bytes := ℕ → BitVec 8

/-- Bit `i`. -/
def bit (m : Bytes) (i : ℕ) : Bool := (m (i / 8)).getLsbD (i % 8)

/-- `m[i / 8] |= 1 << (i % 8)`, or `m[i / 8] &= ~(1 << (i % 8))`. -/
def setBit (m : Bytes) (i : ℕ) (v : Bool) : Bytes :=
  Function.update m (i / 8)
    (if v then m (i / 8) ||| (1#8 <<< (i % 8)) else m (i / 8) &&& ~~~ (1#8 <<< (i % 8)))

/-- Set or clear `count` bits from `start` on. -/
def setRun (m : Bytes) (start : ℕ) : ℕ → Bool → Bytes
  | 0, _ => m
  | count + 1, v => setRun (setBit m start v) (start + 1) count v

/-- The pass for a run of `needed` clear bits, at bit `i` with `rest` bits to go:
the last `run` bits, from `start` on, were clear. -/
def findRunFrom (m : Bytes) (needed : ℕ) : ℕ → ℕ → ℕ → ℕ → Option ℕ
  | 0, _, _, _ => none
  | rest + 1, i, run, start =>
    if bit m i = false then
      let start := if run = 0 then i else start
      if run + 1 ≥ needed then some start else findRunFrom m needed rest (i + 1) (run + 1) start
    else findRunFrom m needed rest (i + 1) 0 0

/-- The start of the first run of `needed` clear bits among `total`. -/
def findRun (m : Bytes) (total needed : ℕ) : Option ℕ := findRunFrom m needed total 0 0 0

/-- The first `bytes` bytes are zero. -/
def AllClear (m : Bytes) (bytes : ℕ) : Prop := ∀ i < bytes, m i = 0

instance (m : Bytes) (bytes : ℕ) : Decidable (AllClear m bytes) :=
  inferInstanceAs (Decidable (∀ i < bytes, m i = 0))

variable {m : Bytes} {i j start count needed total : ℕ} {v : Bool}

@[simp] theorem bit_setBit : bit (setBit m i v) j = if j = i then v else bit m j := by
  by_cases hbyte : j / 8 = i / 8
  · have hiff : j = i ↔ j % 8 = i % 8 := by omega
    have hj : j % 8 < 8 := Nat.mod_lt _ (by decide)
    have hone : (1#8 <<< (i % 8)).getLsbD (j % 8) = decide (j = i) := by
      rw [BitVec.getLsbD_shiftLeft, BitVec.getLsbD_one, Bool.eq_iff_iff]
      simp only [Bool.and_eq_true, decide_eq_true_eq, Bool.not_eq_true', decide_eq_false_iff_not]
      omega
    unfold bit setBit
    rw [hbyte, Function.update_self]
    cases v with
    | true =>
      rw [if_pos rfl, BitVec.getLsbD_or, hone]
      by_cases h : j = i <;> simp [h]
    | false =>
      rw [if_neg (by decide), BitVec.getLsbD_and, BitVec.getLsbD_not, hone]
      by_cases h : j = i <;> simp [h, hj]
  · have hne : j ≠ i := fun h => hbyte (by rw [h])
    rw [if_neg hne, bit, setBit, Function.update_of_ne hbyte, bit]

/-- **A run that is set or cleared**, and nothing else is. -/
theorem bit_setRun : bit (setRun m start count v) j =
    if start ≤ j ∧ j < start + count then v else bit m j := by
  induction count generalizing m start with
  | zero => rw [setRun, if_neg (by omega)]
  | succ count ih =>
    rw [setRun, ih, bit_setBit]
    by_cases h : start ≤ j ∧ j < start + (count + 1)
    · rw [if_pos h]
      split
      · rfl
      · rw [if_pos (by omega)]
    · rw [if_neg h, if_neg (by omega), if_neg (by omega)]

theorem findRunFrom_spec {rest run k : ℕ} (hneeded : 0 < needed) (hrun : run < needed)
    (hclear : ∀ j, start ≤ j → j < i → run ≠ 0 → bit m j = false) (hstart : run ≠ 0 → start + run = i)
    (h : findRunFrom m needed rest i run start = some k) :
    k + needed ≤ i + rest ∧ ∀ j, k ≤ j → j < k + needed → bit m j = false := by
  induction rest generalizing i run start with
  | zero => exact absurd h (by simp [findRunFrom])
  | succ rest ih =>
    unfold findRunFrom at h
    by_cases hbit : bit m i = false
    · rw [if_pos hbit] at h
      simp only at h
      set start' := if run = 0 then i else start with hs
      have hstart' : start' + (run + 1) = i + 1 := by
        rw [hs]
        split
        · omega
        · have := hstart ‹_›
          omega
      have hclear' : ∀ j, start' ≤ j → j < i + 1 → bit m j = false := fun j hj hj' => by
        by_cases hji : j = i
        · rw [hji, hbit]
        · by_cases h0 : run = 0
          · rw [if_pos h0] at hs
            omega
          · rw [if_neg h0] at hs
            exact hclear j (hs ▸ hj) (by omega) h0
      by_cases hdone : run + 1 ≥ needed
      · rw [if_pos hdone, Option.some.injEq] at h
        subst h
        exact ⟨by omega, fun j hj hj' => hclear' j hj (by omega)⟩
      · rw [if_neg hdone] at h
        obtain ⟨h₁, h₂⟩ := ih (by omega) (fun j hj hj' _ => hclear' j hj hj') (fun _ => hstart') h
        exact ⟨by omega, h₂⟩
    · rw [if_neg hbit] at h
      obtain ⟨h₁, h₂⟩ := ih hneeded (fun _ _ _ h0 => absurd rfl h0) (fun h0 => absurd rfl h0) h
      exact ⟨by omega, h₂⟩

/-- **A run that is found** lies in the map and is clear. -/
theorem findRun_spec {k : ℕ} (hneeded : 0 < needed) (h : findRun m total needed = some k) :
    k + needed ≤ total ∧ ∀ j, k ≤ j → j < k + needed → bit m j = false := by
  obtain ⟨h₁, h₂⟩ := findRunFrom_spec hneeded hneeded (fun _ _ _ h0 => absurd rfl h0)
    (fun h0 => absurd rfl h0) h
  exact ⟨by omega, h₂⟩

theorem findRunFrom_isSome {rest run k : ℕ} (hrun : run < needed) (hk : i ≤ k + run)
    (hend : k + needed ≤ i + rest) (hclear : ∀ j, k ≤ j → j < k + needed → bit m j = false) :
    (findRunFrom m needed rest i run start).isSome := by
  induction rest generalizing i run start with
  | zero => omega
  | succ rest ih =>
    unfold findRunFrom
    split
    · simp only
      split
      · rfl
      · exact ih (by omega) (by omega) (by omega)
    · next hset =>
      -- the bit is not one of the run, and the run lies ahead
      have hout : ¬ (k ≤ i ∧ i < k + needed) := fun h => hset (hclear i h.1 h.2)
      exact ih (by omega) (by omega) (by omega)

/-- **A run is found** when there is one. -/
theorem findRun_isSome_iff (hneeded : 0 < needed) : (findRun m total needed).isSome ↔
    ∃ k, k + needed ≤ total ∧ ∀ j, k ≤ j → j < k + needed → bit m j = false := by
  constructor
  · intro h
    obtain ⟨k, hk⟩ := Option.isSome_iff_exists.1 h
    exact ⟨k, findRun_spec hneeded hk⟩
  · rintro ⟨k, hend, hclear⟩
    exact findRunFrom_isSome hneeded (Nat.zero_le _) (by omega) hclear

/-- The bytes are zero exactly when their bits are clear. -/
theorem allClear_iff {bytes : ℕ} : AllClear m bytes ↔ ∀ j < 8 * bytes, bit m j = false := by
  constructor
  · intro h j hj
    rw [bit, h (j / 8) (by omega)]
    exact BitVec.getLsbD_zero
  · intro h i hi
    refine BitVec.eq_of_getLsbD_eq fun k hk => ?_
    have hbit := h (8 * i + k) (by omega)
    rw [bit, show (8 * i + k) / 8 = i by omega, show (8 * i + k) % 8 = k by omega] at hbit
    rw [hbit]
    exact BitVec.getLsbD_zero.symm

end Bitmap
