/-
# The first aligned range

`vmm_find_free_range_aligned` begins at `next_free_va`, rounded up, or at `base_va`, and
looks for a range at a multiple of `alignment`.  Where the count breaks off, the walk
leaps to the next multiple.  Rounding is in 32 bits: behind the last multiple comes `0`,
so that the walk may come round and search below the address it began at, and it may then
go round for ever.
-/

import Flopperating.Mem.VmmFreeRange

namespace Flopperating

open RunSearch Vmm

variable {σ : Vmm} {d j k lo m n p q r start steps u va x : ℕ}

/-! ### Rounding -/

theorem and_clearLow (hx : x < 2 ^ 32) {e : ℕ} (he : e ≤ 32) :
    x &&& (2 ^ 32 - 1 - (2 ^ e - 1)) = x / 2 ^ e * 2 ^ e := by
  have hmask : 2 ^ 32 - 1 - (2 ^ e - 1) = (2 ^ (32 - e) - 1) * 2 ^ e := by
    have hpow : 2 ^ (32 - e) * 2 ^ e = 2 ^ 32 := by rw [← pow_add, Nat.sub_add_cancel he]
    have hpos : 0 < 2 ^ e := Nat.two_pow_pos e
    rw [Nat.sub_mul, hpow]
    omega
  rw [hmask]
  refine Nat.eq_of_testBit_eq fun i => ?_
  rw [Nat.testBit_and, Nat.testBit_mul_two_pow, Nat.testBit_mul_two_pow, Nat.testBit_two_pow_sub_one,
    Nat.testBit_div_two_pow]
  by_cases hle : e ≤ i
  · by_cases hlt : i < 32
    · simp [hle, Nat.sub_add_cancel hle, show i - e < 32 - e by omega]
    · have hhigh : x.testBit i = false :=
        Nat.testBit_lt_two_pow (hx.trans_le (Nat.pow_le_pow_right Nat.two_pos (Nat.not_lt.1 hlt)))
      simp [hle, Nat.sub_add_cancel hle, hhigh]
  · simp [hle]

/-- **Rounding up**, in 32 bits. -/
theorem vmmRoundUp_eq {e : ℕ} (he : e ≤ 32) (hva : ¬ 2 ^ e ∣ va) :
    vmmRoundUp va (2 ^ e) = u32 ((va / 2 ^ e + 1) * 2 ^ e) := by
  have hpos : 0 < 2 ^ e := Nat.two_pow_pos e
  have hpow : 2 ^ 32 = 2 ^ e * 2 ^ (32 - e) := by rw [← pow_add, Nat.add_sub_cancel' he]
  have hrest : 0 < va % 2 ^ e := Nat.pos_of_ne_zero fun h => hva (Nat.dvd_of_mod_eq_zero h)
  have hsum : va + 2 ^ e - 1 = (va % 2 ^ e - 1) + 2 ^ e * (va / 2 ^ e + 1) := by
    have hdiv := Nat.mod_add_div va (2 ^ e)
    rw [Nat.mul_succ]
    omega
  have hdiv : (va + 2 ^ e - 1) / 2 ^ e = va / 2 ^ e + 1 := by
    rw [hsum, Nat.add_mul_div_left _ _ hpos, Nat.div_eq_of_lt ((Nat.sub_le _ _).trans_lt (Nat.mod_lt _ hpos)),
      Nat.zero_add]
  have hlt : u32 (va + 2 ^ e - 1) < 2 ^ 32 := Nat.mod_lt _ (by decide)
  rw [vmmRoundUp, and_clearLow hlt he, u32, u32, hpow, Nat.mod_mul_right_div_self, hdiv,
    Nat.mul_comm (2 ^ e) (2 ^ (32 - e)), Nat.mul_mod_mul_right]

/-! ### The walk -/

/-- Page `p` is not mapped and lies below the last page. -/
def FreeBelow (σ : Vmm) (d p : ℕ) : Prop := p < 2 ^ 20 - 1 ∧ present (σ.word d p) = false

/-- The first pages of the ranges from page `lo` on. -/
abbrev alignedRuns (σ : Vmm) (d m n lo : ℕ) : Set ℕ := runs (FreeBelow σ d) (m ∣ ·) n lo

/-- The walk at page `q` has counted `k` pages. -/
abbrev AlignedWalk (r m n : ℕ) (σ : Vmm) (lo q k : ℕ) : Prop :=
  Searched (FreeBelow σ (σ.region r).pgDir) (m ∣ ·) n lo q k

section Walk

variable (hl : Loaded σ r) (hj : j ≤ 19)

theorem pageSize_mul_two_pow (j : ℕ) : 2 ^ j * pageSize = 2 ^ (j + 12) := by
  rw [pow_add]
  rfl

/-- The leap, in addresses. -/
theorem vmmRoundUp_leap (hj : j ≤ 19) (hq : ¬ 2 ^ j ∣ q) :
    u32 (u32 (vmmRoundUp (q * pageSize) (2 ^ j * pageSize) + 2 ^ 32 - pageSize) + pageSize) =
      leap (2 ^ j) q % 2 ^ 20 * pageSize := by
  have hdvd : ¬ 2 ^ (j + 12) ∣ q * pageSize := by
    rw [← pageSize_mul_two_pow]
    exact fun h => hq (Nat.dvd_of_mul_dvd_mul_right (by decide) h)
  have hround : vmmRoundUp (q * pageSize) (2 ^ (j + 12)) = leap (2 ^ j) q % 2 ^ 20 * pageSize := by
    rw [vmmRoundUp_eq (by omega) hdvd, ← pageSize_mul_two_pow, Nat.mul_div_mul_right _ _ (by decide : 0 < pageSize),
      ← Nat.mul_assoc, leap, if_neg hq]
    exact Nat.mul_mod_mul_right pageSize _ (2 ^ 20)
  have hlt : leap (2 ^ j) q % 2 ^ 20 < 2 ^ 20 := Nat.mod_lt _ (by decide)
  rw [pageSize_mul_two_pow, hround]
  simp only [u32, pageSize]
  omega

include hl hj in
/-- A turn of the loop. -/
theorem vmmFindAlignedFrom_step (hq : q < 2 ^ 20 - 1) (hstart : StartAt start q k) (hk : k + 1 < 2 ^ 32)
    (n steps : ℕ) :
    vmmFindAlignedFrom r n (2 ^ j * pageSize) σ (steps + 1) (q * pageSize) k start =
      if k = 0 ∧ ¬ 2 ^ j ∣ q then vmmFindAlignedFrom r n (2 ^ j * pageSize) σ steps ((q + 1) * pageSize) 0 start
      else if present (σ.word (σ.region r).pgDir q) then
        vmmFindAlignedFrom r n (2 ^ j * pageSize) σ steps (leap (2 ^ j) q % 2 ^ 20 * pageSize) 0 ((q - k) * pageSize)
      else if n ≤ k + 1 then some ((q - k) * pageSize)
      else vmmFindAlignedFrom r n (2 ^ j * pageSize) σ steps ((q + 1) * pageSize) (k + 1) ((q - k) * pageSize) := by
  have hlt : q * pageSize < 2 ^ 32 := by
    simp only [pageSize]
    omega
  have hnext : u32 (q * pageSize + pageSize) = (q + 1) * pageSize := by
    simp only [u32, pageSize]
    omega
  have hfirst : (if k = 0 then q * pageSize else start) = (q - k) * pageSize := by
    split_ifs with hzero
    · rw [hzero, Nat.sub_zero]
    · exact hstart (Nat.pos_of_ne_zero hzero)
  have hmod : q * pageSize % (2 ^ j * pageSize) ≠ 0 ↔ ¬ 2 ^ j ∣ q := by
    rw [Nat.mul_mod_mul_right, Ne, Nat.mul_eq_zero, Nat.dvd_iff_mod_eq_zero, or_iff_left (by decide : pageSize ≠ 0)]
  have hleap : u32 ((if q * pageSize % (2 ^ j * pageSize) ≠ 0 then
      u32 (vmmRoundUp (q * pageSize) (2 ^ j * pageSize) + 2 ^ 32 - pageSize) else q * pageSize) + pageSize) =
      leap (2 ^ j) q % 2 ^ 20 * pageSize := by
    by_cases hdvd : 2 ^ j ∣ q
    · rw [if_neg fun h => hmod.1 h hdvd, hnext, leap, if_pos hdvd, Nat.mod_eq_of_lt (by omega)]
    · rw [if_pos (hmod.2 hdvd), vmmRoundUp_leap hj hdvd]
  rw [vmmFindAlignedFrom, if_pos (by simp only [pageSize]; omega), vmmPageUsed_loaded hl hlt,
    Nat.mul_div_cancel q (by decide : 0 < pageSize), Option.bind_eq_bind, Option.bind_some, hnext, u32_of_lt hk, hfirst]
  by_cases hskip : k = 0 ∧ ¬ 2 ^ j ∣ q
  · rw [if_pos ⟨hskip.1, hmod.2 hskip.2⟩, if_pos hskip, hskip.1]
  · rw [if_neg fun h => hskip ⟨h.1, hmod.1 h.2⟩, if_neg hskip]
    by_cases hused : present (σ.word (σ.region r).pgDir q) = true
    · rw [if_pos hused, if_pos hused, ← hleap]
    · rw [if_neg hused, if_neg hused]
      rfl

/-- At the last page the walk is over. -/
theorem vmmFindAlignedFrom_last {alignment : ℕ} :
    vmmFindAlignedFrom r n alignment σ (steps + 1) ((2 ^ 20 - 1) * pageSize) k start = some 0 := by
  rw [vmmFindAlignedFrom, if_neg (by decide)]

/-- The last multiple of `m`. -/
abbrev lastMultiple (m : ℕ) : ℕ := 2 ^ 20 - m

theorem two_pow_dvd_lastMultiple (hj : j ≤ 19) : 2 ^ j ∣ lastMultiple (2 ^ j) :=
  Nat.dvd_sub (pow_dvd_pow 2 (by omega)) (Nat.dvd_refl _)

theorem le_lastMultiple (hj : j ≤ 19) (hdvd : 2 ^ j ∣ p) (hp : p < 2 ^ 20) : p ≤ lastMultiple (2 ^ j) :=
  le_sub_of_dvd (pow_dvd_pow 2 (by omega)) hdvd hp

/-- A range may begin at the last multiple, and breaks off behind it. -/
def BreaksOff (σ : Vmm) (d m : ℕ) : Prop :=
  FreeBelow σ d (lastMultiple m) ∧ ∃ u, lastMultiple m < u ∧ u < 2 ^ 20 - 1 ∧ present (σ.word d u) = true

/-- **The walk comes round** from page `lo`. -/
def ComesRound (σ : Vmm) (d m lo : ℕ) : Prop := lo ≤ lastMultiple m ∧ BreaksOff σ d m

include hl hj in
/-- **The first range is found**, where there is one. -/
theorem vmmFindAlignedFrom_isLeast (hw : AlignedWalk r (2 ^ j) n σ lo q k) (hstart : StartAt start q k)
    (hq : q < 2 ^ 20) (hsteps : 2 ^ 20 ≤ q + steps)
    (hex : (alignedRuns σ (σ.region r).pgDir (2 ^ j) n lo).Nonempty) :
    ∃ p, IsLeast (alignedRuns σ (σ.region r).pgDir (2 ^ j) n lo) p ∧
      vmmFindAlignedFrom r n (2 ^ j * pageSize) σ steps (q * pageSize) k start = some (p * pageSize) := by
  induction steps generalizing q k start with
  | zero => exact absurd hq (Nat.not_lt.2 hsteps)
  | succ steps ih =>
    have hle := hw.le
    have hk := hw.lt
    obtain ⟨p, hp⟩ := hex
    have hbegin := hw.least p hp
    have hend : p + n ≤ 2 ^ 20 - 1 := by
      have hlast := (hp.2.2 (p + n - 1) (by omega) (by omega)).1
      omega
    rw [vmmFindAlignedFrom_step hl hj (by omega) hstart (by omega)]
    by_cases hskip : k = 0 ∧ ¬ 2 ^ j ∣ q
    · rw [if_pos hskip]
      exact ih (hw.skip hskip.1 hskip.2) (.zero _ _) (by omega) (by omega)
    rw [if_neg hskip]
    by_cases hused : present (σ.word (σ.region r).pgDir q) = true
    · have hnot : ¬ FreeBelow σ (σ.region r).pgDir q := fun hfree => absurd (hused.symm.trans hfree.2) (by decide)
      have hleap : leap (2 ^ j) q ≤ p := leap_le hp.2.1 (hw.lt_of_not_free hnot hp)
      have hlt := lt_leap (Nat.two_pow_pos j) q
      rw [if_pos hused, Nat.mod_eq_of_lt (show leap (2 ^ j) q < 2 ^ 20 by omega)]
      exact ih (hw.block hnot hlt fun _ => not_dvd_of_lt_leap) (.zero _ _) (by omega) (by omega)
    · have hfree : FreeBelow σ (σ.region r).pgDir q := ⟨by omega, Bool.not_eq_true _ ▸ hused⟩
      have hmultiple : k = 0 → 2 ^ j ∣ q := fun hzero => not_not.1 fun hdvd => hskip ⟨hzero, hdvd⟩
      rw [if_neg hused]
      by_cases hfull : n ≤ k + 1
      · rw [if_pos hfull]
        exact ⟨q - k, hw.found hfree hmultiple hfull, rfl⟩
      · rw [if_neg hfull]
        exact ih (hw.extend hfree hmultiple (by omega)) (StartAt.succ q k) (by omega) (by omega)

/-- Where the walk breaks off behind the last multiple, it comes round. -/
theorem comesRound_of_break (hj : j ≤ 19) (hw : Searched (FreeBelow σ d) (2 ^ j ∣ ·) n lo q k) (hpos : 0 < k)
    (hgt : lastMultiple (2 ^ j) < q) (hlt : q < 2 ^ 20 - 1) (hused : present (σ.word d q) = true) :
    ComesRound σ d (2 ^ j) lo := by
  have hle := hw.le
  have hfirst := le_lastMultiple hj (hw.begins hpos) (by omega)
  exact ⟨by omega, hw.clear _ hfirst hgt, q, hgt, hlt, hused⟩

include hl hj in
/-- **Nothing is found and the walk does not come round.** -/
theorem vmmFindAlignedFrom_none (hw : AlignedWalk r (2 ^ j) n σ lo q k) (hstart : StartAt start q k)
    (hq : q < 2 ^ 20) (hsteps : 2 ^ 20 ≤ q + steps)
    (hnone : alignedRuns σ (σ.region r).pgDir (2 ^ j) n lo = ∅)
    (hround : ¬ ComesRound σ (σ.region r).pgDir (2 ^ j) lo) :
    vmmFindAlignedFrom r n (2 ^ j * pageSize) σ steps (q * pageSize) k start = some 0 := by
  induction steps generalizing q k start with
  | zero => exact absurd hq (Nat.not_lt.2 hsteps)
  | succ steps ih =>
    have hle := hw.le
    rcases Nat.eq_or_lt_of_le (Nat.le_sub_one_of_lt hq) with rfl | hlt
    · exact vmmFindAlignedFrom_last
    rw [vmmFindAlignedFrom_step hl hj hlt hstart (by omega)]
    by_cases hskip : k = 0 ∧ ¬ 2 ^ j ∣ q
    · rw [if_pos hskip]
      exact ih (hw.skip hskip.1 hskip.2) (.zero _ _) (by omega) (by omega)
    rw [if_neg hskip]
    by_cases hused : present (σ.word (σ.region r).pgDir q) = true
    · have hnot : ¬ FreeBelow σ (σ.region r).pgDir q := fun hfree => absurd (hused.symm.trans hfree.2) (by decide)
      have hgt := lt_leap (Nat.two_pow_pos j) q
      have hleap : leap (2 ^ j) q < 2 ^ 20 := by
        by_cases hdvd : 2 ^ j ∣ q
        · rw [leap, if_pos hdvd]
          omega
        · have hpos : 0 < k := Nat.pos_of_ne_zero fun hzero => hskip ⟨hzero, hdvd⟩
          have hbefore : q ≤ lastMultiple (2 ^ j) := Nat.not_lt.1 fun hgt =>
            hround (comesRound_of_break hj hw hpos hgt hlt hused)
          have hne : q ≠ lastMultiple (2 ^ j) := fun heq => hdvd (heq ▸ two_pow_dvd_lastMultiple hj)
          have hle := leap_le (two_pow_dvd_lastMultiple hj) (Nat.lt_of_le_of_ne hbefore hne)
          have hpow := Nat.two_pow_pos j
          unfold lastMultiple at hle
          omega
      rw [if_pos hused, Nat.mod_eq_of_lt hleap]
      exact ih (hw.block hnot hgt fun _ => not_dvd_of_lt_leap) (.zero _ _) hleap (by omega)
    · have hfree : FreeBelow σ (σ.region r).pgDir q := ⟨hlt, Bool.not_eq_true _ ▸ hused⟩
      have hmultiple : k = 0 → 2 ^ j ∣ q := fun hzero => not_not.1 fun hdvd => hskip ⟨hzero, hdvd⟩
      have hfull : ¬ n ≤ k + 1 := fun hfull =>
        Set.eq_empty_iff_forall_notMem.1 hnone _ (hw.found hfree hmultiple hfull).1
      rw [if_neg hused, if_neg hfull]
      exact ih (hw.extend hfree hmultiple (by omega)) (StartAt.succ q k) (by omega) (by omega)

/-- **The walk is on its way round**: nothing is left to be found, and the page `u` behind the
last multiple will send it back to `0`. -/
structure Rounding (r m n : ℕ) (σ : Vmm) (lo u q k start : ℕ) : Prop where
  walk : AlignedWalk r m n σ lo q k
  startAt : StartAt start q k
  nothing : alignedRuns σ (σ.region r).pgDir m n lo = ∅
  last : FreeBelow σ (σ.region r).pgDir (lastMultiple m)
  lt_page : lastMultiple m < u
  page_lt : u < 2 ^ 20 - 1
  used : present (σ.word (σ.region r).pgDir u) = true
  place : q ≤ lastMultiple m ∨ 0 < k ∧ q ≤ u

theorem Rounding.zero (hn : 0 < n) (hround : ComesRound σ (σ.region r).pgDir m lo)
    (hnone : alignedRuns σ (σ.region r).pgDir m n lo = ∅) (start : ℕ) : ∃ u, Rounding r m n σ lo u lo 0 start :=
  let ⟨hle, hlast, u, hlt, hlt', hused⟩ := hround
  ⟨u, .zero hn, .zero _ _, hnone, hlast, hlt, hlt', hused, .inl hle⟩

namespace Rounding

include hl hj in
/-- One turn brings it on, or back to `0`. -/
theorem step (h : Rounding r (2 ^ j) n σ lo u q k start) :
    ∃ q' k' start', (∀ steps, vmmFindAlignedFrom r n (2 ^ j * pageSize) σ (steps + 1) (q * pageSize) k start =
      vmmFindAlignedFrom r n (2 ^ j * pageSize) σ steps (q' * pageSize) k' start') ∧
      (q < q' ∧ Rounding r (2 ^ j) n σ lo u q' k' start' ∨ q' = 0 ∧ k' = 0) := by
  have hle := h.walk.le
  have hpage := h.lt_page
  have hlt := h.page_lt
  have hq : q ≤ u := h.place.elim (fun hq => by omega) And.right
  have hk : k + 1 < 2 ^ 32 := by omega
  have hturn := vmmFindAlignedFrom_step hl hj (hq.trans_lt hlt) h.startAt hk n
  by_cases hskip : k = 0 ∧ ¬ 2 ^ j ∣ q
  · simp only [if_pos hskip] at hturn
    have hne : q ≠ lastMultiple (2 ^ j) := fun heq => hskip.2 (heq ▸ two_pow_dvd_lastMultiple hj)
    have hbefore : q ≤ lastMultiple (2 ^ j) := h.place.elim id fun hk => absurd hk.1 (by omega)
    exact ⟨q + 1, 0, start, hturn, .inl ⟨Nat.lt_succ_self q,
      { h with walk := h.walk.skip hskip.1 hskip.2, startAt := .zero _ _, place := .inl (by omega) }⟩⟩
  simp only [if_neg hskip] at hturn
  by_cases hused : present (σ.word (σ.region r).pgDir q) = true
  · have hnot : ¬ FreeBelow σ (σ.region r).pgDir q := fun hfree => absurd (hused.symm.trans hfree.2) (by decide)
    have hgt := lt_leap (Nat.two_pow_pos j) q
    have hne : q ≠ lastMultiple (2 ^ j) := fun heq => hnot (heq ▸ h.last)
    simp only [if_pos hused] at hturn
    refine ⟨_, 0, _, hturn, ?_⟩
    rcases Nat.lt_or_gt_of_ne hne with hbefore | hbehind
    · have hleap := leap_le (two_pow_dvd_lastMultiple hj) hbefore
      rw [Nat.mod_eq_of_lt (show leap (2 ^ j) q < 2 ^ 20 by omega)]
      exact .inl ⟨hgt, { h with
        walk := h.walk.block hnot hgt fun _ => not_dvd_of_lt_leap, startAt := .zero _ _, place := .inl hleap }⟩
    · rw [leap_eq (Nat.two_pow_pos j) (pow_dvd_pow 2 (by omega)) hbehind (show q < 2 ^ 20 by omega), Nat.mod_self]
      exact .inr ⟨rfl, rfl⟩
  · have hfree : FreeBelow σ (σ.region r).pgDir q := ⟨by omega, Bool.not_eq_true _ ▸ hused⟩
    have hmultiple : k = 0 → 2 ^ j ∣ q := fun hzero => not_not.1 fun hdvd => hskip ⟨hzero, hdvd⟩
    have hfull : ¬ n ≤ k + 1 := fun hfull =>
      Set.eq_empty_iff_forall_notMem.1 h.nothing _ (h.walk.found hfree hmultiple hfull).1
    have hne : q ≠ u := fun heq => hused (heq ▸ h.used)
    simp only [if_neg hused, if_neg hfull] at hturn
    exact ⟨q + 1, k + 1, _, hturn, .inl ⟨Nat.lt_succ_self q, { h with
      walk := h.walk.extend hfree hmultiple (by omega), startAt := .succ q k, place := .inr ⟨Nat.succ_pos k, by omega⟩ }⟩⟩

include hl hj in
/-- It arrives at `0`. -/
theorem arrives (h : Rounding r (2 ^ j) n σ lo u q k start) :
    ∃ i start', i ≤ 2 ^ 20 - q ∧ ∀ steps, vmmFindAlignedFrom r n (2 ^ j * pageSize) σ (steps + i) (q * pageSize) k start =
      vmmFindAlignedFrom r n (2 ^ j * pageSize) σ steps (0 * pageSize) 0 start' := by
  have hq : q < 2 ^ 20 - 1 := h.place.elim (fun hq => (hq.trans_lt h.lt_page).trans h.page_lt) fun hq =>
    hq.2.trans_lt h.page_lt
  induction hroom : 2 ^ 20 - q using Nat.strong_induction_on generalizing q k start with
  | _ room ih =>
    obtain ⟨q', k', start', hturn, ⟨hlt, h'⟩ | ⟨rfl, rfl⟩⟩ := h.step hl hj
    · have hq' : q' < 2 ^ 20 - 1 := h'.place.elim (fun hq => (hq.trans_lt h.lt_page).trans h.page_lt) fun hq =>
        hq.2.trans_lt h.page_lt
      obtain ⟨i, start'', hi, hwalk⟩ := ih (2 ^ 20 - q') (by omega) h' hq' rfl
      exact ⟨i + 1, start'', by omega, fun steps => (hturn (steps + i)).trans (hwalk steps)⟩
    · exact ⟨1, start', by omega, hturn⟩

include hl hj in
/-- **It goes round for ever**, where there is nothing to find from `0` on either. -/
theorem endless (h : Rounding r (2 ^ j) n σ lo u q k start)
    (hnone : alignedRuns σ (σ.region r).pgDir (2 ^ j) n 0 = ∅) :
    vmmFindAlignedFrom r n (2 ^ j * pageSize) σ steps (q * pageSize) k start = none := by
  induction steps generalizing lo q k start with
  | zero => rfl
  | succ steps ih =>
    obtain ⟨q', k', start', hturn, ⟨-, h'⟩ | ⟨rfl, rfl⟩⟩ := h.step hl hj
    · rw [hturn]
      exact ih h'
    · have hn : 0 < n := Nat.zero_lt_of_lt h.walk.lt
      rw [hturn]
      exact ih { h with walk := .zero hn, startAt := .zero _ _, nothing := hnone, place := .inl (Nat.zero_le _) }

end Rounding

end Walk

/-! ### What is returned -/

/-- `n` pages from the multiple `s` of `alignment` on lie below the last page and are not
mapped. -/
def AlignedFit (σ : Vmm) (d n alignment s : ℕ) : Prop :=
  alignment ∣ s ∧ s + n * pageSize ≤ 0xFFFFF000 ∧
    ∀ p, s / pageSize ≤ p → p < s / pageSize + n → present (σ.word d p) = false

/-- `v` is the first range from `bound` on, other than the one at `0`, or `0` without one. -/
def FirstFit (σ : Vmm) (d n alignment bound v : ℕ) : Prop :=
  IsLeast {s | bound ≤ s ∧ s ≠ 0 ∧ AlignedFit σ d n alignment s} v ∨
    v = 0 ∧ ∀ s, bound ≤ s → s ≠ 0 → ¬ AlignedFit σ d n alignment s

/-- The first range is returned. -/
def FindsAligned (r n alignment : ℕ) (σ : Vmm) : Prop :=
  ∃ v, vmmFindFreeRangeAligned r n alignment σ = some v ∧
    FirstFit σ (σ.region r).pgDir n alignment (vmmBump r σ) v

section Fits

variable {alignment bound s v : ℕ}

theorem firstFit_zero_iff : FirstFit σ d n alignment bound 0 ↔
    ∀ s, bound ≤ s → s ≠ 0 → ¬ AlignedFit σ d n alignment s :=
  ⟨fun h => h.elim (fun hleast => absurd rfl hleast.1.2.1) And.right, fun h => .inr ⟨rfl, h⟩⟩

/-- Without a range, `0` alone is right. -/
theorem firstFit_iff_zero (hnone : ∀ s, bound ≤ s → ¬ AlignedFit σ d n alignment s) :
    FirstFit σ d n alignment bound v ↔ v = 0 :=
  ⟨fun h => h.elim (fun hleast => absurd hleast.1.2.2 (hnone v hleast.1.1)) And.left,
    fun h => .inr ⟨h, fun s hs _ => hnone s hs⟩⟩

theorem dvd_of_alignedFit (h : AlignedFit σ d n (2 ^ j * pageSize) s) : ∃ p, s = p * pageSize := by
  obtain ⟨c, rfl⟩ := h.1
  exact ⟨2 ^ j * c, by rw [Nat.mul_right_comm]⟩

theorem alignedFit_iff (hn : 0 < n) :
    AlignedFit σ d n (2 ^ j * pageSize) (p * pageSize) ↔ 2 ^ j ∣ p ∧ Run (FreeBelow σ d) n p := by
  unfold AlignedFit
  rw [Nat.mul_div_cancel p (by decide : 0 < pageSize), Nat.mul_dvd_mul_iff_right (by decide : 0 < pageSize)]
  refine and_congr_right fun _ => ⟨?_, fun hrun => ?_⟩
  · rintro ⟨hle, hfree⟩ q hpq hq
    refine ⟨?_, hfree q hpq hq⟩
    simp only [pageSize] at hle
    omega
  · have hlast := (hrun (p + n - 1) (by omega) (by omega)).1
    refine ⟨?_, fun q hpq hq => (hrun q hpq hq).2⟩
    simp only [pageSize]
    omega

theorem mem_alignedRuns (hn : 0 < n) :
    p ∈ alignedRuns σ d (2 ^ j) n lo ↔ lo * pageSize ≤ p * pageSize ∧ AlignedFit σ d n (2 ^ j * pageSize) (p * pageSize) := by
  rw [alignedFit_iff hn, Nat.mul_le_mul_right_iff (by decide : 0 < pageSize)]
  rfl

theorem alignedRuns_eq_empty (hn : 0 < n) : alignedRuns σ d (2 ^ j) n lo = ∅ ↔
    ∀ s, lo * pageSize ≤ s → ¬ AlignedFit σ d n (2 ^ j * pageSize) s := by
  rw [Set.eq_empty_iff_forall_notMem]
  refine ⟨fun h s hs hfit => ?_, fun h p hp => h _ ((mem_alignedRuns hn).1 hp).1 ((mem_alignedRuns hn).1 hp).2⟩
  obtain ⟨p, rfl⟩ := dvd_of_alignedFit hfit
  exact h p ((mem_alignedRuns hn).2 ⟨hs, hfit⟩)

/-- The first range, in addresses. -/
theorem isLeast_of_alignedRuns (hn : 0 < n) (h : IsLeast (alignedRuns σ d (2 ^ j) n lo) p) :
    IsLeast {s | lo * pageSize ≤ s ∧ AlignedFit σ d n (2 ^ j * pageSize) s} (p * pageSize) := by
  refine ⟨(mem_alignedRuns hn).1 h.1, ?_⟩
  rintro s ⟨hs, hfit⟩
  obtain ⟨q, rfl⟩ := dvd_of_alignedFit hfit
  exact Nat.mul_le_mul_right _ (h.2 ((mem_alignedRuns hn).2 ⟨hs, hfit⟩))

end Fits

/-! ### When the first range is returned -/

section Start

variable {next s : ℕ} (hj : j ≤ 19)

include hj

theorem two_pow_mul_dvd : 2 ^ j * pageSize ∣ 2 ^ 32 := by
  rw [pageSize_mul_two_pow]
  exact pow_dvd_pow 2 (by omega)

theorem vmmRoundUp_next (hdvd : ¬ 2 ^ j * pageSize ∣ next) :
    vmmRoundUp next (2 ^ j * pageSize) = u32 (leap (2 ^ j * pageSize) next) := by
  rw [leap, if_neg hdvd]
  rw [pageSize_mul_two_pow] at hdvd ⊢
  exact vmmRoundUp_eq (by omega) hdvd

/-- **Where the walk begins**: at the first multiple from `next_free_va` on. -/
theorem vmmStart_eq (hle : next ≤ 2 ^ 32 - 2 ^ j * pageSize) : ∃ lo, lo < 2 ^ 20 ∧
    (if ¬ next % (2 ^ j * pageSize) = 0 then vmmRoundUp next (2 ^ j * pageSize) else next) = lo * pageSize ∧
    ∀ s, 2 ^ j * pageSize ∣ s → (next ≤ s ↔ lo * pageSize ≤ s) := by
  have hpos : 0 < 2 ^ j * pageSize := Nat.mul_pos (Nat.two_pow_pos j) (by decide)
  have hpow : 2 ^ j * pageSize ≤ 2 ^ 32 := Nat.le_of_dvd (by decide) (two_pow_mul_dvd hj)
  have hroom : ∀ lo, lo * pageSize ≤ 2 ^ 32 - 2 ^ j * pageSize → lo < 2 ^ 20 := fun lo hlo => by
    have hlt := hlo.trans_lt (Nat.sub_lt (by decide) hpos)
    simp only [pageSize] at hlt
    omega
  by_cases hmod : next % (2 ^ j * pageSize) = 0
  · obtain ⟨c, rfl⟩ := Nat.dvd_of_mod_eq_zero hmod
    refine ⟨2 ^ j * c, hroom _ ?_, ?_, fun s _ => ?_⟩
    · rwa [Nat.mul_right_comm]
    · rw [if_neg (not_not.2 hmod), Nat.mul_right_comm]
    · rw [Nat.mul_right_comm]
  · have hdvd : ¬ 2 ^ j * pageSize ∣ next := fun hdvd => hmod (Nat.mod_eq_zero_of_dvd hdvd)
    have hlast : 2 ^ j * pageSize ∣ 2 ^ 32 - 2 ^ j * pageSize := Nat.dvd_sub (two_pow_mul_dvd hj) (Nat.dvd_refl _)
    have hne : next ≠ 2 ^ 32 - 2 ^ j * pageSize := by
      rintro rfl
      exact hdvd hlast
    have hle' := leap_le hlast (Nat.lt_of_le_of_ne hle hne)
    have hlo : leap (2 ^ j * pageSize) next = (next / (2 ^ j * pageSize) + 1) * 2 ^ j * pageSize := by
      rw [leap, if_neg hdvd, Nat.mul_assoc]
    refine ⟨(next / (2 ^ j * pageSize) + 1) * 2 ^ j, hroom _ (hlo.symm.trans_le hle'), ?_, fun s hs => ?_⟩
    · rw [if_pos hmod, vmmRoundUp_next hj hdvd, hlo, u32_of_lt (by omega)]
    · rw [← hlo]
      exact ⟨fun h => leap_le hs (Nat.lt_of_le_of_ne h fun heq => hdvd (heq ▸ hs)),
        fun h => (lt_leap hpos next).le.trans h⟩

/-- Behind the last multiple it begins at `0`. -/
theorem vmmStart_overflow (hgt : 2 ^ 32 - 2 ^ j * pageSize < next) (hnext : next < 2 ^ 32) :
    (if ¬ next % (2 ^ j * pageSize) = 0 then vmmRoundUp next (2 ^ j * pageSize) else next) = 0 * pageSize := by
  have hpos : 0 < 2 ^ j * pageSize := Nat.mul_pos (Nat.two_pow_pos j) (by decide)
  have hdvd : ¬ 2 ^ j * pageSize ∣ next := fun hdvd =>
    Nat.not_le.2 hgt (le_sub_of_dvd (two_pow_mul_dvd hj) hdvd hnext)
  rw [if_pos fun h => hdvd (Nat.dvd_of_mod_eq_zero h), vmmRoundUp_next hj hdvd,
    leap_eq hpos (two_pow_mul_dvd hj) hgt hnext, Nat.zero_mul]
  rfl

end Start

/-- **When the walk from `bound` is right**: `0` is not the first of several ranges, and where
nothing is found and the walk comes round, it is `0` that it finds there. -/
def MetFrom (σ : Vmm) (d n alignment bound : ℕ) : Prop :=
  (bound = 0 → AlignedFit σ d n alignment 0 → ∀ s, s ≠ 0 → ¬ AlignedFit σ d n alignment s) ∧
    ((∀ s, bound ≤ s → ¬ AlignedFit σ d n alignment s) → bound ≤ 2 ^ 32 - alignment →
      BreaksOff σ d (alignment / pageSize) → AlignedFit σ d n alignment 0)

/-- **When the first range is returned**, for the region's `next_free_va` and `base_va`. -/
def AlignedMet (σ : Vmm) (d n alignment next base : ℕ) : Prop :=
  if next = 0 then
    -- from an address that is no page address no multiple is reached
    if pageSize ∣ base then MetFrom σ d n alignment base else ∀ s, base ≤ s → ¬ AlignedFit σ d n alignment s
  else if next ≤ 2 ^ 32 - alignment then MetFrom σ d n alignment next
  else
    -- rounding `next` up gives `0`
    AlignedFit σ d n alignment 0 ∨ (∀ s, ¬ AlignedFit σ d n alignment s) ∧ ¬ BreaksOff σ d (alignment / pageSize)

section Met

variable {bound s v : ℕ} (hl : Loaded σ r) (hj : j ≤ 19) (hn : 0 < n)

/-- The answer of the walk from page `lo`, counted in addresses. -/
abbrev answer (r j n : ℕ) (σ : Vmm) (lo : ℕ) : Option ℕ :=
  vmmFindAlignedFrom r n (2 ^ j * pageSize) σ vmmSteps (lo * pageSize) 0 0

include hl hj hn

theorem answer_isLeast (hlo : lo < 2 ^ 20) (hs : lo * pageSize ≤ s)
    (hfit : AlignedFit σ (σ.region r).pgDir n (2 ^ j * pageSize) s) :
    ∃ v, IsLeast {s | lo * pageSize ≤ s ∧ AlignedFit σ (σ.region r).pgDir n (2 ^ j * pageSize) s} v ∧
      answer r j n σ lo = some v := by
  obtain ⟨p, rfl⟩ := dvd_of_alignedFit hfit
  have hroom : 2 ^ 20 ≤ lo + vmmSteps := Nat.le_add_left_of_le (by decide)
  obtain ⟨q, hq, hrun⟩ := vmmFindAlignedFrom_isLeast hl hj (.zero hn) (.zero 0 lo) hlo hroom
    ⟨p, (mem_alignedRuns hn).2 ⟨hs, hfit⟩⟩
  exact ⟨_, isLeast_of_alignedRuns hn hq, hrun⟩

theorem answer_none (hlo : lo < 2 ^ 20)
    (hnone : ∀ s, lo * pageSize ≤ s → ¬ AlignedFit σ (σ.region r).pgDir n (2 ^ j * pageSize) s)
    (hround : ¬ ComesRound σ (σ.region r).pgDir (2 ^ j) lo) : answer r j n σ lo = some 0 :=
  vmmFindAlignedFrom_none hl hj (.zero hn) (.zero 0 lo) hlo (Nat.le_add_left_of_le (by decide))
    ((alignedRuns_eq_empty hn).2 hnone) hround

theorem answer_round (hround : ComesRound σ (σ.region r).pgDir (2 ^ j) lo)
    (hnone : ∀ s, lo * pageSize ≤ s → ¬ AlignedFit σ (σ.region r).pgDir n (2 ^ j * pageSize) s)
    (hfit : AlignedFit σ (σ.region r).pgDir n (2 ^ j * pageSize) s) :
    ∃ v, IsLeast {s | AlignedFit σ (σ.region r).pgDir n (2 ^ j * pageSize) s} v ∧ answer r j n σ lo = some v := by
  obtain ⟨u, h⟩ := Rounding.zero hn hround ((alignedRuns_eq_empty hn).2 hnone) 0
  obtain ⟨i, start, hi, hwalk⟩ := h.arrives hl hj
  obtain ⟨p, rfl⟩ := dvd_of_alignedFit hfit
  have hmem : p ∈ alignedRuns σ (σ.region r).pgDir (2 ^ j) n 0 :=
    (mem_alignedRuns hn).2 ⟨by rw [Nat.zero_mul]; exact Nat.zero_le _, hfit⟩
  have hroom : 2 ^ 20 ≤ 0 + (vmmSteps - i) := by
    simp only [vmmSteps]
    omega
  obtain ⟨q, hq, hrun⟩ := vmmFindAlignedFrom_isLeast hl hj (.zero hn) (.zero start 0) (by decide) hroom ⟨p, hmem⟩
  have hleast := isLeast_of_alignedRuns hn hq
  refine ⟨q * pageSize, ⟨hleast.1.2, fun s hs => hleast.2 ⟨by rw [Nat.zero_mul]; exact Nat.zero_le _, hs⟩⟩, ?_⟩
  have hsteps : vmmSteps = vmmSteps - i + i := by
    simp only [vmmSteps]
    omega
  rw [answer, hsteps, hwalk, hrun]

theorem answer_endless (hround : ComesRound σ (σ.region r).pgDir (2 ^ j) lo)
    (hnone : ∀ s, ¬ AlignedFit σ (σ.region r).pgDir n (2 ^ j * pageSize) s) : answer r j n σ lo = none := by
  obtain ⟨u, h⟩ := Rounding.zero hn hround ((alignedRuns_eq_empty hn).2 fun s _ => hnone s) 0
  exact h.endless hl hj ((alignedRuns_eq_empty hn).2 fun s _ => hnone s)

/-- **The walk from page `lo`**, where the multiples from `bound` on are those from `lo` on. -/
theorem answer_iff (hlo : lo < 2 ^ 20) (hbound : ∀ s, 2 ^ j * pageSize ∣ s → (bound ≤ s ↔ lo * pageSize ≤ s)) :
    (∃ v, answer r j n σ lo = some v ∧ FirstFit σ (σ.region r).pgDir n (2 ^ j * pageSize) bound v) ↔
      MetFrom σ (σ.region r).pgDir n (2 ^ j * pageSize) bound := by
  have hpage : 0 < pageSize := by decide
  have hlast : 2 ^ 32 - 2 ^ j * pageSize = lastMultiple (2 ^ j) * pageSize := by
    simp only [lastMultiple, pageSize]
    omega
  have hcomes : bound ≤ 2 ^ 32 - 2 ^ j * pageSize ↔ lo ≤ lastMultiple (2 ^ j) := by
    rw [hlast, hbound _ (Nat.mul_dvd_mul_right (two_pow_dvd_lastMultiple hj) pageSize), Nat.mul_le_mul_right_iff hpage]
  have hbreaks : 2 ^ j * pageSize / pageSize = 2 ^ j := Nat.mul_div_cancel _ hpage
  unfold MetFrom
  rw [hcomes, hbreaks]
  by_cases hex : ∃ s, bound ≤ s ∧ AlignedFit σ (σ.region r).pgDir n (2 ^ j * pageSize) s
  · -- the first range is returned, be it at `0` or not
    obtain ⟨s, hs, hfit⟩ := hex
    obtain ⟨v, hv, hrun⟩ := answer_isLeast hl hj hn hlo ((hbound s hfit.1).1 hs) hfit
    have hv' : bound ≤ v := (hbound v hv.1.2.1).2 hv.1.1
    constructor
    · rintro ⟨w, hw, hfirst⟩
      obtain rfl := Option.some.inj (hw.symm.trans hrun)
      refine ⟨fun hzero hfit' s' hs' => ?_, fun h => absurd hfit (h s hs)⟩
      obtain rfl : w = 0 := Nat.le_zero.1 (hv.2 ⟨(hbound 0 (Nat.dvd_zero _)).1 hzero.le, hfit'⟩)
      exact firstFit_zero_iff.1 hfirst s' (hzero ▸ Nat.zero_le s') hs'
    · rintro ⟨honly, -⟩
      refine ⟨v, hrun, ?_⟩
      by_cases hzero : v = 0
      · obtain rfl := hzero
        exact firstFit_zero_iff.2 fun s' _ => honly (Nat.le_zero.1 hv') hv.1.2 s'
      · exact .inl ⟨⟨hv', hzero, hv.1.2⟩, fun s' hs' => hv.2 ⟨(hbound s' hs'.2.2.1).1 hs'.1, hs'.2.2⟩⟩
  · -- nothing is found: the walk ends, or goes round
    have hnone : ∀ s, bound ≤ s → ¬ AlignedFit σ (σ.region r).pgDir n (2 ^ j * pageSize) s :=
      fun s hs hfit => hex ⟨s, hs, hfit⟩
    have hnone' : ∀ s, lo * pageSize ≤ s → ¬ AlignedFit σ (σ.region r).pgDir n (2 ^ j * pageSize) s :=
      fun s hs hfit => hnone s ((hbound s hfit.1).2 hs) hfit
    have hfirst : bound = 0 → AlignedFit σ (σ.region r).pgDir n (2 ^ j * pageSize) 0 → False :=
      fun hzero => hnone 0 hzero.le
    by_cases hround : ComesRound σ (σ.region r).pgDir (2 ^ j) lo
    · by_cases hall : ∃ s, AlignedFit σ (σ.region r).pgDir n (2 ^ j * pageSize) s
      · obtain ⟨s, hfit⟩ := hall
        obtain ⟨v, hv, hrun⟩ := answer_round hl hj hn hround hnone' hfit
        constructor
        · rintro ⟨w, hw, hfits⟩
          obtain rfl := Option.some.inj (hw.symm.trans hrun)
          obtain rfl := (firstFit_iff_zero hnone).1 hfits
          exact ⟨fun hzero hfit' => (hfirst hzero hfit').elim, fun _ _ _ => hv.1⟩
        · rintro ⟨-, h⟩
          exact ⟨v, hrun, (firstFit_iff_zero hnone).2 (Nat.le_zero.1 (hv.2 (h hnone hround.1 hround.2)))⟩
      · refine iff_of_false ?_ fun h => hall ⟨0, h.2 hnone hround.1 hround.2⟩
        rintro ⟨v, hv, -⟩
        rw [answer_endless hl hj hn hround fun s hfit => hall ⟨s, hfit⟩] at hv
        exact absurd hv (by simp)
    · exact iff_of_true ⟨0, answer_none hl hj hn hlo hnone' hround, (firstFit_iff_zero hnone).2 rfl⟩
        ⟨fun hzero hfit' => (hfirst hzero hfit').elim, fun _ hle hbreak => absurd ⟨hle, hbreak⟩ hround⟩

/-- **The walk from page `0`.** -/
theorem answer_zero_iff : answer r j n σ 0 = some 0 ↔ AlignedFit σ (σ.region r).pgDir n (2 ^ j * pageSize) 0 ∨
    (∀ s, ¬ AlignedFit σ (σ.region r).pgDir n (2 ^ j * pageSize) s) ∧ ¬ BreaksOff σ (σ.region r).pgDir (2 ^ j) := by
  have hle : ∀ s, 0 * pageSize ≤ s := fun s => (Nat.zero_mul pageSize).symm ▸ Nat.zero_le s
  by_cases hall : ∃ s, AlignedFit σ (σ.region r).pgDir n (2 ^ j * pageSize) s
  · obtain ⟨s, hfit⟩ := hall
    obtain ⟨v, hv, hrun⟩ := answer_isLeast hl hj hn (by decide) (hle s) hfit
    constructor
    · intro hzero
      obtain rfl := Option.some.inj (hrun.symm.trans hzero)
      exact .inl hv.1.2
    · rintro (hfit' | ⟨hnone, -⟩)
      · rw [hrun, Nat.le_zero.1 (hv.2 ⟨hle 0, hfit'⟩)]
      · exact absurd hfit (hnone s)
  · have hnone : ∀ s, ¬ AlignedFit σ (σ.region r).pgDir n (2 ^ j * pageSize) s := fun s hfit => hall ⟨s, hfit⟩
    by_cases hbreak : BreaksOff σ (σ.region r).pgDir (2 ^ j)
    · rw [answer_endless hl hj hn ⟨Nat.zero_le _, hbreak⟩ hnone]
      refine iff_of_false (by simp) ?_
      rintro (hfit | ⟨-, hnot⟩)
      · exact hnone 0 hfit
      · exact hnot hbreak
    · exact iff_of_true (answer_none hl hj hn (by decide) (fun s _ => hnone s) fun h => hbreak h.2) (.inr ⟨hnone, hbreak⟩)

omit hl hj hn in
/-- **From an address that is no page address** no multiple is reached. -/
theorem vmmFindAlignedFrom_unaligned {va : ℕ} (hva : ¬ pageSize ∣ va) (hlt : va < 2 ^ 32)
    (hsteps : 2 ^ 32 ≤ va + steps * pageSize) (start : ℕ) :
    vmmFindAlignedFrom r n (2 ^ j * pageSize) σ steps va 0 start = some 0 := by
  induction steps generalizing va with
  | zero => omega
  | succ steps ih =>
    have hskip : 0 = 0 ∧ va % (2 ^ j * pageSize) ≠ 0 :=
      ⟨rfl, fun h => hva ((Nat.dvd_mul_left _ _).trans (Nat.dvd_of_mod_eq_zero h))⟩
    rw [vmmFindAlignedFrom]
    by_cases hend : va < 0xFFFFF000
    · have hnext : u32 (va + pageSize) = va + pageSize := u32_of_lt (by simp only [pageSize]; omega)
      rw [if_pos hend, if_pos hskip, hnext]
      refine ih (fun h => hva ((Nat.dvd_add_left (Nat.dvd_refl _)).1 h)) (by simp only [pageSize]; omega) ?_
      rw [Nat.succ_mul] at hsteps
      omega
    · rw [if_neg hend]

/-- **From `next_free_va`**, where rounding does not overflow. -/
theorem findsAligned_next (hzero : (σ.region r).nextFreeVa ≠ 0)
    (hle : (σ.region r).nextFreeVa ≤ 2 ^ 32 - 2 ^ j * pageSize) : FindsAligned r n (2 ^ j * pageSize) σ ↔
      MetFrom σ (σ.region r).pgDir n (2 ^ j * pageSize) (σ.region r).nextFreeVa := by
  obtain ⟨lo, hlt, hlo, hbound⟩ := vmmStart_eq hj hle
  unfold FindsAligned vmmFindFreeRangeAligned vmmBump
  simp only [hzero, ne_eq, not_false_iff, if_true]
  rw [hlo]
  exact answer_iff hl hj hn hlt hbound

omit hj in
/-- **`vmm_find_free_range_aligned`** returns the first range exactly in the states
`AlignedMet` describes. -/
theorem vmmFindFreeRangeAligned_iff {e : ℕ} (he : 12 ≤ e) (he' : e < 32) (hnext : (σ.region r).nextFreeVa < 2 ^ 32)
    (hbase : (σ.region r).baseVa < 2 ^ 32) : FindsAligned r n (2 ^ e) σ ↔
      AlignedMet σ (σ.region r).pgDir n (2 ^ e) (σ.region r).nextFreeVa (σ.region r).baseVa := by
  obtain ⟨j, rfl⟩ := Nat.exists_eq_add_of_le' he
  have hj : j ≤ 19 := by omega
  have hpage : 0 < pageSize := by decide
  have hpos : 0 < 2 ^ j * pageSize := Nat.mul_pos (Nat.two_pow_pos j) hpage
  rw [← pageSize_mul_two_pow]
  by_cases hle : (σ.region r).nextFreeVa ≠ 0 ∧ (σ.region r).nextFreeVa ≤ 2 ^ 32 - 2 ^ j * pageSize
  · rw [findsAligned_next hl hj hn hle.1 hle.2, AlignedMet, if_neg hle.1, if_pos hle.2]
  unfold FindsAligned AlignedMet vmmFindFreeRangeAligned vmmBump
  by_cases hzero : (σ.region r).nextFreeVa = 0
  · simp only [hzero, ne_eq, not_true, if_false, if_true]
    by_cases hdvd : pageSize ∣ (σ.region r).baseVa
    · obtain ⟨lo, hlo⟩ := hdvd
      rw [Nat.mul_comm] at hlo
      have hlt : lo < 2 ^ 20 := by
        rw [hlo] at hbase
        simp only [pageSize] at hbase
        omega
      rw [if_pos (hlo ▸ Nat.dvd_mul_left _ _), hlo]
      exact answer_iff hl hj hn hlt fun s _ => Iff.rfl
    · have hsteps : 2 ^ 32 ≤ (σ.region r).baseVa + vmmSteps * pageSize := Nat.le_add_left_of_le (by decide)
      rw [if_neg hdvd, vmmFindAlignedFrom_unaligned hdvd hbase hsteps]
      refine ⟨?_, fun hnone => ⟨0, rfl, (firstFit_iff_zero hnone).2 rfl⟩⟩
      rintro ⟨v, hv, hfirst⟩ s hs
      obtain rfl := Option.some.inj hv
      refine firstFit_zero_iff.1 hfirst s hs fun hzero' => hdvd ?_
      have hbase' : (σ.region r).baseVa = 0 := Nat.le_zero.1 (hzero' ▸ hs)
      exact hbase'.symm ▸ Nat.dvd_zero _
  · simp only [hzero, ne_eq, not_false_iff, if_false, if_true]
    have hgt : 2 ^ 32 - 2 ^ j * pageSize < (σ.region r).nextFreeVa := Nat.not_le.1 fun h => hle ⟨hzero, h⟩
    have hnone : ∀ s, (σ.region r).nextFreeVa ≤ s → ¬ AlignedFit σ (σ.region r).pgDir n (2 ^ j * pageSize) s := by
      rintro s hs ⟨hdvd, hend, -⟩
      exact Nat.not_le.2 (hgt.trans_le hs) (le_sub_of_dvd (two_pow_mul_dvd hj) hdvd (by omega))
    rw [vmmStart_overflow hj hgt hnext, if_neg (Nat.not_le.2 hgt), Nat.mul_div_cancel _ hpage,
      ← answer_zero_iff hl hj hn]
    constructor
    · rintro ⟨v, hv, hfirst⟩
      rwa [(firstFit_iff_zero hnone).1 hfirst] at hv
    · exact fun h => ⟨0, h, (firstFit_iff_zero hnone).2 rfl⟩

end Met

section Examples

variable {s : Vmm}

theorem usedRegion_next (hs : usedRegion = some s) :
    (s.region 2).nextFreeVa = userSpaceStart + pageSize ∧ (s.region 2).baseVa = userSpaceStart := by
  have hval : (usedRegion.map fun s => ((s.region 2).nextFreeVa, (s.region 2).baseVa)) =
      some (userSpaceStart + pageSize, userSpaceStart) := by decide +kernel
  rw [hs] at hval
  exact Prod.mk.inj (Option.some.inj hval)

/-- Pages are found page by page. -/
theorem usedRegion_findsAligned : ∃ s, usedRegion = some s ∧ FindsAligned 2 1 (2 ^ 12) s := by
  obtain ⟨s, hs⟩ := exists_usedRegion
  obtain ⟨hl, -⟩ := usedRegion_selfLinked hs
  obtain ⟨hnext, hbase⟩ := usedRegion_next hs
  refine ⟨s, hs, (vmmFindFreeRangeAligned_iff hl Nat.one_pos (by decide) (by decide) (hnext ▸ by decide)
    (hbase ▸ by decide)).2 ?_⟩
  rw [AlignedMet, hnext, if_neg (by decide), if_pos (by decide)]
  refine ⟨fun h => absurd h (by decide), fun _ _ hbreak => absurd hbreak.1.1 (by decide)⟩

/-- **The walk goes round for ever**: the window is mapped behind `0x80000000`, the only
multiple below it but `0`, and a user page in front of it. -/
theorem usedRegion_not_findsAligned : ∃ s, usedRegion = some s ∧ Loaded s 2 ∧ (s.region 2).nextFreeVa < 2 ^ 32 ∧
    (s.region 2).baseVa < 2 ^ 32 ∧ ¬ FindsAligned 2 (2 ^ 19 - 1) (2 ^ 31) s := by
  obtain ⟨s, hs⟩ := exists_usedRegion
  obtain ⟨hl, -⟩ := usedRegion_selfLinked hs
  obtain ⟨hnext, hbase⟩ := usedRegion_next hs
  have hpages : (usedRegion.map fun s => (present (s.word (s.region 2).pgDir 256),
      present (s.word (s.region 2).pgDir (2 ^ 19)), present (s.word (s.region 2).pgDir (2 ^ 20 - 1024)))) =
      some (true, false, true) := by decide +kernel
  rw [hs] at hpages
  obtain ⟨huser, htwo⟩ := Prod.mk.inj (Option.some.inj hpages)
  obtain ⟨hlast, hwindow⟩ := Prod.mk.inj htwo
  refine ⟨s, hs, hl, hnext ▸ by decide, hbase ▸ by decide, fun hfinds => ?_⟩
  have hzero : (s.region 2).nextFreeVa ≠ 0 := hnext ▸ by decide
  have hle : (s.region 2).nextFreeVa ≤ 2 ^ 32 - 2 ^ 19 * pageSize := hnext ▸ by decide
  have hmet := (findsAligned_next hl (by decide : 19 ≤ 19) (by decide) hzero hle).1 hfinds
  have hfit := hmet.2 ?_ hle ⟨⟨by decide, hlast⟩, 2 ^ 20 - 1024, by decide, by decide, hwindow⟩
  · exact absurd (huser.symm.trans (hfit.2.2 256 (by decide) (by decide))) (by decide)
  · rintro v hv ⟨⟨c, rfl⟩, hend, hfree⟩
    have hc : c = 1 := by
      simp only [hnext, userSpaceStart, pageSize] at hv hend
      omega
    obtain rfl := hc
    exact absurd (hwindow.symm.trans (hfree (2 ^ 20 - 1024) (by decide) (by decide))) (by decide)

end Examples

end Flopperating
