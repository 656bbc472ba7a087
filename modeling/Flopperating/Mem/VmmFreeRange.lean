/-
# The first free range

`vmm_find_free_range` walks over all pages and never stops by itself: `va` is a page
address, the bound is the last address, and behind the last page `va` is `0` again.  It
returns the first range that is free, also where that is the range at `0`, which the
callers take for a failure; and where there is no free range it does not return.
-/

import Flopperating.Data.RunSearch
import Flopperating.Mem.VmmUser

namespace Flopperating

open RunSearch Vmm

variable {σ : Vmm} {d k n p q r run start steps v va : ℕ}

/-- Page `p` exists and is not mapped. -/
def FreePage (σ : Vmm) (d p : ℕ) : Prop := p < 2 ^ 20 ∧ present (σ.word d p) = false

/-- `n` pages from the address `s` on lie in the address space and are not mapped. -/
def FitsAt (σ : Vmm) (d n s : ℕ) : Prop :=
  pageSize ∣ s ∧ s + n * pageSize ≤ 2 ^ 32 ∧
    ∀ p, s / pageSize ≤ p → p < s / pageSize + n → present (σ.word d p) = false

/-- The walk ends, at a range that fits, or at `0` when none fits anywhere else. -/
def FindsFree (r n : ℕ) (σ : Vmm) : Prop :=
  ∃ s, vmmFindFreeRange r n σ = some s ∧ (s ≠ 0 → FitsAt σ (σ.region r).pgDir n s) ∧
    (s = 0 → ∀ s', s' ≠ 0 → ¬ FitsAt σ (σ.region r).pgDir n s')

/-- The directory is its own last table. -/
def SelfLinked (σ : Vmm) (d : ℕ) : Prop := tableLink (σ.mem d recursivePde) = some d

theorem fitsAt_iff (hn : 0 < n) : FitsAt σ d n (p * pageSize) ↔ Run (FreePage σ d) n p := by
  unfold FitsAt
  rw [Nat.mul_div_cancel p (by decide : 0 < pageSize)]
  constructor
  · rintro ⟨-, hle, hfree⟩ q hpq hq
    refine ⟨?_, hfree q hpq hq⟩
    simp only [pageSize] at hle
    omega
  · intro hrun
    have hlast := (hrun (p + n - 1) (by omega) (by omega)).1
    refine ⟨Nat.dvd_mul_left _ _, ?_, fun q hpq hq => (hrun q hpq hq).2⟩
    simp only [pageSize]
    omega

theorem not_freePage_last (hself : SelfLinked σ d) : ¬ FreePage σ d (2 ^ 20 - 1) := by
  rintro ⟨-, hfree⟩
  have hword : σ.word d (2 ^ 20 - 1) = σ.mem d recursivePde := word_of_link hself
  rw [hword, (tableLink_eq_some.1 hself).1] at hfree
  exact absurd hfree (by decide)

/-- Every place may begin a run. -/
abbrev anywhere : ℕ → Prop := fun _ => True

/-- What the walk has in `start`. -/
def StartAt (start q k : ℕ) : Prop := 0 < k → start = (q - k) * pageSize

theorem StartAt.zero (start q : ℕ) : StartAt start q 0 := fun h => absurd h (Nat.lt_irrefl 0)

theorem StartAt.succ (q k : ℕ) : StartAt ((q - k) * pageSize) (q + 1) (k + 1) := fun _ => by
  rw [Nat.add_sub_add_right]

section Walk

variable (hl : Loaded σ r)

include hl in
/-- A turn of the loop. -/
theorem vmmFindFreeFrom_step (hq : q < 2 ^ 20) (hstart : StartAt start q k) (hk : k + 1 < 2 ^ 32) :
    vmmFindFreeFrom r n σ (steps + 1) (q * pageSize) k start =
      if present (σ.word (σ.region r).pgDir q) then
        vmmFindFreeFrom r n σ steps ((q + 1) % 2 ^ 20 * pageSize) 0 start
      else if n ≤ k + 1 then some ((q - k) * pageSize)
      else vmmFindFreeFrom r n σ steps ((q + 1) % 2 ^ 20 * pageSize) (k + 1) ((q - k) * pageSize) := by
  have hlt : q * pageSize < 2 ^ 32 := by
    simp only [pageSize]
    omega
  have hnext : u32 (q * pageSize + pageSize) = (q + 1) % 2 ^ 20 * pageSize := by
    simp only [u32, pageSize]
    omega
  have hfirst : (if k = 0 then q * pageSize else start) = (q - k) * pageSize := by
    split_ifs with hzero
    · rw [hzero, Nat.sub_zero]
    · exact hstart (Nat.pos_of_ne_zero hzero)
  rw [vmmFindFreeFrom, if_pos (by simp only [pageSize]; omega), vmmPageUsed_loaded hl hlt,
    Nat.mul_div_cancel q (by decide : 0 < pageSize), Option.bind_eq_bind, Option.bind_some, hnext, u32_of_lt hk, hfirst]
  rfl

variable (hself : SelfLinked σ (σ.region r).pgDir)

/-- The walk at `q` has counted `k` pages. -/
abbrev Walked (r n : ℕ) (σ : Vmm) (q k : ℕ) : Prop :=
  Searched (FreePage σ (σ.region r).pgDir) anywhere n 0 q k

include hl hself in
/-- **The walk finds the first range**, where there is one. -/
theorem vmmFindFreeFrom_isLeast (hw : Walked r n σ q k) (hstart : StartAt start q k) (hq : q < 2 ^ 20)
    (hsteps : 2 ^ 20 ≤ q + steps) (hex : (runs (FreePage σ (σ.region r).pgDir) anywhere n 0).Nonempty) :
    ∃ p, IsLeast (runs (FreePage σ (σ.region r).pgDir) anywhere n 0) p ∧
      vmmFindFreeFrom r n σ steps (q * pageSize) k start = some (p * pageSize) := by
  induction steps generalizing q k start with
  | zero => exact absurd hq (Nat.not_lt.2 hsteps)
  | succ steps ih =>
    have hle := hw.le
    obtain ⟨p, hp⟩ := hex
    have hn : 0 < n := Nat.zero_lt_of_lt hw.lt
    have hpfree : p < 2 ^ 20 := (hp.2.2 p (Nat.le_refl p) (Nat.lt_add_of_pos_right hn)).1
    rw [vmmFindFreeFrom_step hl hq hstart (by omega)]
    by_cases hused : present (σ.word (σ.region r).pgDir q) = true
    · have hnot : ¬ FreePage σ (σ.region r).pgDir q := fun hfree => absurd (hused.symm.trans hfree.2) (by decide)
      have hlt := hw.lt_of_not_free hnot hp
      rw [if_pos hused, Nat.mod_eq_of_lt (show q + 1 < 2 ^ 20 by omega)]
      exact ih (hw.block hnot (Nat.lt_succ_self q) fun _ _ _ => by omega) (.zero _ _)
        (by omega) (by omega)
    · have hfree : FreePage σ (σ.region r).pgDir q := ⟨hq, Bool.not_eq_true _ ▸ hused⟩
      have hlast : q ≠ 2 ^ 20 - 1 := fun heq => not_freePage_last hself (heq ▸ hfree)
      rw [if_neg hused]
      by_cases hfull : n ≤ k + 1
      · rw [if_pos hfull]
        exact ⟨q - k, hw.found hfree (fun _ => trivial) hfull, rfl⟩
      · rw [if_neg hfull, Nat.mod_eq_of_lt (show q + 1 < 2 ^ 20 by omega)]
        exact ih (hw.extend hfree (fun _ => trivial) (by omega)) (StartAt.succ q k) (by omega) (by omega)

include hl hself in
/-- **The walk goes on for ever**, where there is no range: behind the last page it is at
the first again, with nothing counted. -/
theorem vmmFindFreeFrom_endless (hw : Walked r n σ q k) (hstart : StartAt start q k) (hq : q < 2 ^ 20)
    (hnone : runs (FreePage σ (σ.region r).pgDir) anywhere n 0 = ∅) :
    vmmFindFreeFrom r n σ steps (q * pageSize) k start = none := by
  induction steps generalizing q k start with
  | zero => rfl
  | succ steps ih =>
    have hle := hw.le
    have hn : 0 < n := Nat.zero_lt_of_lt hw.lt
    rw [vmmFindFreeFrom_step hl hq hstart (by omega)]
    by_cases hused : present (σ.word (σ.region r).pgDir q) = true
    · have hnot : ¬ FreePage σ (σ.region r).pgDir q := fun hfree => absurd (hused.symm.trans hfree.2) (by decide)
      rw [if_pos hused]
      rcases Nat.lt_or_ge (q + 1) (2 ^ 20) with hlt | hge
      · rw [Nat.mod_eq_of_lt hlt]
        exact ih (hw.block hnot (Nat.lt_succ_self q) fun _ _ _ => by omega) (.zero _ _) hlt
      · rw [show (q + 1) % 2 ^ 20 = 0 by omega]
        exact ih (.zero hn) (.zero _ _) (by decide)
    · have hfree : FreePage σ (σ.region r).pgDir q := ⟨hq, Bool.not_eq_true _ ▸ hused⟩
      have hlast : q ≠ 2 ^ 20 - 1 := fun heq => not_freePage_last hself (heq ▸ hfree)
      have hfull : ¬ n ≤ k + 1 := fun hfull =>
        Set.eq_empty_iff_forall_notMem.1 hnone _ (hw.found hfree (fun _ => trivial) hfull).1
      rw [if_neg hused, if_neg hfull, Nat.mod_eq_of_lt (show q + 1 < 2 ^ 20 by omega)]
      exact ih (hw.extend hfree (fun _ => trivial) (by omega)) (StartAt.succ q k) (by omega)

end Walk

theorem mem_runs_iff (hn : 0 < n) : p ∈ runs (FreePage σ d) anywhere n 0 ↔ FitsAt σ d n (p * pageSize) :=
  ⟨fun h => (fitsAt_iff hn).2 h.2.2, fun h => ⟨Nat.zero_le p, trivial, (fitsAt_iff hn).1 h⟩⟩

section Search

variable (hl : Loaded σ r) (hself : SelfLinked σ (σ.region r).pgDir) (hn : 0 < n)

include hl hself hn

/-- **Where a range fits**, the first one is returned. -/
theorem vmmFindFreeRange_isLeast (hex : ∃ s, FitsAt σ (σ.region r).pgDir n s) :
    ∃ s, IsLeast {s | FitsAt σ (σ.region r).pgDir n s} s ∧ vmmFindFreeRange r n σ = some s := by
  obtain ⟨s, hs⟩ := hex
  obtain ⟨p, rfl⟩ := hs.1
  rw [Nat.mul_comm] at hs
  have hsteps : 2 ^ 20 ≤ 0 + vmmSteps := by decide
  obtain ⟨q, hq, hrun⟩ := vmmFindFreeFrom_isLeast hl hself (.zero hn) (StartAt.zero 0 0) (by decide) hsteps
    ⟨p, (mem_runs_iff hn).2 hs⟩
  rw [Nat.zero_mul] at hrun
  refine ⟨q * pageSize, ⟨(mem_runs_iff hn).1 hq.1, fun s' hs' => ?_⟩, hrun⟩
  obtain ⟨p', rfl⟩ := hs'.1
  have hs'' : FitsAt σ (σ.region r).pgDir n (p' * pageSize) := Nat.mul_comm pageSize p' ▸ hs'
  rw [Nat.mul_comm pageSize]
  exact Nat.mul_le_mul_right _ (hq.2 ((mem_runs_iff hn).2 hs''))

/-- **Where no range fits**, nothing is returned. -/
theorem vmmFindFreeRange_endless (hnone : ∀ s, ¬ FitsAt σ (σ.region r).pgDir n s) :
    vmmFindFreeRange r n σ = none := by
  have hempty : runs (FreePage σ (σ.region r).pgDir) anywhere n 0 = ∅ :=
    Set.eq_empty_iff_forall_notMem.2 fun p hp => hnone _ ((mem_runs_iff hn).1 hp)
  have hrun : vmmFindFreeFrom r n σ vmmSteps (0 * pageSize) 0 0 = none :=
    vmmFindFreeFrom_endless hl hself (.zero hn) (StartAt.zero 0 0) (by decide) hempty
  rwa [Nat.zero_mul] at hrun

/-- The range at `0` is returned where it fits. -/
theorem not_findsFree_of_zero {s : ℕ} (hzero : FitsAt σ (σ.region r).pgDir n 0) (hs : s ≠ 0)
    (hfits : FitsAt σ (σ.region r).pgDir n s) : ¬ FindsFree r n σ := by
  rintro ⟨v, hv, -, hall⟩
  obtain ⟨v', hv', hrun⟩ := vmmFindFreeRange_isLeast hl hself hn ⟨0, hzero⟩
  obtain rfl := Option.some.inj (hv.symm.trans hrun)
  exact hall (Nat.le_zero.1 (hv'.2 hzero)) s hs hfits

/-- **`vmm_find_free_range`** meets its purpose exactly where some range fits, and the
range at `0` only when it is the only one. -/
theorem vmmFindFreeRange_iff : FindsFree r n σ ↔ (∃ s, FitsAt σ (σ.region r).pgDir n s) ∧
    (FitsAt σ (σ.region r).pgDir n 0 → ∀ s, s ≠ 0 → ¬ FitsAt σ (σ.region r).pgDir n s) := by
  constructor
  · intro hfinds
    refine ⟨?_, fun hzero s hs hfits => not_findsFree_of_zero hl hself hn hzero hs hfits hfinds⟩
    by_contra hnone
    obtain ⟨v, hv, -⟩ := hfinds
    rw [vmmFindFreeRange_endless hl hself hn fun s hs => hnone ⟨s, hs⟩] at hv
    exact absurd hv (by simp)
  · rintro ⟨hex, honly⟩
    obtain ⟨v, hv, hrun⟩ := vmmFindFreeRange_isLeast hl hself hn hex
    refine ⟨v, hrun, fun _ => hv.1, ?_⟩
    rintro rfl
    exact honly hv.1

end Search

section Examples

variable {s : Vmm}

theorem usedRegion_selfLinked (hs : usedRegion = some s) : Loaded s 2 ∧ SelfLinked s (s.region 2).pgDir := by
  obtain ⟨hl, dirs, h, hd⟩ := usedRegion_spaces hs
  exact ⟨hl, h.toDirectories.self _ hd⟩

/-- The first two pages of the region are not mapped. -/
theorem usedRegion_fitsAt (hs : usedRegion = some s) (hq : q < 2) : FitsAt s (s.region 2).pgDir 1 (q * pageSize) := by
  have hfree : (usedRegion.map fun s => decide (∀ q : ℕ, q < 2 → present (s.word (s.region 2).pgDir q) = false)) = some true := by
    decide +kernel
  rw [hs] at hfree
  refine (fitsAt_iff Nat.one_pos).2 fun p hle hlt => ⟨by omega, ?_⟩
  exact of_decide_eq_true (Option.some.inj hfree) p (by omega)

/-- The range of 257 pages in front of the first page that is mapped does not fit. -/
theorem usedRegion_findsFree : ∃ s, usedRegion = some s ∧ FindsFree 2 257 s := by
  obtain ⟨s, hs⟩ := exists_usedRegion
  obtain ⟨hl, hself⟩ := usedRegion_selfLinked hs
  have hpages : (usedRegion.map fun s => present (s.word (s.region 2).pgDir 256) &&
      decide (∀ i : ℕ, i < 257 → present (s.word (s.region 2).pgDir (257 + i)) = false)) = some true := by
    decide +kernel
  rw [hs] at hpages
  obtain ⟨hused, hfree⟩ := Bool.and_eq_true_iff.1 (Option.some.inj hpages)
  refine ⟨s, hs, (vmmFindFreeRange_iff hl hself (by decide)).2 ⟨⟨257 * pageSize, ?_⟩, fun hzero => ?_⟩⟩
  · refine (fitsAt_iff (by decide)).2 fun p hle hlt => ⟨by omega, ?_⟩
    have hp := of_decide_eq_true hfree (p - 257) (by omega)
    rwa [Nat.add_sub_cancel' hle] at hp
  · exact absurd (hused.symm.trans (hzero.2.2 256 (by decide) (by decide))) (by decide)

/-- **The free range at `0` is returned**, though the next page is free too. -/
theorem zero_not_findsFree : ∃ s, usedRegion = some s ∧ Loaded s 2 ∧ SelfLinked s (s.region 2).pgDir ∧
    ¬ FindsFree 2 1 s := by
  obtain ⟨s, hs⟩ := exists_usedRegion
  obtain ⟨hl, hself⟩ := usedRegion_selfLinked hs
  exact ⟨s, hs, hl, hself, not_findsFree_of_zero hl hself Nat.one_pos (usedRegion_fitsAt hs Nat.two_pos)
    (by decide) (usedRegion_fitsAt hs Nat.one_lt_two)⟩

end Examples

end Flopperating
