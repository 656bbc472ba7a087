/-
# Looking for a free range

`vmm_find_free_range` and `vmm_find_free_range_aligned` walk over the pages and count
those that are not mapped.  What they return, unless it is `0`, is the start of a range
none of whose pages is mapped (`vmmFindFreeRange_spec`, `vmmFindFreeRangeAligned_spec`).
The range does not wrap around: the last page is the directory itself, in its own
window, and always mapped.
-/

import Flopperating.Mem.VmmClassRuns

namespace Flopperating

open Vmm

variable {σ : Vmm} {dirs : ℕ → Prop} {alignment d k n p q r run start steps v va : ℕ}

/-- None of the `k` pages from page `p` on is mapped in the address space of `d`. -/
def Vacant (σ : Vmm) (d p k : ℕ) : Prop := ∀ q, p ≤ q → q < p + k → present (σ.word d q) = false

theorem Vacant.snoc (h : Vacant σ d p k) (hq : present (σ.word d (p + k)) = false) :
    Vacant σ d p (k + 1) := fun q hpq hq' =>
  (Nat.lt_or_eq_of_le (Nat.le_of_lt_succ hq')).elim (h q hpq) fun he => he ▸ hq

theorem Vacant.mono (h : Vacant σ d p k) (hn : n ≤ k) : Vacant σ d p n := fun q hpq hq =>
  h q hpq (hq.trans_le (Nat.add_le_add_left hn p))

/-- The last page is the directory itself. -/
theorem present_lastPage (h : Directories σ dirs) (hd : dirs d) :
    present (σ.word d (2 ^ 20 - 1)) = true := by
  rw [word_window h hd (by decide)]
  exact (tableLink_eq_some.1 (h.self d hd)).1

/-- What the walks remember: the pages from `start` to `va` are not mapped. -/
structure Counted (σ : Vmm) (d va run start : ℕ) : Prop where
  lt : va < 2 ^ 32
  count : 0 < run → start + run * pageSize = va ∧ Vacant σ d (start / pageSize) run

theorem Counted.zero (h : va < 2 ^ 32) : Counted σ d va 0 start := ⟨h, fun h0 => absurd h0 (by simp)⟩

/-- One more page that is not mapped. -/
theorem Counted.succ (h : Counted σ d va run start)
    (hfree : present (σ.word d (va / pageSize)) = false) :
    (if run = 0 then va else start) + run * pageSize = va ∧
      Vacant σ d ((if run = 0 then va else start) / pageSize) (run + 1) ∧ u32 (run + 1) = run + 1 := by
  have hlt := h.lt
  rcases Nat.eq_zero_or_pos run with rfl | hpos
  · refine ⟨by simp, fun q hpq hq => ?_, rfl⟩
    rw [if_pos rfl] at hpq hq
    rwa [show q = va / pageSize by omega]
  · obtain ⟨hva, hvac⟩ := h.count hpos
    rw [if_neg hpos.ne']
    refine ⟨hva, hvac.snoc ?_, u32_of_lt ?_⟩
    · rwa [← page_div, hva]
    · simp only [pageSize] at hva
      omega

section Search

variable (h : Directories σ dirs) (hd : dirs (σ.region r).pgDir) (hl : Loaded σ r)

/-- `v` is the start of `n` pages that are not mapped, at least of one. -/
structure FreeRange (σ : Vmm) (d n v : ℕ) : Prop where
  vacant : Vacant σ d (v / pageSize) (max n 1)
  le : v + max n 1 * pageSize < 2 ^ 32

theorem FreeRange.first_lt (h : FreeRange σ d n v) : v + pageSize < 2 ^ 32 := by
  have hle := h.le
  have hmax := Nat.le_max_right n 1
  simp only [pageSize] at *
  omega

theorem Counted.freeRange (hc : Counted σ d va run start) (hva : va + pageSize < 2 ^ 32)
    (hfree : present (σ.word d (va / pageSize)) = false) (hn : n ≤ run + 1) :
    FreeRange σ d n (if run = 0 then va else start) := by
  obtain ⟨hstart, hvac, -⟩ := hc.succ hfree
  have hle : max n 1 ≤ run + 1 := by omega
  refine ⟨hvac.mono hle, lt_of_le_of_lt (Nat.add_le_add_left (Nat.mul_le_mul_right _ hle) _) ?_⟩
  rw [Nat.succ_mul, ← Nat.add_assoc, hstart]
  exact hva

include h hd in
/-- A page that is not mapped is not the last one. -/
theorem page_add_lt (hva : pageSize ∣ va) (hlt : va < 2 ^ 32)
    (hfree : present (σ.word (σ.region r).pgDir (va / pageSize)) = false) : va + pageSize < 2 ^ 32 := by
  have hlast : va / pageSize ≠ 2 ^ 20 - 1 := fun he => by
    rw [he, present_lastPage h hd] at hfree
    exact absurd hfree (by simp)
  obtain ⟨m, rfl⟩ := hva
  simp only [pageSize] at *
  omega

include h hd hl in
theorem vmmFindFreeFrom_spec (hva : pageSize ∣ va) (hc : Counted σ (σ.region r).pgDir va run start)
    (hrun : vmmFindFreeFrom r n σ steps va run start = some v) (hv : v ≠ 0) :
    pageSize ∣ v ∧ FreeRange σ (σ.region r).pgDir n v := by
  induction steps generalizing va run start with
  | zero => exact absurd hrun (by simp [vmmFindFreeFrom])
  | succ steps ih =>
    have hlt := hc.lt
    have hnext : pageSize ∣ u32 (va + pageSize) :=
      (Nat.dvd_mod_iff (by decide)).2 (Nat.dvd_add hva (Nat.dvd_refl _))
    have hnext_lt : u32 (va + pageSize) < 2 ^ 32 := Nat.mod_lt _ (by decide)
    rw [vmmFindFreeFrom] at hrun
    split at hrun
    · rw [vmmPageUsed_loaded hl hlt, Option.bind_eq_bind, Option.bind_some] at hrun
      rcases hused : present (σ.word (σ.region r).pgDir (va / pageSize)) with - | -
      · obtain ⟨hstart, hvac, hwrap⟩ := hc.succ hused
        have hadd := page_add_lt h hd hva hlt hused
        rw [hused, hwrap] at hrun
        replace hrun : (if n ≤ run + 1 then some (if run = 0 then va else start) else _) = some v := hrun
        split at hrun
        · next hn =>
          obtain rfl := Option.some.inj hrun
          have hdvd : pageSize ∣ (if run = 0 then va else start) + run * pageSize := hstart.symm ▸ hva
          exact ⟨(Nat.dvd_add_left (Nat.dvd_mul_left pageSize run)).1 hdvd, hc.freeRange hadd hused hn⟩
        · refine ih hnext ⟨hnext_lt, fun _ => ⟨?_, hvac⟩⟩ hrun
          rw [u32_of_lt hadd, Nat.succ_mul, ← Nat.add_assoc, hstart]
      · rw [hused] at hrun
        exact ih hnext (.zero hnext_lt) hrun
    · exact absurd (Option.some.inj hrun).symm hv

include h hd hl in
/-- **`vmm_find_free_range`** returns the start of a range that is not mapped, or `0`. -/
theorem vmmFindFreeRange_spec (hrun : vmmFindFreeRange r n σ = some v) (hv : v ≠ 0) :
    pageSize ∣ v ∧ FreeRange σ (σ.region r).pgDir n v :=
  vmmFindFreeFrom_spec h hd hl (Nat.dvd_zero _) (.zero (by decide)) hrun hv

include hl in
theorem vmmFindAlignedFrom_spec (hc : Counted σ (σ.region r).pgDir va run start)
    (hrun : vmmFindAlignedFrom r n alignment σ steps va run start = some v) (hv : v ≠ 0) :
    FreeRange σ (σ.region r).pgDir n v := by
  induction steps generalizing va run start with
  | zero => exact absurd hrun (by simp [vmmFindAlignedFrom])
  | succ steps ih =>
    have hlt := hc.lt
    have hnext_lt : ∀ a, u32 a < 2 ^ 32 := fun a => Nat.mod_lt _ (by decide)
    rw [vmmFindAlignedFrom] at hrun
    split at hrun
    · next hend =>
      have hadd : va + pageSize < 2 ^ 32 := Nat.add_lt_of_lt_sub hend
      split at hrun
      · next hskip =>
        obtain ⟨rfl, -⟩ := hskip
        exact ih (.zero (hnext_lt _)) hrun
      · rw [vmmPageUsed_loaded hl hlt, Option.bind_eq_bind, Option.bind_some] at hrun
        rcases hused : present (σ.word (σ.region r).pgDir (va / pageSize)) with - | -
        · obtain ⟨hstart, hvac, hwrap⟩ := hc.succ hused
          rw [hused, hwrap] at hrun
          replace hrun : (if n ≤ run + 1 then some (if run = 0 then va else start) else _) = some v :=
            hrun
          split at hrun
          · next hn =>
            obtain rfl := Option.some.inj hrun
            exact hc.freeRange hadd hused hn
          · refine ih ⟨hnext_lt _, fun _ => ⟨?_, hvac⟩⟩ hrun
            rw [u32_of_lt hadd, Nat.succ_mul, ← Nat.add_assoc, hstart]
        · rw [hused] at hrun
          exact ih (.zero (hnext_lt _)) hrun
    · exact absurd (Option.some.inj hrun).symm hv

include hl in
/-- **`vmm_find_free_range_aligned`** returns the start of a range that is not mapped, or
`0`. -/
theorem vmmFindFreeRangeAligned_spec (hnext : (σ.region r).nextFreeVa < 2 ^ 32)
    (hbase : (σ.region r).baseVa < 2 ^ 32)
    (hrun : vmmFindFreeRangeAligned r n alignment σ = some v) (hv : v ≠ 0) :
    FreeRange σ (σ.region r).pgDir n v := by
  refine vmmFindAlignedFrom_spec hl (.zero ?_) hrun hv
  split
  · split
    · exact lt_of_le_of_lt Nat.and_le_left (Nat.mod_lt _ (by decide))
    · exact hnext
  · exact hbase

end Search

end Flopperating
