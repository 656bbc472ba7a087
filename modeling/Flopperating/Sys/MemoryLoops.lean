/-
# What the loops of the memory system calls do

The loops on the loaded region, over any range that does not pass the end of the address
space, the recursive window included.

* `Resolves`: `vmm_resolve` gives the loop something to unmap and free.
* `sysFreeFrom_spec`: the loop that frees clears the pages that resolve, when none of them
  is in the window; in any case a page is unmapped or as before (`sysFreeFrom_shrinks`), and
  page tables in the window are unlinked after the pages below it (`sysFreeFrom_all`).
* `sysProtectFrom_spec`: first the pages below the window get their flags, then the page
  tables themselves, which the window shows.
-/

import Flopperating.Sys.Memory

namespace Flopperating

open Vmm TwoLevel

variable {σ σ' σ₁ : Vmm} {dirs : ℕ → Prop} {d i k m n p q r t va start flags off : ℕ}

/-! ### Pages of a range -/

/-- Step `i` of a loop over a range that fits. -/
theorem range_fits (hfit : start + (i + (n + 1)) * pageSize < 2 ^ 32) :
    u32 (start + i * pageSize) = start + i * pageSize ∧ start + i * pageSize < 2 ^ 32 ∧
      (start + i * pageSize) / pageSize = start / pageSize + i ∧
      (start + i * pageSize) % pageSize = start % pageSize ∧ start + (i + 1 + n) * pageSize < 2 ^ 32 := by
  have hlt : start + i * pageSize < 2 ^ 32 :=
    lt_of_le_of_lt (Nat.add_le_add_left (Nat.mul_le_mul_right _ (Nat.le_add_right i _)) _) hfit
  have hnext : i + 1 + n = i + (n + 1) := by omega
  refine ⟨u32_of_lt hlt, hlt, page_div start i, Nat.add_mul_mod_self_right _ _ _, ?_⟩
  rw [hnext]
  exact hfit

/-- A page of the range is below the last page of the window. -/
theorem page_lt_of_fits (hfit : start + (i + n) * pageSize < 2 ^ 32) (hq : q < start / pageSize + i + n) :
    q < windowPage + recursivePde := by
  have hfit : start + (i + n) * 4096 < 4294967296 := hfit
  have hq : q < start / 4096 + i + n := hq
  change q < 1023 * 1024 + 1023
  omega

theorem fits_zero (hfit : start + n * pageSize < 2 ^ 32) : start + (0 + n) * pageSize < 2 ^ 32 := by
  rwa [Nat.zero_add]

theorem page_lt_of_fits_zero (hfit : start + n * pageSize < 2 ^ 32) (hq : q < start / pageSize + n) :
    q < windowPage + recursivePde :=
  page_lt_of_fits (fits_zero hfit) hq

theorem lt_recursiveAddr_of_page (hp : va / pageSize < windowPage) : va < recursiveAddr := by
  simp only [pageSize, windowPage, recursivePde, pageEntries, recursiveAddr] at *
  omega

theorem window_div (hq : windowPage ≤ q) (hlt : q < windowPage + recursivePde) :
    q / pageEntries = recursivePde ∧ q % pageEntries = q - windowPage ∧ q - windowPage < recursivePde := by
  simp only [windowPage, recursivePde, pageEntries] at *
  omega

/-- The number of pages of an address space. -/
abbrev addressPages : ℕ := windowPage + pageEntries

/-- The window shows the directory. -/
theorem word_of_self (hself : tableLink (σ.mem d recursivePde) = some d) (hq : windowPage ≤ q)
    (hlt : q < addressPages) : σ.word d q = σ.mem d (q - windowPage) := by
  have hdiv : q / pageEntries = recursivePde ∧ q % pageEntries = q - windowPage := by
    simp only [addressPages, windowPage, recursivePde, pageEntries] at *
    omega
  rw [word_of_link (by rw [hdiv.1]; exact hself), hdiv.2]

theorem word_of_window (h : Directories σ dirs) (hd : dirs d) (hq : windowPage ≤ q)
    (hlt : q < windowPage + recursivePde) : σ.word d q = σ.mem d (q - windowPage) :=
  word_of_self (h.self d hd) hq (hlt.trans (by decide))

/-! ### Unmapping and freeing -/

/-- `vmm_resolve` does not return `0` for the address at offset `off` of page `q`. -/
def Resolves (σ : Vmm) (d off q : ℕ) : Prop :=
  present (σ.word d q) = true ∧ maskLow (σ.word d q) pageSize ||| off ≠ 0

instance instDecidableResolves (σ : Vmm) (d off q : ℕ) : Decidable (Resolves σ d off q) :=
  inferInstanceAs (Decidable (_ ∧ _))

theorem vmmResolve_of_resolves (hl : Loaded σ r) (hva : va < 2 ^ 32) :
    vmmResolve r va σ = some (if Resolves σ (σ.region r).pgDir (va % pageSize) (va / pageSize)
      then maskLow (σ.word (σ.region r).pgDir (va / pageSize)) pageSize ||| va % pageSize else 0) := by
  rw [vmmResolve_loaded hl hva]
  refine congrArg some ?_
  split
  · next hpres =>
    split
    · rfl
    · next hno => exact not_not.1 fun hne => hno ⟨hpres, hne⟩
  · next hpres => rw [if_neg fun h => hpres h.1]

/-- The pages `p` to `p + n` of directory `d` that resolve are unmapped and freed, and
nothing else has changed in any address space. -/
structure FreedRange (σ σ' : Vmm) (dirs : ℕ → Prop) (d off p n : ℕ) : Prop where
  same : SameDescriptors σ σ'
  dir : ∀ d', dirs d' → σ'.mem d' = σ.mem d'
  word : ∀ q, q < windowPage →
    σ'.word d q = if p ≤ q ∧ q < p + n ∧ Resolves σ d off q then 0 else σ.word d q
  free : σ'.freePages = freedPages (σ.word d) off p n ++ σ.freePages

theorem FreedRange.zero : FreedRange σ σ dirs d off p 0 :=
  ⟨.refl σ, fun _ _ => rfl, fun _ _ => (if_neg (by omega)).symm, rfl⟩

/-- A page that does not resolve, then the rest. -/
theorem FreedRange.skip (hno : ¬ Resolves σ d off p) (h : FreedRange σ σ' dirs d off (p + 1) n) :
    FreedRange σ σ' dirs d off p (n + 1) where
  same := h.same
  dir := h.dir
  word q hq := by
    rw [h.word q hq]
    refine if_congr ⟨fun hin => ⟨by omega, by omega, hin.2.2⟩, fun hin => ⟨?_, by omega, hin.2.2⟩⟩ rfl rfl
    exact Nat.lt_of_le_of_ne hin.1 fun he => hno (he ▸ hin.2.2)
  free := by
    have hno : ¬ (present (σ.word d p) = true ∧ maskLow (σ.word d p) pageSize ||| off ≠ 0) := hno
    rw [h.free, freedPages, freedPages, List.range'_succ, List.filterMap_cons, if_neg hno]

/-- What `pmm_free_page` gets back of a page that resolves. -/
theorem freePages_freePage_word {p : ℕ} (hoff : off < pageSize) (hres : Resolves σ d off p) (σ₁ : Vmm) :
    (σ₁.freePage (maskLow (σ.word d p) pageSize ||| off)).freePages = maskLow (σ.word d p) pageSize :: σ₁.freePages := by
  rw [Vmm.freePage, if_neg hres.2, maskLow_or, maskLow_maskLow, maskLow_of_lt hoff, Nat.or_zero]

/-- A page that is unmapped and freed, then the rest. -/
theorem FreedRange.cons (hdirs : Directories σ dirs) (hd : dirs d) (hoff : off < pageSize)
    (hfit : p + n < windowPage + recursivePde) (hp : p < windowPage) (hres : Resolves σ d off p)
    (hw : Wrote σ σ₁ dirs d p 0)
    (h : FreedRange (σ₁.freePage (maskLow (σ.word d p) pageSize ||| off)) σ' dirs d off (p + 1) n) :
    FreedRange σ σ' dirs d off p (n + 1) := by
  obtain ⟨hsame, hmem⟩ := freePage_same (maskLow (σ.word d p) pageSize ||| off) σ₁
  have hpages : (σ₁.freePage (maskLow (σ.word d p) pageSize ||| off)).freePages =
      maskLow (σ.word d p) pageSize :: σ.freePages := by
    rw [freePages_freePage_word hoff hres, hw.free]
  generalize σ₁.freePage (maskLow (σ.word d p) pageSize ||| off) = σ₂ at h hsame hmem hpages
  have hdir : ∀ d', dirs d' → σ₂.mem d' = σ.mem d' := fun d' hd' => by rw [hmem, hw.dir d' hd']
  have hword : ∀ q, q < windowPage + recursivePde → q ≠ p → σ₂.word d q = σ.word d q := fun q hq hne => by
    rcases Nat.lt_or_ge q windowPage with hlt | hge
    · rw [Vmm.word, hmem, ← Vmm.word, hw.word d q hd hlt, if_neg fun hk => hne hk.2]
    · rw [word_of_window hdirs hd hge hq, word_of_window (hdirs.congr hdir) hd hge hq, hdir d hd]
  have hresolves : ∀ q, q < windowPage + recursivePde → q ≠ p → (Resolves σ₂ d off q ↔ Resolves σ d off q) :=
    fun q hq hne => by rw [Resolves, hword q hq hne, Resolves]
  refine ⟨hw.same.trans (hsame.trans h.same), fun d' hd' => (h.dir d' hd').trans (hdir d' hd'), fun q hq => ?_, ?_⟩
  · have hq' : q < windowPage + recursivePde := hq.trans (by decide)
    rw [h.word q hq]
    rcases eq_or_ne q p with rfl | hne
    · rw [if_neg (by omega), if_pos ⟨le_rfl, by omega, hres⟩, Vmm.word, hmem, ← Vmm.word, hw.word d q hd hq,
        if_pos ⟨rfl, rfl⟩]
    · rw [hword q hq' hne]
      refine if_congr ?_ rfl rfl
      rw [hresolves q hq' hne]
      constructor
      · exact fun hin => ⟨by omega, by omega, hin.2.2⟩
      · exact fun hin => ⟨by omega, by omega, hin.2.2⟩
  · have hrest : freedPages (σ₂.word d) off (p + 1) n = freedPages (σ.word d) off (p + 1) n :=
      freedPages_congr fun q hq hqn => hword q (by omega) (by omega)
    rw [h.free, hpages, hrest, freedPages_succ (σ.word d) hoff, if_pos hres.1]
    simp only [hres.2, ne_eq, not_false_eq_true, if_true]
    rw [maskLow_or, maskLow_maskLow, maskLow_of_lt hoff, Nat.or_zero]

section Free

variable (h : Directories σ dirs) (hd : dirs (σ.region r).pgDir) (hl : Loaded σ r)
  (hfit : start + (i + n) * pageSize < 2 ^ 32)

include h hd hl hfit in
/-- **The loop that frees**, when it finds nothing in the window. -/
theorem sysFreeFrom_spec (hwindow : ∀ q, start / pageSize + i ≤ q → q < start / pageSize + i + n → windowPage ≤ q →
      ¬ Resolves σ (σ.region r).pgDir (start % pageSize) q) :
    ∃ σ', sysFreeFrom r start n i σ = some σ' ∧
      FreedRange σ σ' dirs (σ.region r).pgDir (start % pageSize) (start / pageSize + i) n := by
  induction n generalizing i σ with
  | zero => exact ⟨σ, rfl, .zero⟩
  | succ n ih =>
    obtain ⟨hva, hlt, hpage, hoff, hfit'⟩ := range_fits hfit
    have hbound : start / pageSize + i + n < windowPage + recursivePde := page_lt_of_fits hfit (by omega)
    have hresolve := vmmResolve_of_resolves hl hlt
    rw [hpage, hoff] at hresolve
    rw [sysFreeFrom, hva, hresolve, Option.bind_some]
    by_cases hres : Resolves σ (σ.region r).pgDir (start % pageSize) (start / pageSize + i)
    · rw [if_pos hres, if_pos hres.2]
      have hbelow : start / pageSize + i < windowPage := by
        by_contra hge
        exact hwindow _ le_rfl (by omega) (Nat.le_of_not_lt hge) hres
      rcases vmmUnmap_loaded h hd hl (lt_recursiveAddr_of_page (hpage ▸ hbelow)) with
        ⟨hnone, -⟩ | ⟨-, σ₁, hrun, hw⟩
      · rw [hpage] at hnone
        exact absurd (hasTable_of_present hres.1) (by rw [hnone]; simp)
      · rw [hpage] at hw
        rw [hrun, Option.bind_some]
        obtain ⟨hsame, hmem⟩ := freePage_same
          (maskLow (σ.word (σ.region r).pgDir (start / pageSize + i)) pageSize ||| start % pageSize) σ₁
        have hall := hw.same.trans hsame
        have hdir : ∀ d', dirs d' → (σ₁.freePage (maskLow (σ.word (σ.region r).pgDir (start / pageSize + i))
            pageSize ||| start % pageSize)).mem d' = σ.mem d' := fun d' hd' => by rw [hmem, hw.dir d' hd']
        have hreg := congrFun hall.region r
        obtain ⟨σ', hrun', hfreed⟩ := ih (h.congr hdir) (by rw [hreg]; exact hd) (hl.of_same hall) hfit' fun q hq hqn hge => by
          have hq' : q < windowPage + recursivePde := page_lt_of_fits hfit' hqn
          rw [hreg, Resolves, word_of_window (h.congr hdir) hd hge hq', hdir _ hd, ← word_of_window h hd hge hq']
          exact hwindow q (by omega) (by omega) hge
        rw [hreg] at hfreed
        exact ⟨σ', hrun', .cons h hd (Nat.mod_lt _ (by decide)) hbound hbelow hres hw hfreed⟩
    · rw [if_neg hres, if_neg (by simp)]
      obtain ⟨σ', hrun', hfreed⟩ := ih h hd hl hfit' fun q hq hqn => hwindow q (by omega) (by omega)
      exact ⟨σ', hrun', .skip hres hfreed⟩

end Free

/-- Every page of the address space is as before or not mapped. -/
def Shrunk (σ σ' : Vmm) (d : ℕ) : Prop := ∀ q, present (σ'.word d q) = true → σ'.word d q = σ.word d q

theorem Shrunk.trans (h : Shrunk σ σ₁ d) (h' : Shrunk σ₁ σ' d) : Shrunk σ σ' d := fun q hpres => by
  have hsame := h' q hpres
  rw [hsame] at hpres ⊢
  exact h q hpres

/-- Clearing any word of memory unmaps pages and does no more. -/
theorem shrunk_setWord (σ : Vmm) (a j d : ℕ) : Shrunk σ (σ.setWord a j 0) d := by
  intro q hpres
  rcases hlink : tableLink ((σ.setWord a j 0).mem d (q / pageEntries)) with - | t
  · rw [Vmm.word, entry_of_none hlink, present_zero] at hpres
    exact absurd hpres (by simp)
  · rw [word_of_link hlink] at hpres ⊢
    have hold : tableLink (σ.mem d (q / pageEntries)) = some t := by
      change tableLink (write σ.mem a j 0 d (q / pageEntries)) = some t at hlink
      rw [write_apply] at hlink
      split at hlink
      · rw [tableLink_zero] at hlink
        exact absurd hlink (by simp)
      · exact hlink
    rw [word_of_link hold]
    change present (write σ.mem a j 0 t (q % pageEntries)) = true at hpres
    change write σ.mem a j 0 t (q % pageEntries) = _
    rw [write_apply] at hpres ⊢
    split at hpres
    · rw [present_zero] at hpres
      exact absurd hpres (by simp)
    · next hne => exact if_neg hne

/-- Clearing the word of a page through its table. -/
theorem word_cleared (hlink : tableLink (σ.mem d (p / pageEntries)) = some t) :
    present ((σ.setWord t (p % pageEntries) 0).word d p) = false := by
  have hmem : (σ.setWord t (p % pageEntries) 0).mem = write σ.mem t (p % pageEntries) 0 := rfl
  by_cases hself : d = t ∧ p / pageEntries = p % pageEntries
  · have hnone : tableLink ((σ.setWord t (p % pageEntries) 0).mem d (p / pageEntries)) = none := by
      rw [hmem, write_apply, if_pos hself, tableLink_zero]
    rw [Vmm.word, entry_of_none hnone, present_zero]
  · have hsome : tableLink ((σ.setWord t (p % pageEntries) 0).mem d (p / pageEntries)) = some t := by
      rw [hmem, write_apply, if_neg hself, hlink]
    rw [word_of_link hsome, hmem, write_self, present_zero]

/-- `vmm_unmap` on the loaded region, anywhere. -/
theorem vmmUnmap_shrinks (hl : Loaded σ r) (hva : va < 2 ^ 32) : ∃ status σ', vmmUnmap r va σ = some (status, σ') ∧
    SameDescriptors σ σ' ∧ Shrunk σ σ' (σ.region r).pgDir ∧
      present (σ'.word (σ.region r).pgDir (va / pageSize)) = false := by
  rw [vmmUnmap, recursivePt_loaded hl, pdIndex_eq hva]
  split
  · next hp =>
    have hlink := tableLink_of_present hp
    refine ⟨0, σ.setWord (maskLow (σ.pde r (va / pageSize / pageEntries)) pageSize) (ptIndex va) 0, ?_,
      ⟨rfl, rfl, rfl, rfl, rfl, rfl, rfl⟩, shrunk_setWord σ _ _ _, word_cleared hlink⟩
    rw [hlink]
    rfl
  · next hp =>
    exact ⟨-1, σ, rfl, .refl σ, fun _ _ => rfl, by rw [word_of_absent (Bool.not_eq_true _ ▸ hp), present_zero]⟩

/-- **The loop that frees** only unmaps pages, among them all that resolve. -/
theorem sysFreeFrom_shrinks (hl : Loaded σ r) (hfit : start + (i + n) * pageSize < 2 ^ 32) :
    ∃ σ', sysFreeFrom r start n i σ = some σ' ∧ SameDescriptors σ σ' ∧ Shrunk σ σ' (σ.region r).pgDir ∧
      ∀ q, start / pageSize + i ≤ q → q < start / pageSize + i + n →
        Resolves σ (σ.region r).pgDir (start % pageSize) q → present (σ'.word (σ.region r).pgDir q) = false := by
  induction n generalizing i σ with
  | zero => exact ⟨σ, rfl, .refl σ, fun _ _ => rfl, fun q hq hqn => absurd hqn (Nat.not_lt.2 hq)⟩
  | succ n ih =>
    obtain ⟨hva, hlt, hpage, hoff, hfit'⟩ := range_fits hfit
    have hresolve := vmmResolve_of_resolves hl hlt
    rw [hpage, hoff] at hresolve
    rw [sysFreeFrom, hva, hresolve, Option.bind_some]
    by_cases hres : Resolves σ (σ.region r).pgDir (start % pageSize) (start / pageSize + i)
    · rw [if_pos hres, if_pos hres.2]
      obtain ⟨status, σ₁, hrun, hs, hshrunk, hgone⟩ := vmmUnmap_shrinks hl hlt
      rw [hpage] at hgone
      rw [hrun, Option.bind_some]
      obtain ⟨hsame, hmem⟩ := freePage_same
        (maskLow (σ.word (σ.region r).pgDir (start / pageSize + i)) pageSize ||| start % pageSize) σ₁
      have hall := hs.trans hsame
      have hreg := congrFun hall.region r
      obtain ⟨σ', hrun', hs', hshrunk', hgone'⟩ := ih (hl.of_same hall) hfit'
      have hword : ∀ q, (σ₁.freePage (maskLow (σ.word (σ.region r).pgDir (start / pageSize + i)) pageSize |||
          start % pageSize)).word (σ.region r).pgDir q = σ₁.word (σ.region r).pgDir q := fun q => by
        rw [Vmm.word, hmem, Vmm.word]
      have hfirst : Shrunk σ (σ₁.freePage (maskLow (σ.word (σ.region r).pgDir (start / pageSize + i)) pageSize |||
          start % pageSize)) (σ.region r).pgDir := fun q hpres => by
        rw [hword] at hpres ⊢
        exact hshrunk q hpres
      rw [hreg] at hshrunk' hgone'
      refine ⟨σ', hrun', hall.trans hs', hfirst.trans hshrunk', fun q hq hqn hresq => ?_⟩
      by_contra hpres
      rw [Bool.not_eq_false] at hpres
      have hsame₁ := hshrunk' q hpres
      rcases Nat.eq_or_lt_of_le hq with rfl | hlt
      · rw [hsame₁, hword, hgone] at hpres
        exact absurd hpres (by simp)
      · have hsame₀ := (hfirst.trans hshrunk') q hpres
        refine absurd (hgone' q (by omega) (by omega) ?_) (by rw [hpres]; simp)
        rw [Resolves, ← hsame₁, hsame₀]
        exact hresq
    · rw [if_neg hres, if_neg (by simp)]
      obtain ⟨σ', hrun', hs', hshrunk', hgone'⟩ := ih hl hfit'
      refine ⟨σ', hrun', hs', hshrunk', fun q hq hqn hresq => ?_⟩
      rcases Nat.eq_or_lt_of_le hq with rfl | hlt
      · exact absurd hresq hres
      · exact hgone' q hlt (by omega) hresq

/-! ### Freeing in the window -/

theorem sysFreeFrom_append (r start n m i : ℕ) (σ : Vmm) : sysFreeFrom r start (n + m) i σ =
    (sysFreeFrom r start n i σ).bind (sysFreeFrom r start m (i + n)) := by
  induction n generalizing i σ with
  | zero => rw [Nat.zero_add, sysFreeFrom, Option.bind_some, Nat.add_zero]
  | succ n ih =>
    rw [Nat.add_right_comm n 1 m, sysFreeFrom, sysFreeFrom, Option.bind_assoc]
    refine congrArg _ (funext fun phys => ?_)
    rw [← Nat.add_assoc, Nat.add_right_comm i n 1]
    split
    · rw [Option.bind_assoc]
      exact congrArg _ (funext fun o => ih (i + 1) _)
    · exact ih (i + 1) σ

/-- The page tables that the window shows at the pages `p` to `p + n`, as far as these
resolve, are unlinked and freed. -/
structure FreedWindow (σ σ' : Vmm) (d off p n : ℕ) : Prop where
  same : SameDescriptors σ σ'
  other : ∀ a, a ≠ d → σ'.mem a = σ.mem a
  entry : ∀ k, σ'.mem d k = if p ≤ windowPage + k ∧ windowPage + k < p + n ∧ Resolves σ d off (windowPage + k)
    then 0 else σ.mem d k
  free : σ'.freePages = freedPages (σ.word d) off p n ++ σ.freePages

/-- `vmm_unmap` of a page of the window. -/
theorem vmmUnmap_window (hself : tableLink (σ.mem (σ.region r).pgDir recursivePde) = some (σ.region r).pgDir)
    (hl : Loaded σ r) (hva : va < 2 ^ 32) (hge : windowPage ≤ va / pageSize)
    (hlt : va / pageSize < windowPage + recursivePde) :
    vmmUnmap r va σ = some (0, σ.setWord (σ.region r).pgDir (va / pageSize - windowPage) 0) := by
  obtain ⟨hdiv, hmod, -⟩ := window_div hge hlt
  have hpde : present (σ.pde r recursivePde) = true := (tableLink_eq_some.1 hself).1
  have hpt : σ.recursivePt recursivePde = some (σ.region r).pgDir := by
    rw [recursivePt_loaded hl]
    exact hself
  rw [vmmUnmap, pdIndex_eq hva, hdiv, if_pos hpde, hpt, ptIndex_eq, hmod]
  rfl

/-- A page of the window is unlinked and freed, then the rest. -/
theorem FreedWindow.cons {j : ℕ} (hself : tableLink (σ.mem d recursivePde) = some d) (hoff : off < pageSize)
    (hfit : windowPage + j + n < windowPage + recursivePde) (hres : Resolves σ d off (windowPage + j))
    (h : FreedWindow ((σ.setWord d j 0).freePage (maskLow (σ.word d (windowPage + j)) pageSize ||| off)) σ' d off
      (windowPage + j + 1) n) : FreedWindow σ σ' d off (windowPage + j) (n + 1) := by
  obtain ⟨hsame, hmem⟩ := freePage_same (maskLow (σ.word d (windowPage + j)) pageSize ||| off) (σ.setWord d j 0)
  have hpages : ((σ.setWord d j 0).freePage (maskLow (σ.word d (windowPage + j)) pageSize ||| off)).freePages =
      maskLow (σ.word d (windowPage + j)) pageSize :: σ.freePages := freePages_freePage_word hoff hres _
  generalize (σ.setWord d j 0).freePage (maskLow (σ.word d (windowPage + j)) pageSize ||| off) = σ₂
    at h hsame hmem hpages
  have hentry : ∀ k, k ≠ j → σ₂.mem d k = σ.mem d k := fun k hk => by
    rw [hmem]
    exact write_of_ne_index hk
  have hhere : σ₂.mem d j = 0 := by
    rw [hmem]
    exact write_self
  have hself' : tableLink (σ₂.mem d recursivePde) = some d := by
    rw [hentry _ (by omega)]
    exact hself
  have hword : ∀ q, windowPage + j < q → q < windowPage + recursivePde → σ₂.word d q = σ.word d q := fun q hq hlt => by
    have hwindow : windowPage ≤ q := by omega
    have hlt' : q < addressPages := hlt.trans (by decide)
    rw [word_of_self hself' hwindow hlt', word_of_self hself hwindow hlt', hentry _ (by omega)]
  have hresolves : ∀ q, windowPage + j < q → q < windowPage + recursivePde →
      (Resolves σ₂ d off q ↔ Resolves σ d off q) := fun q hq hlt => by
    rw [Resolves, hword q hq hlt, Resolves]
  refine ⟨(show SameDescriptors σ (σ.setWord d j 0) from ⟨rfl, rfl, rfl, rfl, rfl, rfl, rfl⟩).trans
    (hsame.trans h.same), fun a ha => ?_, fun k => ?_, ?_⟩
  · rw [h.other a ha, hmem]
    exact write_of_ne_page ha
  · rw [h.entry k]
    rcases eq_or_ne k j with rfl | hne
    · rw [if_neg (by omega), hhere, if_pos ⟨le_rfl, by omega, hres⟩]
    · rw [hentry k hne]
      refine if_congr ⟨fun hin => ⟨by omega, by omega, ?_⟩, fun hin => ⟨by omega, by omega, ?_⟩⟩ rfl rfl
      · exact (hresolves _ (by omega) (by omega)).1 hin.2.2
      · exact (hresolves _ (by omega) (by omega)).2 hin.2.2
  · have hrest : freedPages (σ₂.word d) off (windowPage + j + 1) n = freedPages (σ.word d) off (windowPage + j + 1) n :=
      freedPages_congr fun q hq hqn => hword q (by omega) (by omega)
    rw [h.free, hpages, hrest, freedPages_succ (σ.word d) hoff, if_pos hres.1]
    simp only [hres.2, ne_eq, not_false_eq_true, if_true]
    rw [maskLow_or, maskLow_maskLow, maskLow_of_lt hoff, Nat.or_zero]

theorem sysFreeFrom_window (hself : tableLink (σ.mem (σ.region r).pgDir recursivePde) = some (σ.region r).pgDir)
    (hl : Loaded σ r) (hfit : start + (i + n) * pageSize < 2 ^ 32)
    (hwindow : n = 0 ∨ windowPage ≤ start / pageSize + i) : ∃ σ', sysFreeFrom r start n i σ = some σ' ∧
      FreedWindow σ σ' (σ.region r).pgDir (start % pageSize) (start / pageSize + i) n := by
  induction n generalizing i σ with
  | zero => exact ⟨σ, rfl, .refl σ, fun _ _ => rfl, fun k => (if_neg (by omega)).symm, rfl⟩
  | succ n ih =>
    obtain ⟨hva, hlt, hpage, hoff, hfit'⟩ := range_fits hfit
    have hge : windowPage ≤ start / pageSize + i := hwindow.resolve_left (Nat.succ_ne_zero n)
    have hbound : start / pageSize + i + n < windowPage + recursivePde := page_lt_of_fits hfit (by omega)
    have hresolve := vmmResolve_of_resolves hl hlt
    rw [hpage, hoff] at hresolve
    rw [sysFreeFrom, hva, hresolve, Option.bind_some]
    obtain ⟨j, hj⟩ : ∃ j, start / pageSize + i = windowPage + j := ⟨_, (Nat.add_sub_cancel' hge).symm⟩
    by_cases hres : Resolves σ (σ.region r).pgDir (start % pageSize) (start / pageSize + i)
    · rw [if_pos hres, if_pos hres.2, vmmUnmap_window hself hl hlt (by rw [hpage]; exact hge)
        (by rw [hpage]; omega), hpage, Option.bind_some]
      rw [hj] at hres hbound ⊢
      rw [Nat.add_sub_cancel_left]
      have hmem : ((σ.setWord (σ.region r).pgDir j 0).freePage (maskLow (σ.word (σ.region r).pgDir (windowPage + j))
          pageSize ||| start % pageSize)).mem (σ.region r).pgDir recursivePde =
            σ.mem (σ.region r).pgDir recursivePde := by
        rw [(freePage_same _ _).2]
        exact write_of_ne_index (by omega)
      have hsame : SameDescriptors σ ((σ.setWord (σ.region r).pgDir j 0).freePage
          (maskLow (σ.word (σ.region r).pgDir (windowPage + j)) pageSize ||| start % pageSize)) :=
        (show SameDescriptors σ (σ.setWord (σ.region r).pgDir j 0) from ⟨rfl, rfl, rfl, rfl, rfl, rfl, rfl⟩).trans
          (freePage_same _ _).1
      have hreg := congrFun hsame.region r
      obtain ⟨σ', hrun', hfreed⟩ := ih (by rw [hreg, hmem]; exact hself) (hl.of_same hsame) hfit' (.inr (by omega))
      rw [hreg, ← Nat.add_assoc, hj] at hfreed
      exact ⟨σ', hrun', .cons hself (Nat.mod_lt _ (by decide)) hbound hres hfreed⟩
    · rw [if_neg hres, if_neg (by simp)]
      obtain ⟨σ', hrun', hfreed⟩ := ih hself hl hfit' (.inr (by omega))
      refine ⟨σ', hrun', hfreed.same, hfreed.other, fun k => ?_, ?_⟩
      · rw [hfreed.entry k]
        refine if_congr ⟨fun hin => ⟨by omega, by omega, hin.2.2⟩, fun hin => ⟨?_, by omega, hin.2.2⟩⟩ rfl rfl
        refine Nat.lt_of_le_of_ne hin.1 fun he => hres ?_
        have he : start / pageSize + i = windowPage + k := he
        rw [he]
        exact hin.2.2
      · have hno : ¬ (present (σ.word (σ.region r).pgDir (start / pageSize + i)) = true ∧
            maskLow (σ.word (σ.region r).pgDir (start / pageSize + i)) pageSize ||| start % pageSize ≠ 0) := hres
        rw [hfreed.free, freedPages, freedPages, List.range'_succ, List.filterMap_cons, if_neg hno]
        rfl

/-- The pages `p` to `p + n` that resolve are freed, page tables in the window among them;
they are unmapped, and the pages of these tables with them. -/
structure FreedAll (σ σ' : Vmm) (d off p n : ℕ) : Prop where
  same : SameDescriptors σ σ'
  entry : ∀ k, σ'.mem d k = if p ≤ windowPage + k ∧ windowPage + k < p + n ∧ Resolves σ d off (windowPage + k)
    then 0 else σ.mem d k
  word : ∀ q, q < windowPage → σ'.mem d (q / pageEntries) = σ.mem d (q / pageEntries) →
    σ'.word d q = if p ≤ q ∧ q < p + n ∧ Resolves σ d off q then 0 else σ.word d q
  free : σ'.freePages = freedPages (σ.word d) off p n ++ σ.freePages

/-- **The loop that frees**, over any range. -/
theorem sysFreeFrom_all (h : Directories σ dirs) (hd : dirs (σ.region r).pgDir) (hl : Loaded σ r)
    (hfit : start + n * pageSize < 2 ^ 32) : ∃ σ', sysFreeFrom r start n 0 σ = some σ' ∧
      FreedAll σ σ' (σ.region r).pgDir (start % pageSize) (start / pageSize) n := by
  obtain ⟨n₁, n₂, rfl, hbelow, hwindow⟩ : ∃ n₁ n₂, n = n₁ + n₂ ∧ (n₁ = 0 ∨ start / pageSize + n₁ ≤ windowPage) ∧
      (n₂ = 0 ∨ windowPage ≤ start / pageSize + n₁) :=
    ⟨min n (windowPage - start / pageSize), n - min n (windowPage - start / pageSize), by omega, by omega, by omega⟩
  have hfit₁ : start + (0 + n₁) * pageSize < 2 ^ 32 :=
    lt_of_le_of_lt (Nat.add_le_add_left (Nat.mul_le_mul_right _ (by omega)) _) hfit
  have hfit₂ : start + (0 + n₁ + n₂) * pageSize < 2 ^ 32 := by
    rw [Nat.zero_add]
    exact hfit
  have hbound : ∀ q, q < start / pageSize + (n₁ + n₂) → q < windowPage + recursivePde := fun q hq =>
    page_lt_of_fits hfit₂ (by omega : q < start / pageSize + (0 + n₁) + n₂)
  obtain ⟨σ₁, hrun₁, h₁⟩ := sysFreeFrom_spec h hd hl hfit₁ fun q hq hqn hge => by omega
  rw [Nat.add_zero] at h₁
  have hreg := congrFun h₁.same.region r
  have hdir : ∀ k, σ₁.mem (σ.region r).pgDir k = σ.mem (σ.region r).pgDir k := congrFun (h₁.dir _ hd)
  obtain ⟨σ', hrun₂, h₂⟩ := sysFreeFrom_window (by rw [hreg, h₁.dir _ hd]; exact h.self _ hd)
    (hl.of_same h₁.same) hfit₂ (by omega)
  rw [hreg, Nat.zero_add] at h₂
  have hkept : ∀ q, windowPage ≤ q → q < addressPages → σ₁.word (σ.region r).pgDir q = σ.word (σ.region r).pgDir q :=
    fun q hq hlt => by
      rw [word_of_self (by rw [hdir]; exact h.self _ hd) hq hlt, word_of_self (h.self _ hd) hq hlt, hdir]
  refine ⟨σ', by rw [sysFreeFrom_append, hrun₁]; exact hrun₂, h₁.same.trans h₂.same, fun k => ?_,
    fun q hq hlink => ?_, ?_⟩
  · rw [h₂.entry k, hdir]
    by_cases hk : windowPage + k < start / pageSize + (n₁ + n₂)
    · have hlt : windowPage + k < addressPages := (hbound _ hk).trans (by decide)
      have hresolves : Resolves σ₁ (σ.region r).pgDir (start % pageSize) (windowPage + k) ↔
          Resolves σ (σ.region r).pgDir (start % pageSize) (windowPage + k) := by
        rw [Resolves, hkept _ (Nat.le_add_right _ _) hlt, Resolves]
      exact if_congr ⟨fun hin => ⟨by omega, by omega, hresolves.1 hin.2.2⟩,
        fun hin => ⟨by omega, by omega, hresolves.2 hin.2.2⟩⟩ rfl rfl
    · rw [if_neg (by omega), if_neg (by omega)]
  · have hword : σ'.word (σ.region r).pgDir q = σ₁.word (σ.region r).pgDir q := by
      rcases hlink' : tableLink (σ.mem (σ.region r).pgDir (q / pageEntries)) with - | t
      · rw [Vmm.word, Vmm.word, entry_of_none (by rw [hlink, hlink']), entry_of_none (by rw [hdir, hlink'])]
      · have ht := h.not_dir hd (div_lt_of_window hq) hlink' hd
        rw [word_of_link (by rw [hlink, hlink']), word_of_link (by rw [hdir, hlink']), h₂.other t ht.symm]
    rw [hword, h₁.word q hq]
    exact if_congr ⟨fun hin => ⟨by omega, by omega, hin.2.2⟩, fun hin => ⟨by omega, by omega, hin.2.2⟩⟩ rfl rfl
  · have hrest : freedPages (σ₁.word (σ.region r).pgDir) (start % pageSize) (start / pageSize + n₁) n₂ =
        freedPages (σ.word (σ.region r).pgDir) (start % pageSize) (start / pageSize + n₁) n₂ :=
      freedPages_congr fun q hq hqn => hkept q (by omega) ((hbound q (by omega)).trans (by decide))
    rw [h₂.free, hrest, h₁.free, ← List.append_assoc, freedPages, freedPages, freedPages, ← List.reverse_append,
      ← List.filterMap_append, List.range'_append_1]

/-! ### Looking at a range -/

/-- All pages of the range resolve. -/
def AllResolve (σ : Vmm) (d off p n : ℕ) : Prop := ∀ q, p ≤ q → q < p + n → Resolves σ d off q

theorem sysResolvedFrom_spec (hl : Loaded σ r) (hfit : start + (i + n) * pageSize < 2 ^ 32) :
    ∃ all, sysResolvedFrom r start σ n i = some all ∧
      (all = true ↔ AllResolve σ (σ.region r).pgDir (start % pageSize) (start / pageSize + i) n) := by
  induction n generalizing i with
  | zero => exact ⟨true, rfl, iff_of_true rfl fun q hq hqn => absurd hqn (Nat.not_lt.2 hq)⟩
  | succ n ih =>
    obtain ⟨hva, hlt, hpage, hoff, hfit'⟩ := range_fits hfit
    have hresolve := vmmResolve_of_resolves hl hlt
    rw [hpage, hoff] at hresolve
    rw [sysResolvedFrom, hva, hresolve, Option.bind_some]
    by_cases hres : Resolves σ (σ.region r).pgDir (start % pageSize) (start / pageSize + i)
    · rw [if_pos hres, if_neg hres.2]
      obtain ⟨all, hrun, hall⟩ := ih hfit'
      refine ⟨all, hrun, hall.trans ⟨fun hrest q hq hqn => ?_, fun hevery q hq hqn => hevery q (by omega) (by omega)⟩⟩
      rcases Nat.eq_or_lt_of_le hq with rfl | hlt
      · exact hres
      · exact hrest q hlt (by omega)
    · rw [if_neg hres, if_pos rfl]
      exact ⟨false, rfl, iff_of_false (by simp) fun hevery => hres (hevery _ le_rfl (by omega))⟩

/-- The test before the loop. -/
theorem sysResolvedFrom_cases (hl : Loaded σ r) (hfit : start + n * pageSize < 2 ^ 32) :
    ¬ AllResolve σ (σ.region r).pgDir (start % pageSize) (start / pageSize) n ∧ sysResolvedFrom r start σ n 0 = some false ∨
      AllResolve σ (σ.region r).pgDir (start % pageSize) (start / pageSize) n ∧ sysResolvedFrom r start σ n 0 = some true := by
  obtain ⟨all, hall, hresolve⟩ := sysResolvedFrom_spec hl (fits_zero hfit)
  rw [Nat.add_zero] at hresolve
  cases all with
  | false => exact .inl ⟨fun hres => absurd (hresolve.2 hres) Bool.false_ne_true, hall⟩
  | true => exact .inr ⟨hresolve.1 rfl, hall⟩

theorem MemAction.run_unmap_cases (hl : Loaded σ r) (hfit : start + n * pageSize < 2 ^ 32) :
    ¬ AllResolve σ (σ.region r).pgDir (start % pageSize) (start / pageSize) n ∧
        (unmap start n).run r σ = some (minusOne, σ) ∨
      AllResolve σ (σ.region r).pgDir (start % pageSize) (start / pageSize) n ∧
        (unmap start n).run r σ = (sysFreeFrom r start n 0 σ).map fun σ => (0, σ) := by
  rcases sysResolvedFrom_cases hl hfit with ⟨hno, hall⟩ | ⟨hyes, hall⟩
  · exact .inl ⟨hno, by rw [MemAction.run, hall]; rfl⟩
  · exact .inr ⟨hyes, by rw [MemAction.run, hall, Option.bind_some, if_pos rfl]⟩

theorem MemAction.run_protect_cases (hl : Loaded σ r) (hfit : start + n * pageSize < 2 ^ 32) (flags : ℕ) :
    ¬ AllResolve σ (σ.region r).pgDir (start % pageSize) (start / pageSize) n ∧
        (protect start n flags).run r σ = some (minusOne, σ) ∨
      AllResolve σ (σ.region r).pgDir (start % pageSize) (start / pageSize) n ∧
        (protect start n flags).run r σ = (sysProtectFrom r start flags n 0 σ).map fun σ => (0, σ) := by
  rcases sysResolvedFrom_cases hl hfit with ⟨hno, hall⟩ | ⟨hyes, hall⟩
  · exact .inl ⟨hno, by rw [MemAction.run, hall]; rfl⟩
  · exact .inr ⟨hyes, by rw [MemAction.run, hall, Option.bind_some, if_pos rfl]⟩

/-- It is enough to look at the one state that is reached. -/
theorem MemAction.iff_of_run {a : MemAction} {v : ℕ} {σ' : Vmm} {P : ℕ → Vmm → Prop} {C B : Prop}
    (hrun : a.run r σ = some (v, σ')) (hiff : P v σ' ↔ C) :
    (C → ∀ v σ', a.run r σ = some (v, σ') → P v σ') ∧ (B → (∀ v σ', a.run r σ = some (v, σ') → P v σ') → C) := by
  refine ⟨fun hC v' σ'' hrun' => ?_, fun _ hall => hiff.1 (hall _ _ hrun)⟩
  obtain ⟨rfl, rfl⟩ := Prod.mk.inj (Option.some.inj (hrun.symm.trans hrun'))
  exact hiff.2 hC

/-! ### Protecting -/

theorem sysProtectFrom_append (r start flags n m i : ℕ) (σ : Vmm) : sysProtectFrom r start flags (n + m) i σ =
    (sysProtectFrom r start flags n i σ).bind (sysProtectFrom r start flags m (i + n)) := by
  induction n generalizing i σ with
  | zero =>
    rw [Nat.zero_add, sysProtectFrom, Option.bind_some, Nat.add_zero]
  | succ n ih =>
    rw [Nat.add_right_comm n 1 m, sysProtectFrom, sysProtectFrom, Option.bind_assoc]
    refine congrArg _ (funext fun o => ?_)
    rw [ih, Nat.add_right_comm i 1 n]
    rfl

/-- The flags of the mapped pages `p` to `p + n` of directory `d` have been replaced, and
nothing else has changed in any address space. -/
structure ProtectedBelow (σ σ' : Vmm) (dirs : ℕ → Prop) (d p n flags : ℕ) : Prop where
  same : SameDescriptors σ σ'
  free : σ'.freePages = σ.freePages
  dir : ∀ d', dirs d' → σ'.mem d' = σ.mem d'
  word : ∀ q, q < windowPage → σ'.word d q =
    if p ≤ q ∧ q < p + n ∧ present (σ.word d q) = true then pageEntry (σ.word d q) flags else σ.word d q

theorem sysProtectFrom_below (h : Directories σ dirs) (hd : dirs (σ.region r).pgDir) (hl : Loaded σ r)
    (hfit : start + (i + n) * pageSize < 2 ^ 32) (hbelow : start / pageSize + i + n ≤ windowPage) (flags : ℕ) :
    ∃ σ', sysProtectFrom r start flags n i σ = some σ' ∧
      ProtectedBelow σ σ' dirs (σ.region r).pgDir (start / pageSize + i) n flags := by
  induction n generalizing i σ with
  | zero => exact ⟨σ, rfl, .refl σ, rfl, fun _ _ => rfl, fun q _ => (if_neg (by omega)).symm⟩
  | succ n ih =>
    obtain ⟨hva, hlt, hpage, -, hfit'⟩ := range_fits hfit
    have hva' : start + i * pageSize < recursiveAddr := lt_recursiveAddr_of_page (by rw [hpage]; omega)
    rw [sysProtectFrom, hva]
    rcases vmmProtect_loaded h hd hl hva' flags with ⟨hno, hrun⟩ | ⟨hpres, σ₁, hrun, hw⟩
    · rw [hpage] at hno
      obtain ⟨σ', hrun', hp⟩ := ih h hd hl hfit' (by omega)
      rw [hrun, Option.bind_some]
      refine ⟨σ', hrun', hp.same, hp.free, hp.dir, fun q hq => ?_⟩
      rw [hp.word q hq]
      rcases eq_or_ne q (start / pageSize + i) with rfl | hne
      · rw [if_neg (by omega), if_neg (by rw [hno]; simp)]
      · exact if_congr ⟨fun hin => ⟨by omega, by omega, hin.2.2⟩, fun hin => ⟨by omega, by omega, hin.2.2⟩⟩ rfl rfl
    · rw [hpage] at hpres hw
      have hreg := congrFun hw.same.region r
      obtain ⟨σ', hrun', hp⟩ := ih (hw.directories h) (by rw [hreg]; exact hd) (hl.of_same hw.same) hfit' (by omega)
      rw [hreg] at hp
      rw [hrun, Option.bind_some]
      refine ⟨σ', hrun', hw.same.trans hp.same, hp.free.trans hw.free,
        fun d' hd' => (hp.dir d' hd').trans (hw.dir d' hd'), fun q hq => ?_⟩
      have hword := hw.word _ q hd hq
      rw [hp.word q hq]
      rcases eq_or_ne q (start / pageSize + i) with rfl | hne
      · rw [if_neg (by omega), hword, if_pos ⟨rfl, rfl⟩, if_pos ⟨le_rfl, by omega, hpres⟩]
      · rw [if_neg fun hk => hne hk.2] at hword
        rw [hword]
        exact if_congr ⟨fun hin => ⟨by omega, by omega, hin.2.2⟩, fun hin => ⟨by omega, by omega, hin.2.2⟩⟩ rfl rfl

/-- The flags of the page tables that the window shows at the pages `p` to `p + n` have been
replaced. -/
structure ProtectedWindow (σ σ' : Vmm) (d p n flags : ℕ) : Prop where
  same : SameDescriptors σ σ'
  free : σ'.freePages = σ.freePages
  other : ∀ a, a ≠ d → σ'.mem a = σ.mem a
  entry : ∀ k, σ'.mem d k = if p ≤ windowPage + k ∧ windowPage + k < p + n ∧ present (σ.mem d k) = true
    then pageEntry (σ.mem d k) flags else σ.mem d k

/-- `vmm_protect` of a page of the window. -/
theorem vmmProtect_window (hself : tableLink (σ.mem (σ.region r).pgDir recursivePde) = some (σ.region r).pgDir)
    (hl : Loaded σ r) (hva : va < 2 ^ 32) (hge : windowPage ≤ va / pageSize)
    (hlt : va / pageSize < windowPage + recursivePde) (flags : ℕ) :
    ∃ status, vmmProtect r va flags σ =
      if present (σ.mem (σ.region r).pgDir (va / pageSize - windowPage)) = true then
        some (status, σ.setWord (σ.region r).pgDir (va / pageSize - windowPage)
          (pageEntry (σ.mem (σ.region r).pgDir (va / pageSize - windowPage)) flags))
      else some (status, σ) := by
  obtain ⟨hdiv, hmod, -⟩ := window_div hge hlt
  have hpde : present (σ.pde r recursivePde) = true := (tableLink_eq_some.1 hself).1
  have hpt : σ.recursivePt recursivePde = some (σ.region r).pgDir := by
    rw [recursivePt_loaded hl]
    exact hself
  rw [vmmProtect, pdIndex_eq hva, hdiv, if_pos hpde, hpt, ptIndex_eq, hmod]
  refine ⟨if present (σ.mem (σ.region r).pgDir (va / pageSize - windowPage)) = true then 0 else -1, ?_⟩
  change (if present (σ.mem (σ.region r).pgDir (va / pageSize - windowPage)) = true then _ else _) = _
  split
  · rfl
  · rfl

theorem sysProtectFrom_window (hself : tableLink (σ.mem (σ.region r).pgDir recursivePde) = some (σ.region r).pgDir)
    (hl : Loaded σ r) (hfit : start + (i + n) * pageSize < 2 ^ 32)
    (hwindow : n = 0 ∨ windowPage ≤ start / pageSize + i) (flags : ℕ) :
    ∃ σ', sysProtectFrom r start flags n i σ = some σ' ∧
      ProtectedWindow σ σ' (σ.region r).pgDir (start / pageSize + i) n flags := by
  induction n generalizing i σ with
  | zero => exact ⟨σ, rfl, .refl σ, rfl, fun _ _ => rfl, fun k => (if_neg (by omega)).symm⟩
  | succ n ih =>
    obtain ⟨hva, hlt, hpage, -, hfit'⟩ := range_fits hfit
    have hge : windowPage ≤ start / pageSize + i := hwindow.resolve_left (Nat.succ_ne_zero n)
    have hbound : start / pageSize + i < windowPage + recursivePde := page_lt_of_fits hfit (by omega)
    obtain ⟨status, hrun⟩ := vmmProtect_window hself hl hlt (by rw [hpage]; exact hge)
      (by rw [hpage]; exact hbound) flags
    rw [hpage] at hrun
    rw [sysProtectFrom, hva, hrun]
    obtain ⟨j, hj⟩ : ∃ j, start / pageSize + i = windowPage + j := ⟨_, (Nat.add_sub_cancel' hge).symm⟩
    have hjlt : j < recursivePde := by omega
    have hslot : start / pageSize + i - windowPage = j := by omega
    rw [hslot]
    rcases hpres : present (σ.mem (σ.region r).pgDir j) with - | -
    · obtain ⟨σ', hrun', hp⟩ := ih hself hl hfit' (.inr (by omega))
      rw [if_neg (by simp), Option.bind_some]
      refine ⟨σ', hrun', hp.same, hp.free, hp.other, fun k => ?_⟩
      rw [hp.entry k]
      rcases eq_or_ne k j with rfl | hne
      · rw [if_neg (by omega), if_neg (by rw [hpres]; simp)]
      · exact if_congr ⟨fun hin => ⟨by omega, by omega, hin.2.2⟩, fun hin => ⟨by omega, by omega, hin.2.2⟩⟩ rfl rfl
    · obtain ⟨σ₁, hσ₁⟩ : ∃ σ₁, σ₁ = σ.setWord (σ.region r).pgDir j
        (pageEntry (σ.mem (σ.region r).pgDir j) flags) := ⟨_, rfl⟩
      have hregion : σ₁.region = σ.region := by rw [hσ₁]; rfl
      have hentry : ∀ k, k ≠ j → σ₁.mem (σ.region r).pgDir k = σ.mem (σ.region r).pgDir k := fun k hk => by
        rw [hσ₁]
        exact write_of_ne_index hk
      have hhere : σ₁.mem (σ.region r).pgDir j = pageEntry (σ.mem (σ.region r).pgDir j) flags := by
        rw [hσ₁]
        exact write_self
      have hl₁ : Loaded σ₁ r := by
        rw [hσ₁]
        exact hl
      have hsame : SameDescriptors σ σ₁ := by
        rw [hσ₁]
        exact ⟨rfl, rfl, rfl, rfl, rfl, rfl, rfl⟩
      have hfree : σ₁.freePages = σ.freePages := by rw [hσ₁]; rfl
      have hother : ∀ a, a ≠ (σ.region r).pgDir → σ₁.mem a = σ.mem a := fun a ha => by
        rw [hσ₁]
        exact write_of_ne_page ha
      obtain ⟨σ', hrun', hp⟩ := ih (σ := σ₁) (by rw [hregion, hentry _ hjlt.ne']; exact hself) hl₁ hfit'
        (.inr (by omega))
      rw [hregion] at hp
      rw [if_pos rfl, Option.bind_some, ← hσ₁]
      refine ⟨σ', hrun', hsame.trans hp.same, hp.free.trans hfree,
        fun a ha => (hp.other a ha).trans (hother a ha), fun k => ?_⟩
      rw [hp.entry k]
      rcases eq_or_ne k j with rfl | hne
      · rw [if_neg (by omega), hhere, if_pos ⟨by omega, by omega, hpres⟩]
      · rw [hentry k hne]
        exact if_congr ⟨fun hin => ⟨by omega, by omega, hin.2.2⟩, fun hin => ⟨by omega, by omega, hin.2.2⟩⟩ rfl rfl

/-- **The loop over `vmm_protect`**: the page tables in the range get the flags, and where
the links to them stay, so do the pages. -/
structure ProtectedRange (σ σ' : Vmm) (d p n flags : ℕ) : Prop where
  same : SameDescriptors σ σ'
  free : σ'.freePages = σ.freePages
  entry : ∀ k, σ'.mem d k = if p ≤ windowPage + k ∧ windowPage + k < p + n ∧ present (σ.mem d k) = true
    then pageEntry (σ.mem d k) flags else σ.mem d k
  word : ∀ q, q < windowPage →
    tableLink (σ'.mem d (q / pageEntries)) = tableLink (σ.mem d (q / pageEntries)) → σ'.word d q =
      if p ≤ q ∧ q < p + n ∧ present (σ.word d q) = true then pageEntry (σ.word d q) flags else σ.word d q

theorem sysProtectFrom_spec (h : Directories σ dirs) (hd : dirs (σ.region r).pgDir) (hl : Loaded σ r)
    (hfit : start + n * pageSize < 2 ^ 32) (flags : ℕ) :
    ∃ σ', sysProtectFrom r start flags n 0 σ = some σ' ∧
      ProtectedRange σ σ' (σ.region r).pgDir (start / pageSize) n flags := by
  obtain ⟨n₁, n₂, rfl, hbelow, hwindow⟩ : ∃ n₁ n₂, n = n₁ + n₂ ∧ (n₁ = 0 ∨ start / pageSize + n₁ ≤ windowPage) ∧
      (n₂ = 0 ∨ windowPage ≤ start / pageSize + n₁) :=
    ⟨min n (windowPage - start / pageSize), n - min n (windowPage - start / pageSize), by omega, by omega, by omega⟩
  have hfit₁ : start + (0 + n₁) * pageSize < 2 ^ 32 :=
    lt_of_le_of_lt (Nat.add_le_add_left (Nat.mul_le_mul_right _ (by omega)) _) hfit
  obtain ⟨σ₁, hrun₁, h₁⟩ : ∃ σ₁, sysProtectFrom r start flags n₁ 0 σ = some σ₁ ∧
      ProtectedBelow σ σ₁ dirs (σ.region r).pgDir (start / pageSize) n₁ flags := by
    rcases hbelow with rfl | hbelow
    · exact ⟨σ, rfl, .refl σ, rfl, fun _ _ => rfl, fun q _ => (if_neg (by omega)).symm⟩
    · exact sysProtectFrom_below h hd hl hfit₁ (by omega) flags
  have hreg := congrFun h₁.same.region r
  have hfit₂ : start + (0 + n₁ + n₂) * pageSize < 2 ^ 32 := by
    rw [Nat.zero_add]
    exact hfit
  obtain ⟨σ', hrun₂, h₂⟩ := sysProtectFrom_window (by rw [hreg, h₁.dir _ hd]; exact h.self _ hd)
    (hl.of_same h₁.same) hfit₂ (by omega) flags
  rw [hreg, Nat.zero_add] at h₂
  have hdir : ∀ k, σ₁.mem (σ.region r).pgDir k = σ.mem (σ.region r).pgDir k := congrFun (h₁.dir _ hd)
  refine ⟨σ', by rw [sysProtectFrom_append, hrun₁]; exact hrun₂, h₁.same.trans h₂.same, h₂.free.trans h₁.free,
    fun k => ?_, fun q hq hlink => ?_⟩
  · rw [h₂.entry k, hdir]
    refine if_congr ⟨fun hin => ⟨by omega, by omega, hin.2.2⟩, fun hin => ⟨?_, by omega, hin.2.2⟩⟩ rfl rfl
    omega
  · have hword : σ'.word (σ.region r).pgDir q = σ₁.word (σ.region r).pgDir q := by
      rcases hlink' : tableLink (σ.mem (σ.region r).pgDir (q / pageEntries)) with - | t
      · rw [Vmm.word, Vmm.word, entry_of_none (hlink.trans hlink'), entry_of_none (by rw [hdir, hlink'])]
      · have ht := h.not_dir hd (div_lt_of_window hq) hlink' hd
        rw [word_of_link (hlink.trans hlink'), word_of_link (by rw [hdir, hlink']), h₂.other t ht.symm]
    rw [hword, h₁.word q hq]
    exact if_congr ⟨fun hin => ⟨by omega, by omega, hin.2.2⟩, fun hin => ⟨by omega, by omega, hin.2.2⟩⟩ rfl rfl

end Flopperating
