/-
# Mapping scattered pages

`vmm_is_range_mapped` and `vmm_map_scatter` of `src/mem/vmm.c`.  A call should map a range of
pages that are not mapped, or fail and leave every translation as it was (`ScatterAtomic`).

The test at the start refuses a range when all of its pages resolve; the loop replaces what the
mapped pages of any other range are mapped to, and when it fails `vmm_unmap_range` unmaps them.
Page tables that the loop has made stay.  So a call is as it should be exactly when it is refused,
or the pages it comes to were not mapped and it makes no page table in vain
(`vmmMapScatter_atomic_iff`).

The theorem is about the range below the recursive window, and says that the condition suffices for
every range: behind `RECURSIVE_ADDR` the loop writes to the directory.
-/

import Flopperating.Mem.PagerPages
import Flopperating.Mem.VmmUser

namespace Flopperating

open Vmm

/-- The loop of `vmm_is_range_mapped` from page `i` on, for `n` pages. -/
def vmmIsRangeMappedFrom (r va : ℕ) (σ : Vmm) : ℕ → ℕ → Option Bool
  | 0, _ => some true
  | n + 1, i => do
    let pa ← vmmResolve r (u32 (va + i * pageSize)) σ
    if pa = 0 then return false
    vmmIsRangeMappedFrom r va σ n (i + 1)

/-- `vmm_is_range_mapped`. -/
def vmmIsRangeMapped (r va pages : ℕ) (σ : Vmm) : Option Bool := vmmIsRangeMappedFrom r va σ pages 0

/-- The loop of `vmm_map_scatter` from page `i` on, for `n` pages. -/
def vmmMapScatterFrom (r va : ℕ) (physPages : ℕ → ℕ) (flags : ℕ) : ℕ → ℕ → Vmm → Option (ℤ × Vmm)
  | 0, _, σ => some (0, σ)
  | n + 1, i, σ => do
    let (status, σ) ← vmmMap r (u32 (va + i * pageSize)) (physPages i) flags σ
    if status < 0 then
      let (_, σ) ← vmmUnmapRange r va i σ
      return (-1, σ)
    vmmMapScatterFrom r va physPages flags n (i + 1) σ

/-- `vmm_map_scatter`. -/
def vmmMapScatter (r va : ℕ) (physPages : Option (ℕ → ℕ)) (pages flags : ℕ) (σ : Vmm) : Option (ℤ × Vmm) :=
  match physPages with
  | none => some (-1, σ)
  | some physPages => do
    if ← vmmIsRangeMapped r va pages σ then return (-1, σ)
    vmmMapScatterFrom r va physPages flags pages 0 σ

/-! ### What should hold -/

/-- Every page of every address space is mapped to the same frame with the same flags. -/
def SameTranslations (σ σ' : Vmm) (dirs : ℕ → Prop) : Prop :=
  ∀ d q, dirs d → q < 2 ^ 20 → decode (σ'.word d q) = decode (σ.word d q)

/-- The call succeeds where nothing was mapped and maps every page to its frame, or fails and leaves
every translation as it was. -/
def ScatterAtomic (r va : ℕ) (physPages : ℕ → ℕ) (pages flags : ℕ) (dirs : ℕ → Prop) (σ : Vmm) : Prop :=
  ∃ status σ', vmmMapScatter r va (some physPages) pages flags σ = some (status, σ') ∧
    (status = 0 ∧ RangeUnmapped r pages va σ ∧
      (∀ i < pages, (vmmTableWord r (u32 (va + i * pageSize)) σ').map decode =
        some (some (maskLow (physPages i) pageSize, flags ||| pagePresent))) ∨
    status = -1 ∧ SameTranslations σ σ' dirs)

/-- The loop comes to page `i`: there are free pages for the page tables up to there. -/
def Reached (r va i : ℕ) (σ : Vmm) : Prop :=
  tablesNeeded (σ.hasTable (σ.region r).pgDir) (rangeAddrs va 0 (i + 1)) ≤ σ.freePages.length

instance (r va i : ℕ) (σ : Vmm) : Decidable (Reached r va i σ) := inferInstanceAs (Decidable (_ ≤ _))

/-- The range is refused; or no page that the loop comes to is mapped, and it comes to the end or
makes no page table. -/
def ScatterSafe (r va pages : ℕ) (σ : Vmm) : Prop :=
  vmmIsRangeMapped r va pages σ = some true ∨
  va + pages * pageSize ≤ recursiveAddr ∧
    (∀ i < pages, Reached r va i σ → vmmIsMapped r (u32 (va + i * pageSize)) σ = some false) ∧
    ((∀ i < pages, Reached r va i σ) ∨ σ.freePages = [])

variable {σ σ' σ₁ : Vmm} {dirs : ℕ → Prop} {d i k n p q r va w pages flags : ℕ} {physPages frame : ℕ → ℕ}

/-! ### The test at the start -/

theorem vmmIsRangeMappedFrom_returns (hl : Loaded σ r) : ∃ b, vmmIsRangeMappedFrom r va σ n i = some b := by
  induction n generalizing i with
  | zero => exact ⟨true, rfl⟩
  | succ n ih =>
    have hlt : u32 (va + i * pageSize) < 2 ^ 32 := Nat.mod_lt _ (by decide)
    rw [vmmIsRangeMappedFrom, vmmResolve_loaded hl hlt]
    change ∃ b, (if _ = 0 then some false else vmmIsRangeMappedFrom r va σ n (i + 1)) = some b
    by_cases hzero : (if present (σ.word (σ.region r).pgDir (u32 (va + i * pageSize) / pageSize)) then
        maskLow (σ.word (σ.region r).pgDir (u32 (va + i * pageSize) / pageSize)) pageSize |||
          u32 (va + i * pageSize) % pageSize else 0) = 0
    · exact ⟨false, if_pos hzero⟩
    · rw [if_neg hzero]
      exact ih

/-! ### The loop -/

/-- The pages `p` to `p + k` of directory `d` are mapped to their frames, and nothing else has changed
in any address space but for page tables. -/
structure ScatterRun (σ σ' : Vmm) (dirs : ℕ → Prop) (d p k : ℕ) (frame : ℕ → ℕ) (flags : ℕ) : Prop where
  spaces : Spaces σ' dirs
  same : SameDescriptors σ σ'
  word : ∀ d' q, dirs d' → q < windowPage →
    σ'.word d' q = if d' = d ∧ p ≤ q ∧ q < p + k then pageEntry (frame q) flags else σ.word d' q
  free : σ'.freePages.Sublist σ.freePages
  tables : ∀ j, σ.hasTable d j = true → σ'.hasTable d j = true
  /-- Free pages are taken for page tables, and for nothing else. -/
  kept : σ'.freePages = σ.freePages → ∀ d', dirs d' → σ'.mem d' = σ.mem d'
  made : σ'.freePages ≠ σ.freePages → ∃ j < recursivePde, σ.hasTable d j = false ∧ σ'.hasTable d j = true

namespace ScatterRun

theorem refl (h : Spaces σ dirs) : ScatterRun σ σ dirs d p 0 frame flags :=
  ⟨h, .refl σ, fun _ _ _ _ => (if_neg (by omega)).symm, .refl _, fun _ => id, fun _ _ _ => rfl,
    fun h => absurd rfl h⟩

/-- One page, then the others. -/
theorem cons (hd : dirs d) (hp : p < windowPage) (hm : Mapped σ σ₁ dirs d p (pageEntry (frame p) flags))
    (h : ScatterRun σ₁ σ' dirs d (p + 1) k frame flags) : ScatterRun σ σ' dirs d p (k + 1) frame flags where
  spaces := h.spaces
  same := hm.same.trans h.same
  word d' q hd' hq := by
    rw [h.word d' q hd' hq, hm.word d' q hd' hq]
    by_cases hq' : d' = d ∧ q = p
    · obtain ⟨rfl, rfl⟩ := hq'
      rw [if_neg (by omega), if_pos ⟨rfl, rfl⟩, if_pos ⟨rfl, by omega, by omega⟩]
    · rw [if_neg hq']
      exact if_congr (by omega) rfl rfl
  free := h.free.trans hm.free_sublist
  tables j hj := by
    refine h.tables j ?_
    rw [hm.hasTable hd]
    split
    · rfl
    · exact hj
  kept hfree := by
    rcases hm.cases with ⟨-, hf, hw⟩ | ⟨-, t, hf, -⟩
    · intro d' hd'
      rw [h.kept (hfree.trans hf.symm) d' hd']
      funext j
      by_cases hj : d' = d ∧ j = p / pageEntries
      · rw [hj.1, hj.2, hw]
      · exact hm.dir d' j hd' hj
    · have hlen := h.free.length_le
      rw [hfree, hf, List.length_cons] at hlen
      omega
  made hfree := by
    rcases hm.cases with ⟨-, hf, -⟩ | ⟨hold, -⟩
    · obtain ⟨j, hj, hnone, hsome⟩ := h.made (hf ▸ hfree)
      refine ⟨j, hj, ?_, hsome⟩
      rw [hm.hasTable hd] at hnone
      split at hnone
      · exact absurd hnone (by simp)
      · exact hnone
    · exact ⟨p / pageEntries, div_lt_of_window hp, hold, h.tables _ hm.here⟩

end ScatterRun

theorem rangeAddrs_succ : rangeAddrs va i (n + 1) = (va + i * pageSize) :: rangeAddrs va (i + 1) n := by
  rw [rangeAddrs, List.range'_succ, List.map_cons, ← rangeAddrs]

section Loop

variable (h : Spaces σ dirs) (hd : dirs (σ.region r).pgDir) (hl : Loaded σ r)

include h hd hl in
/-- **The loop maps its pages up to the first for which there is no page table**, and then unmaps
them all. -/
theorem vmmMapScatterFrom_loaded (hle : va + (i + n) * pageSize ≤ recursiveAddr) (physPages : ℕ → ℕ) (flags : ℕ) :
    ∃ k τ, ScatterRun σ τ dirs (σ.region r).pgDir (va / pageSize + i) k (fun q => physPages (q - va / pageSize)) flags ∧
      σ.freePages.length =
        tablesNeeded (σ.hasTable (σ.region r).pgDir) (rangeAddrs va i k) + τ.freePages.length ∧
      (k = n ∧ vmmMapScatterFrom r va physPages flags n i σ = some (0, τ) ∨
        k < n ∧ τ.freePages = [] ∧
          σ.freePages.length < tablesNeeded (σ.hasTable (σ.region r).pgDir) (rangeAddrs va i (k + 1)) ∧
          vmmMapScatterFrom r va physPages flags n i σ =
            (vmmUnmapRange r va (i + k) τ).bind fun o => some (-1, o.2)) := by
  induction n generalizing i σ with
  | zero => exact ⟨0, σ, .refl h, (Nat.zero_add _).symm, .inl ⟨rfl, rfl⟩⟩
  | succ n ih =>
    obtain ⟨hlt, hpage, hle'⟩ := range_page hle
    have hstep : vmmMapScatterFrom r va physPages flags (n + 1) i σ =
        (vmmMap r (u32 (va + i * pageSize)) (physPages i) flags σ).bind fun o =>
          if o.1 < 0 then (vmmUnmapRange r va i o.2).bind fun o => some (-1, o.2)
          else vmmMapScatterFrom r va physPages flags n (i + 1) o.2 := rfl
    have haddr : (va + i * pageSize) / pageSize = va / pageSize + i := page_div va i
    rcases vmmMap_loaded h hd hl hlt (physPages i) flags with ⟨hnone, hfree, hrun⟩ | ⟨σ₁, hrun, hm⟩
    · rw [hpage] at hnone
      refine ⟨0, σ, .refl h, (Nat.zero_add _).symm, .inr ⟨Nat.succ_pos n, hfree, ?_, ?_⟩⟩
      · rw [rangeAddrs_succ, tablesNeeded, haddr, hnone, hfree]
        exact Nat.succ_pos _
      · rw [hstep, hrun]
        rfl
    · rw [hpage] at hm
      have hreg := congrFun hm.same.region r
      obtain ⟨k, τ, hs, haccount, hend⟩ := ih hm.spaces (hreg ▸ hd) (hl.of_same hm.same) hle'
      rw [hreg] at hs haccount hend
      have hframe : pageEntry (physPages i) flags =
          pageEntry ((fun q => physPages (q - va / pageSize)) (va / pageSize + i)) flags := by
        dsimp only
        rw [Nat.add_sub_cancel_left]
      have hacc : ∀ l, σ.freePages.length + tablesNeeded (σ₁.hasTable (σ.region r).pgDir) l =
          tablesNeeded (σ.hasTable (σ.region r).pgDir) ((va + i * pageSize) :: l) + σ₁.freePages.length :=
        fun l => tablesNeeded_mapped hd (haddr.symm ▸ hm)
      have hdone := hacc (rangeAddrs va (i + 1) k)
      have hnext := hacc (rangeAddrs va (i + 1) (k + 1))
      have hrest : vmmMapScatterFrom r va physPages flags (n + 1) i σ =
          vmmMapScatterFrom r va physPages flags n (i + 1) σ₁ := by
        rw [hstep, hrun]
        rfl
      refine ⟨k + 1, τ, .cons hd (page_lt_of_range hle (by omega)) (hframe ▸ hm) hs, ?_, ?_⟩
      · rw [rangeAddrs_succ]
        omega
      · rw [hrest, rangeAddrs_succ, Nat.add_comm k 1, ← Nat.add_assoc i 1 k]
        rcases hend with ⟨rfl, hrun'⟩ | ⟨hk, hempty, hshort, hrun'⟩
        · exact .inl ⟨Nat.add_comm 1 k, hrun'⟩
        · exact .inr ⟨by omega, hempty, by rw [Nat.add_comm 1 k]; omega, hrun'⟩

end Loop

theorem rangeAddrs_take (hk : k ≤ n) : (rangeAddrs va i n).take k = rangeAddrs va i k := by
  induction k generalizing i n with
  | zero => rfl
  | succ k ih =>
    obtain ⟨m, rfl⟩ := Nat.exists_eq_add_of_lt hk
    rw [Nat.add_right_comm k m 1, Nat.add_right_comm k 1 m, rangeAddrs_succ, rangeAddrs_succ,
      List.take_succ_cons, ih (Nat.le_add_right k m)]

theorem tablesNeeded_range_mono (table : ℕ → Bool) (hk : k ≤ n) :
    tablesNeeded table (rangeAddrs va i k) ≤ tablesNeeded table (rangeAddrs va i n) := by
  rw [← rangeAddrs_take hk]
  exact tablesNeeded_take_le table _ k

/-! ### What a call does -/

theorem addr_below (hle : va + pages * pageSize ≤ recursiveAddr) (hi : i < pages) :
    va + i * pageSize < recursiveAddr := by
  simp only [pageSize, recursiveAddr] at *
  omega

theorem page_below (hle : va + pages * pageSize ≤ recursiveAddr) (hi : i < pages) :
    va / pageSize + i < windowPage := page_div va i ▸ page_lt_windowPage (addr_below hle hi)

/-- The word of page `i` of a range, as the code reads it. -/
theorem vmmTableWord_page (hl : Loaded σ r) (hle : va + pages * pageSize ≤ recursiveAddr) (hi : i < pages) :
    vmmTableWord r (u32 (va + i * pageSize)) σ = some (σ.word (σ.region r).pgDir (va / pageSize + i)) := by
  obtain ⟨hlt, hpage⟩ := addr_page (addr_below hle hi)
  rw [vmmTableWord_loaded hl (hlt.trans (by decide)), hpage]

theorem vmmIsMapped_page (hl : Loaded σ r) (hle : va + pages * pageSize ≤ recursiveAddr) (hi : i < pages) :
    vmmIsMapped r (u32 (va + i * pageSize)) σ = some false ↔
      present (σ.word (σ.region r).pgDir (va / pageSize + i)) = false := by
  rw [vmmIsMapped, vmmTableWord_page hl hle hi, Option.map_some, Option.some_inj]

theorem decode_eq_none : decode w = none ↔ present w = false := by
  rw [decode]
  split
  · next hp => simp [hp]
  · next hp => simpa using hp

section Call

variable (h : Spaces σ dirs) (hd : dirs (σ.region r).pgDir) (hl : Loaded σ r)
  (hle : va + pages * pageSize ≤ recursiveAddr)

include hd hl hle in
/-- The loop has come to the end. -/
theorem scatterAtomic_done (hflags : flags < pageSize)
    (hs : ScatterRun σ σ' dirs (σ.region r).pgDir (va / pageSize) pages
      (fun q => physPages (q - va / pageSize)) flags)
    (hrun : vmmMapScatter r va (some physPages) pages flags σ = some (0, σ')) :
    ScatterAtomic r va physPages pages flags dirs σ ↔ RangeUnmapped r pages va σ := by
  constructor
  · rintro ⟨status, τ, hrun', ⟨-, hunmapped, -⟩ | ⟨hstatus, -⟩⟩
    · exact hunmapped
    · obtain ⟨rfl, -⟩ := Prod.mk.inj (Option.some.inj (hrun.symm.trans hrun'))
      exact absurd hstatus (by decide)
  · refine fun hunmapped => ⟨0, σ', hrun, .inl ⟨rfl, hunmapped, fun i hi => ?_⟩⟩
    rw [vmmTableWord_page (hl.of_same hs.same) hle hi, hs.same.region, hs.word _ _ hd (page_below hle hi),
      if_pos ⟨rfl, by omega, by omega⟩, Option.map_some, decode_pageEntry hflags, Nat.add_sub_cancel_left]

include h hd hle in
/-- The loop has mapped `k` pages and unmapped them. -/
theorem sameTranslations_undone {τ : Vmm} (hk : k < pages) {frame : ℕ → ℕ}
    (hs : ScatterRun σ τ dirs (σ.region r).pgDir (va / pageSize) k frame flags) (hempty : τ.freePages = [])
    (hc : Cleared τ σ' dirs (σ.region r).pgDir (va / pageSize) k) :
    SameTranslations σ σ' dirs ↔
      (∀ i < k, present (σ.word (σ.region r).pgDir (va / pageSize + i)) = false) ∧ σ.freePages = [] := by
  have hp : ∀ i < k, va / pageSize + i < windowPage := fun i hi => page_below hle (hi.trans hk)
  have hword : ∀ d' q, dirs d' → q < windowPage → σ'.word d' q =
      if d' = (σ.region r).pgDir ∧ va / pageSize ≤ q ∧ q < va / pageSize + k then 0 else σ.word d' q := by
    intro d' q hd' hq
    rw [hc.word d' q hd' hq]
    split
    · rfl
    · next hout => rw [hs.word d' q hd' hq, if_neg hout]
  constructor
  · intro hsame
    refine ⟨fun i hi => ?_, ?_⟩
    · have hpage := hsame _ (va / pageSize + i) hd ((hp i hi).trans (by decide))
      rw [hword _ _ hd (hp i hi), if_pos ⟨rfl, by omega, by omega⟩] at hpage
      exact decode_eq_none.1 hpage.symm
    · by_contra hfree
      obtain ⟨j, hj, hnone, hsome⟩ := hs.made (by rw [hempty]; exact Ne.symm hfree)
      -- the window shows the page table that was made
      have hq : (recursivePde * pageEntries + j) / pageEntries = recursivePde := by
        simp only [recursivePde, pageEntries] at *
        omega
      have hmod : (recursivePde * pageEntries + j) % pageEntries = j := by
        simp only [recursivePde, pageEntries] at *
        omega
      have hpage := hsame _ (recursivePde * pageEntries + j) hd (by simp only [recursivePde, pageEntries] at *; omega)
      rw [word_window (hc.directories hs.spaces.toDirectories) hd hq, word_window h.toDirectories hd hq, hmod,
        hc.dir _ hd, decode_eq_none.2 hnone] at hpage
      exact absurd (decode_eq_none.1 hpage) (by rw [show present _ = true from hsome]; simp)
  · rintro ⟨hunmapped, hfree⟩ d' q hd' hq
    rcases Nat.lt_or_ge q windowPage with hlt | hge
    · rw [hword d' q hd' hlt]
      split
      · next hin =>
        obtain ⟨rfl, hlo, hhi⟩ := hin
        obtain ⟨i, rfl⟩ := Nat.exists_eq_add_of_le hlo
        exact (decode_eq_none.2 (hunmapped i (by omega))).symm
      · rfl
    · have hwin : q / pageEntries = recursivePde := by
        simp only [windowPage, recursivePde, pageEntries] at *
        omega
      rw [word_window (hc.directories hs.spaces.toDirectories) hd' hwin, word_window h.toDirectories hd' hwin,
        hc.dir _ hd', hs.kept (hempty.trans hfree.symm) _ hd']

include h hd hl hle in
/-- The condition for a range that is not refused. -/
theorem scatterAtomic_of_passed (hflags : flags < pageSize) (hpass : vmmIsRangeMapped r va pages σ = some false) :
    ScatterAtomic r va physPages pages flags dirs σ ↔
      (∀ i < pages, Reached r va i σ → vmmIsMapped r (u32 (va + i * pageSize)) σ = some false) ∧
        ((∀ i < pages, Reached r va i σ) ∨ σ.freePages = []) := by
  obtain ⟨k, τ, hs, haccount, hend⟩ := vmmMapScatterFrom_loaded h hd hl
    (by rwa [Nat.zero_add] : va + (0 + pages) * pageSize ≤ recursiveAddr) physPages flags
  have hrun : vmmMapScatter r va (some physPages) pages flags σ =
      vmmMapScatterFrom r va physPages flags pages 0 σ := by
    rw [vmmMapScatter, hpass]
    rfl
  have hreached : ∀ i < k, Reached r va i σ := fun i hi =>
    (tablesNeeded_range_mono _ hi).trans (haccount ▸ Nat.le_add_right _ _)
  rw [Nat.add_zero] at hs
  rcases hend with ⟨rfl, hloop⟩ | ⟨hk, hempty, hshort, hloop⟩
  · rw [scatterAtomic_done hd hl hle hflags hs (hrun.trans hloop)]
    exact ⟨fun hunmapped => ⟨fun i hi _ => hunmapped i hi, .inl hreached⟩,
      fun hsafe i hi => hsafe.1 i hi (hreached i hi)⟩
  · have hstop : ∀ i, Reached r va i σ → i < k := fun i hi => Nat.lt_of_not_le fun hki =>
      Nat.not_lt.2 hi (hshort.trans_le (tablesNeeded_range_mono _ (Nat.succ_le_succ hki)))
    have hle' : va + (0 + k) * pageSize ≤ recursiveAddr :=
      (Nat.add_le_add_left (Nat.mul_le_mul_right _ (by omega)) va).trans hle
    obtain ⟨status, σ', k', hunmap, hk', -, -, hcut, -, hc⟩ := vmmUnmapRangeFrom_loaded
      hs.spaces.toDirectories (hs.same.region ▸ hd) (hl.of_same hs.same) hle'
    rw [hs.same.region, Nat.add_zero] at hc hcut
    -- every page that was mapped has its page table
    obtain rfl : k = k' := by
      by_contra hne
      have hlt : k' < k := by omega
      have hword := hs.word _ _ hd (page_below hle (hlt.trans hk))
      rw [if_pos ⟨rfl, by omega, by omega⟩] at hword
      have htable := hasTable_of_present (hword ▸ present_pageEntry _ _)
      exact absurd (htable.symm.trans (hcut hlt)) (by simp)
    rw [Nat.zero_add, vmmUnmapRange, hunmap] at hloop
    have hatomic : ScatterAtomic r va physPages pages flags dirs σ ↔ SameTranslations σ σ' dirs := by
      constructor
      · rintro ⟨status', σ'', hrun', ⟨hstatus, -⟩ | ⟨-, hsame⟩⟩
        all_goals obtain ⟨rfl, rfl⟩ := Prod.mk.inj (Option.some.inj ((hrun.trans hloop).symm.trans hrun'))
        · exact absurd hstatus (by decide)
        · exact hsame
      · exact fun hsame => ⟨-1, σ', hrun.trans hloop, .inr ⟨rfl, hsame⟩⟩
    rw [hatomic, sameTranslations_undone h hd hle hk hs hempty hc]
    constructor
    · rintro ⟨hunmapped, hfree⟩
      exact ⟨fun i hi hin => (vmmIsMapped_page hl hle hi).2 (hunmapped i (hstop i hin)), .inr hfree⟩
    · rintro ⟨hunmapped, hfree⟩
      refine ⟨fun i hi => (vmmIsMapped_page hl hle (hi.trans hk)).1
        (hunmapped i (hi.trans hk) (hreached i hi)), hfree.resolve_left fun hall => ?_⟩
      exact absurd (hstop k (hall k hk)) (Nat.lt_irrefl k)

end Call

/-- **A call is as it should be exactly when it is refused, or comes to no page that is mapped and
makes no page table in vain.** -/
theorem vmmMapScatter_atomic_iff (h : Spaces σ dirs) (hd : dirs (σ.region r).pgDir) (hl : Loaded σ r)
    (hflags : flags < pageSize) :
    (ScatterSafe r va pages σ → ScatterAtomic r va physPages pages flags dirs σ) ∧
      (va + pages * pageSize ≤ recursiveAddr →
        ScatterAtomic r va physPages pages flags dirs σ → ScatterSafe r va pages σ) := by
  obtain ⟨refused, htest⟩ : ∃ b, vmmIsRangeMapped r va pages σ = some b := vmmIsRangeMappedFrom_returns hl
  cases refused with
  | true =>
    have hrun : vmmMapScatter r va (some physPages) pages flags σ = some (-1, σ) := by
      rw [vmmMapScatter, htest]
      rfl
    exact ⟨fun _ => ⟨-1, σ, hrun, .inr ⟨rfl, fun _ _ _ _ => rfl⟩⟩, fun _ _ => .inl htest⟩
  | false =>
    constructor
    · rintro (hrefused | ⟨hle, hsafe⟩)
      · exact absurd (htest.symm.trans hrefused) (by simp)
      · exact (scatterAtomic_of_passed h hd hl hle hflags htest).2 hsafe
    · exact fun hle hatomic => .inr ⟨hle, (scatterAtomic_of_passed h hd hl hle hflags htest).1 hatomic⟩

/-- Two pages behind the one that a region has allocated. -/
theorem usedRegion_scatterAtomic : ∃ s dirs, usedRegion = some s ∧
    ScatterAtomic 2 (userSpaceStart + pageSize) (fun i => (i + 7) * pageSize) 2 (pageRw ||| pageUser) dirs s := by
  obtain ⟨s, hs⟩ := exists_usedRegion
  obtain ⟨hl, dirs, h, hd⟩ := usedRegion_spaces hs
  have hval : usedRegion.map (fun s => (List.range 2).map fun i =>
      (decide (Reached 2 (userSpaceStart + pageSize) i s),
        vmmIsMapped 2 (u32 (userSpaceStart + pageSize + i * pageSize)) s)) =
      some [(true, some false), (true, some false)] := by decide +kernel
  rw [hs] at hval
  have hpages := List.map_eq_map_iff.1 ((Option.some.inj hval).trans
    (rfl : _ = (List.range 2).map fun _ => (true, some false)))
  refine ⟨s, dirs, hs, (vmmMapScatter_atomic_iff h hd hl (by decide)).1 (.inr ⟨by decide,
    fun i hi _ => ?_, .inl fun i hi => ?_⟩)⟩
  · exact (Prod.mk.inj (hpages i (List.mem_range.2 hi))).2
  · exact of_decide_eq_true (Prod.mk.inj (hpages i (List.mem_range.2 hi))).1

/-- That page and the one behind it: the first is mapped to another frame. -/
theorem scatter_replaces : ¬ ∀ (σ : Vmm) (dirs : ℕ → Prop) (r va : ℕ) (physPages : ℕ → ℕ) (pages flags : ℕ),
    Spaces σ dirs → dirs (σ.region r).pgDir → Loaded σ r → 1 ≤ pages → flags < pageSize →
      va + pages * pageSize ≤ recursiveAddr → ScatterAtomic r va physPages pages flags dirs σ := by
  intro hall
  obtain ⟨s, hs⟩ := exists_usedRegion
  obtain ⟨hl, dirs, h, hd⟩ := usedRegion_spaces hs
  have hval : usedRegion.map (fun s => (vmmIsRangeMapped 2 userSpaceStart 2 s,
      decide (Reached 2 userSpaceStart 0 s), vmmIsMapped 2 (u32 (userSpaceStart + 0 * pageSize)) s)) =
      some (some false, true, some true) := by decide +kernel
  rw [hs] at hval
  obtain ⟨hpass, hrest⟩ := Prod.mk.inj (Option.some.inj hval)
  obtain ⟨hreached, hmapped⟩ := Prod.mk.inj hrest
  have hatomic := hall s dirs 2 userSpaceStart (fun i => (i + 7) * pageSize) 2 (pageRw ||| pageUser)
    h hd hl (by decide) (by decide) (by decide)
  have hunmapped := ((scatterAtomic_of_passed h hd hl (by decide) (by decide) hpass).1 hatomic).1 0
    (by decide) (of_decide_eq_true hreached)
  exact absurd (hmapped.symm.trans hunmapped) (by decide)

end Flopperating
