/-
# Ranges that are handed out

The allocators of a region choose their addresses in three ways: `vmm_alloc` at
`next_free_va`, `vmm_class_alloc` behind the areas of a class, and the others by looking
for pages that are not mapped.  The first two do not look, so they replace what is mapped
where they allocate.

They do not when the address space is divided between them: `vmm_alloc` has the pages up
to some bound, each class that is used has its window, and no other call maps anything in
what is left of these (`AllocCall.Clear`).  Then, in every run, each range that is handed
out was not mapped before, and the ranges in use are apart (`live_ranges_apart`).
-/

import Flopperating.Mem.VmmAllOrNothing

namespace Flopperating

open DoublyLinked Transition Vmm

variable {σ σ' σ₁ : Vmm} {dirs : ℕ → Prop} {c d i k n p q r v va pa flags : ℕ} {frames objects cs : List ℕ}
  {ls : ℕ → List ℕ} {status : ℤ} {e : LoopEnd}

/-! ### What the calls do to the pages of a range -/

/-- The pages `p` to `p + n` are mapped, and the others are as they were. -/
structure Filled (σ σ' : Vmm) (dirs : ℕ → Prop) (d p n : ℕ) : Prop where
  dirs : Directories σ' dirs
  other : ∀ q, q < windowPage → ¬ (p ≤ q ∧ q < p + n) → σ'.word d q = σ.word d q
  here : ∀ q, p ≤ q → q < p + n → present (σ'.word d q) = true

/-- Pages of `p` to `p + n` may be unmapped, and the others are as they were. -/
structure Emptied (σ σ' : Vmm) (dirs : ℕ → Prop) (d p n : ℕ) : Prop where
  dirs : Directories σ' dirs
  other : ∀ q, q < windowPage → ¬ (p ≤ q ∧ q < p + n) → σ'.word d q = σ.word d q
  none : ∀ q, q < windowPage → present (σ'.word d q) = true → σ'.word d q = σ.word d q

theorem Filled.congr (h : Filled σ σ₁ dirs d p n) (hmem : σ'.mem = σ₁.mem) : Filled σ σ' dirs d p n where
  dirs := h.dirs.congr fun _ _ => by rw [hmem]
  other q hq hne := by rw [Vmm.word, hmem]; exact h.other q hq hne
  here q hpq hq := by rw [Vmm.word, hmem]; exact h.here q hpq hq

theorem Emptied.congr (h : Emptied σ σ₁ dirs d p n) (hmem : σ'.mem = σ₁.mem) :
    Emptied σ σ' dirs d p n where
  dirs := h.dirs.congr fun _ _ => by rw [hmem]
  other q hq hne := by rw [Vmm.word, hmem]; exact h.other q hq hne
  none q hq := by rw [Vmm.word, hmem]; exact h.none q hq

theorem Emptied.refl (h : Directories σ dirs) : Emptied σ σ dirs d p n :=
  ⟨h, fun _ _ _ => rfl, fun _ _ _ => rfl⟩

theorem Emptied.mono (h : Emptied σ σ' dirs d p k) (hkn : k ≤ n) : Emptied σ σ' dirs d p n :=
  ⟨h.dirs, fun q hq hne => h.other q hq fun hin => hne ⟨hin.1, by omega⟩, h.none⟩

theorem FreshRun.filled (hf : FreshRun σ σ' dirs d p flags frames) :
    Filled σ σ' dirs d p frames.length where
  dirs := hf.spaces.toDirectories
  other := hf.word
  here q hpq hq := by
    obtain ⟨j, rfl⟩ := Nat.exists_eq_add_of_le hpq
    have hj : j < frames.length := by omega
    rw [hf.maps j _ (List.getElem?_eq_getElem hj)]
    exact present_pageEntry _ _

/-- What the loop has mapped, and perhaps more of the range, is unmapped again. -/
theorem FreshRun.emptied (hf : FreshRun σ σ₁ dirs d p flags frames) (hc : Cleared σ₁ σ' dirs d p k)
    (hd : dirs d) (hk : frames.length ≤ k) (hkn : k ≤ n) : Emptied σ σ' dirs d p n where
  dirs := hc.directories hf.spaces.toDirectories
  other q hq hne := by
    rw [hc.word d q hd hq, if_neg (by omega)]
    exact hf.word q hq (by omega)
  none q hq hpres := by
    have hword := hc.word d q hd hq
    split at hword
    · rw [hword, present_zero] at hpres
      exact absurd hpres (by simp)
    · next hne =>
      rw [hword]
      exact hf.word q hq (by omega)

/-- The last page was not mapped, for want of a page table. -/
theorem Cleared.pred (h : Cleared σ σ' dirs d p (k + 1)) (hd : dirs d)
    (habs : σ.hasTable d ((p + k) / pageEntries) = false) : Cleared σ σ' dirs d p k where
  same := h.same
  dir := h.dir
  word d' q hd' hq := by
    rw [h.word d' q hd' hq]
    by_cases hlast : d' = d ∧ q = p + k
    · obtain ⟨rfl, rfl⟩ := hlast
      rw [if_pos (by omega), if_neg (by omega), word_of_absent habs]
    · exact if_congr (by omega) rfl rfl

/-- A page that is given back is no page table. -/
theorem Cleared.of_freePage (h : Cleared (σ.freePage pa) σ' dirs d p n) : Cleared σ σ' dirs d p n := by
  obtain ⟨hs, hm⟩ := freePage_same pa σ
  refine ⟨hs.trans h.same, fun d' hd' => ?_, fun d' q hd' hq => ?_⟩
  · rw [h.dir d' hd', hm]
  · rw [h.word d' q hd' hq, Vmm.word, hm, Vmm.word]

section Loop

variable (h : Spaces σ dirs) (hd : dirs (σ.region r).pgDir) (hl : Loaded σ r)

include h hd hl in
/-- The last page is not mapped, and the loop does not tell: all that is missing is its
page table. -/
theorem vmmMapFresh_cut (hbelow : TriedBelow σ (σ.region r).pgDir va i n)
    (hneed : σ.freePages.length < pagesNeeded (σ.hasTable (σ.region r).pgDir) (va / pageSize + i) n)
    (hrun : vmmMapFresh false r va flags n i σ = some (.done, σ')) :
    σ.freePages.length =
      pagesNeeded (σ.hasTable (σ.region r).pgDir) (va / pageSize + i) (n - 1) + 1 := by
  induction n generalizing i σ with
  | zero => exact absurd hneed (Nat.not_lt_zero _)
  | succ n ih =>
    rcases vmmMapFresh_step false h hd hl hbelow.first flags with
      ⟨-, hstep⟩ | ⟨pa, free, hfree, ⟨rfl, -, hstep⟩ | ⟨σ₁, hm, hstep⟩⟩
    · exact absurd (hstep.symm.trans hrun) (by simp)
    · cases n with
      | zero => rw [hfree]; rfl
      | succ n =>
        have hnone := hstep.symm.trans hrun
        simp [vmmMapFresh, Vmm.allocPage] at hnone
    · have hreg : (σ₁.region r) = σ.region r := congrFun hm.same.region r
      have hacc := pagesNeeded_mapped (n := n) hd hfree hm
      have hih := ih hm.spaces (hreg ▸ hd) (hl.of_same hm.same.of_free)
        (hreg ▸ hbelow.rest hd hfree hm)
      rw [hreg, ← Nat.add_assoc] at hih
      have hcount := hih (by omega) (hstep.symm.trans hrun)
      cases n with
      | zero =>
        simp only [pagesNeeded] at hneed hacc
        omega
      | succ n =>
        have hacc' := pagesNeeded_mapped (n := n) hd hfree hm
        simp only [Nat.add_sub_cancel] at hcount ⊢
        omega

end Loop

/-- Where every page has a page table, `vmm_unmap_range` unmaps the whole range. -/
theorem vmmUnmapRange_tables (h : Directories σ dirs) (hd : dirs (σ.region r).pgDir) (hl : Loaded σ r)
    (hle : va + n * pageSize ≤ recursiveAddr)
    (htab : ∀ j < n, σ.hasTable (σ.region r).pgDir ((va / pageSize + j) / pageEntries) = true) :
    ∃ status σ', vmmUnmapRange r va n σ = some (status, σ') ∧
      Cleared σ σ' dirs (σ.region r).pgDir (va / pageSize) n := by
  obtain ⟨status, σ', k, hrun, hk, -, -, hnone, -, hc⟩ := vmmUnmapRangeFrom_loaded h hd hl
    (by rwa [Nat.zero_add] : va + (0 + n) * pageSize ≤ recursiveAddr)
  rw [Nat.add_zero] at hnone hc
  have hkn : k = n := le_antisymm hk (Nat.le_of_not_lt fun hlt =>
    absurd ((htab k hlt).symm.trans (hnone hlt)) (by simp))
  exact ⟨status, σ', hrun, hkn ▸ hc⟩

section Tried

variable (h : Spaces σ dirs) (hd : dirs (σ.region r).pgDir) (hl : Loaded σ r)
  (hbelow : TriedBelow σ (σ.region r).pgDir va 0 n)

include h hd hl hbelow in
/-- What is mapped before the pages run out: the whole range, or all but its last page, or a
part that is unmapped again. -/
theorem mapUnchecked_tried {finish : Vmm → Vmm} {fail : ℕ}
    (hrun : mapUnchecked r va flags n fail finish σ = some (v, σ')) :
    ∃ m ≤ n, pagesNeeded (σ.hasTable (σ.region r).pgDir) (va / pageSize) m ≤ σ.freePages.length ∧
      ((v = va ∧ (∃ σ₁, σ' = finish σ₁ ∧ SameDescriptors σ σ₁ ∧
          Filled σ σ₁ dirs (σ.region r).pgDir (va / pageSize) m) ∧
        (m = n ∨
          σ.freePages.length < pagesNeeded (σ.hasTable (σ.region r).pgDir) (va / pageSize) n ∧
          σ.freePages.length =
            pagesNeeded (σ.hasTable (σ.region r).pgDir) (va / pageSize) (n - 1) + 1)) ∨
      (v = fail ∧
        σ.freePages.length < pagesNeeded (σ.hasTable (σ.region r).pgDir) (va / pageSize) n ∧
        SameDescriptors σ σ' ∧ Emptied σ σ' dirs (σ.region r).pgDir (va / pageSize) m)) := by
  obtain ⟨frames, hneed, ⟨σ₁, hloop, hf, hall⟩ | ⟨i, σ₁, status, σ₂, hloop, hundo, hgiven⟩⟩ :=
    vmmMapFresh_unchecked h hd hl hbelow flags
  · have hres : mapUnchecked r va flags n fail finish σ = some (va, finish σ₁) :=
      Option.bind_eq_some_iff.2 ⟨_, hloop, rfl⟩
    obtain ⟨rfl, rfl⟩ := Prod.mk.inj (Option.some.inj (hrun.symm.trans hres))
    refine ⟨frames.length, hall.elim (fun h => h.1.le) fun h => by omega, hneed,
      .inl ⟨rfl, ⟨σ₁, rfl, hf.same, hf.filled⟩, ?_⟩⟩
    rcases hall with ⟨hlen, -⟩ | ⟨-, -, hshort, -⟩
    · exact .inl hlen
    · exact .inr ⟨hshort, vmmMapFresh_cut h hd hl hbelow hshort hloop⟩
  · have hres : mapUnchecked r va flags n fail finish σ = some (fail, σ₂) :=
      Option.bind_eq_some_iff.2 ⟨_, hloop, Option.bind_eq_some_iff.2 ⟨_, hundo, rfl⟩⟩
    obtain ⟨rfl, rfl⟩ := Prod.mk.inj (Option.some.inj (hrun.symm.trans hres))
    obtain ⟨σ₁, hf, hc⟩ := hgiven.fresh
    exact ⟨frames.length, hgiven.short.le, hneed, .inr ⟨rfl, hgiven.needed, hf.same.trans hc.same,
      hf.emptied hc hd le_rfl le_rfl⟩⟩

include h hd hl hbelow in
/-- The loop that looks at the result of `vmm_map`: how it ends, and what is left when the
pages that it has mapped are unmapped again. -/
theorem vmmMapFresh_told (flags : ℕ) :
    ∃ e σ₁ frames, vmmMapFresh true r va flags n 0 σ = some (e, σ₁) ∧ SameDescriptors σ σ₁ ∧
      FreshRun σ σ₁ dirs (σ.region r).pgDir (va / pageSize) flags frames ∧
      pagesNeeded (σ.hasTable (σ.region r).pgDir) (va / pageSize) frames.length ≤
        σ.freePages.length ∧
      ((e = .done ∧ frames.length = n) ∨
        (frames.length < n ∧
          σ.freePages.length < pagesNeeded (σ.hasTable (σ.region r).pgDir) (va / pageSize) n ∧
          (frames.length ≠ 0 → va + frames.length * pageSize ≤ recursiveAddr) ∧
          (e = .noPage frames.length ∨ ∃ pa, e = .noTable frames.length pa ∧
            σ₁.hasTable (σ.region r).pgDir ((va / pageSize + frames.length) / pageEntries) = false ∧
            va + (frames.length + 1) * pageSize ≤ recursiveAddr))) := by
  obtain ⟨e, σ₁, frames, hloop, hf, hend, hneed, hmore⟩ :=
    vmmMapFresh_tried true h hd hl hbelow flags
  rw [Nat.add_zero] at hf hend hneed hmore
  rw [Nat.zero_add] at hmore
  refine ⟨e, σ₁, frames, hloop, hf.same, hf, hneed, ?_⟩
  rcases hend with ⟨rfl, hlen, -⟩ | ⟨hlt, -, hshort, hcase⟩
  · exact .inl ⟨rfl, hlen⟩
  · refine .inr ⟨hlt, hshort, fun h0 => ?_, ?_⟩
    · rw [← Nat.zero_add frames.length]
      exact hbelow.mapped hlt.le (by rwa [Nat.add_zero]) h0
    · rw [Nat.zero_add] at hcase
      rcases hcase with rfl | ⟨pa, hno, ⟨-, rfl⟩ | ⟨hfalse, -⟩ | ⟨hfalse, -⟩⟩
      · exact .inl rfl
      · refine .inr ⟨pa, rfl, hno.absent, ?_⟩
        rw [← Nat.zero_add (frames.length + 1)]
        exact hbelow frames.length hlt (hmore (by simp) hlt)
      · exact absurd hfalse (by simp)
      · exact absurd hfalse (by simp)

include h hd hl hbelow in
theorem vmmMapAnonymous_tried (hfind : vmmFindFreeRange r n σ = some va) (hva : va ≠ 0) (flags : ℕ) :
    ∃ v σ', vmmMapAnonymous r n flags σ = some (v, σ') ∧ SameDescriptors σ σ' ∧
      ∃ m ≤ n, pagesNeeded (σ.hasTable (σ.region r).pgDir) (va / pageSize) m ≤ σ.freePages.length ∧
      ((v = va ∧ m = n ∧ Filled σ σ' dirs (σ.region r).pgDir (va / pageSize) m) ∨
        (v = 0 ∧
          σ.freePages.length < pagesNeeded (σ.hasTable (σ.region r).pgDir) (va / pageSize) n ∧
          Emptied σ σ' dirs (σ.region r).pgDir (va / pageSize) m)) := by
  obtain ⟨e, σ₁, frames, hloop, hs₁, hf, hneed, hend⟩ := vmmMapFresh_told h hd hl hbelow flags
  have hreg := congrFun hs₁.region r
  have hundo : ∀ i, (i ≠ 0 → va + i * pageSize ≤ recursiveAddr) → ∃ σ₂,
      vmmUnmapEach r va i 0 σ₁ = some σ₂ ∧ Cleared σ₁ σ₂ dirs (σ.region r).pgDir (va / pageSize) i := by
    intro i hi
    rcases eq_or_ne i 0 with rfl | h0
    · exact ⟨σ₁, rfl, .zero⟩
    · obtain ⟨σ₂, hunmap, -, hc⟩ := vmmUnmapEach_loaded (n := i) (i := 0) hf.spaces.toDirectories
        (by rwa [hreg] : dirs (σ₁.region r).pgDir) (hl.of_same hs₁)
        (by rw [Nat.zero_add]; exact hi h0 : va + (0 + i) * pageSize ≤ recursiveAddr)
      rw [hreg] at hc
      exact ⟨σ₂, hunmap, hc⟩
  rcases hend with ⟨rfl, hlen⟩ | ⟨hlt, hshort, hle, rfl | ⟨pa, rfl, habs, hle'⟩⟩
  · exact ⟨va, σ₁, Option.bind_eq_some_iff.2 ⟨va, hfind, (if_neg hva).trans
      (Option.bind_eq_some_iff.2 ⟨_, hloop, rfl⟩)⟩, hs₁, frames.length, hlen.le, hneed,
      .inl ⟨rfl, hlen, hf.filled⟩⟩
  · obtain ⟨σ₂, hunmap, hc⟩ := hundo frames.length hle
    exact ⟨0, σ₂, Option.bind_eq_some_iff.2 ⟨va, hfind, (if_neg hva).trans (Option.bind_eq_some_iff.2
      ⟨_, hloop, Option.bind_eq_some_iff.2 ⟨_, hunmap, rfl⟩⟩)⟩, hs₁.trans hc.same, frames.length,
      hlt.le, hneed, .inr ⟨rfl, hshort, hf.emptied hc hd le_rfl le_rfl⟩⟩
  · obtain ⟨σ₂, hunmap, hc⟩ := hundo (frames.length + 1) fun _ => hle'
    obtain ⟨hs, hm⟩ := freePage_same pa σ₂
    exact ⟨0, σ₂.freePage pa, Option.bind_eq_some_iff.2 ⟨va, hfind, (if_neg hva).trans
      (Option.bind_eq_some_iff.2 ⟨_, hloop, Option.bind_eq_some_iff.2 ⟨_, hunmap, rfl⟩⟩)⟩,
      (hs₁.trans hc.same).trans hs, frames.length, hlt.le, hneed,
      .inr ⟨rfl, hshort, (hf.emptied (hc.pred hd habs) hd le_rfl le_rfl).congr hm⟩⟩

include h hd hl hbelow in
theorem vmmMapPages_tried (c : ℕ) : ∃ status σ', vmmMapPages r c va n σ = some (status, σ') ∧
    SameDescriptors σ σ' ∧
      ∃ m ≤ n, pagesNeeded (σ.hasTable (σ.region r).pgDir) (va / pageSize) m ≤ σ.freePages.length ∧
      ((status = 0 ∧ m = n ∧ Filled σ σ' dirs (σ.region r).pgDir (va / pageSize) m) ∨
        (status = -1 ∧ Emptied σ σ' dirs (σ.region r).pgDir (va / pageSize) m)) := by
  obtain ⟨e, σ₁, frames, hloop, hs₁, hf, hneed, hend⟩ :=
    vmmMapFresh_told h hd hl hbelow (σ.allocClass c).config.flags
  have hreg := congrFun hs₁.region r
  -- every page that is unmapped has a page table, so that `vmm_unmap_range` does not stop
  have hundo : ∀ σ₂, σ₂.mem = σ₁.mem → SameDescriptors σ₁ σ₂ →
      (frames.length ≠ 0 → va + frames.length * pageSize ≤ recursiveAddr) → ∃ status σ₃,
      vmmUnmapRange r va frames.length σ₂ = some (status, σ₃) ∧
        Cleared σ₂ σ₃ dirs (σ.region r).pgDir (va / pageSize) frames.length := by
    intro σ₂ hm hs hle
    rcases eq_or_ne frames.length 0 with h0 | h0
    · rw [h0]
      exact ⟨0, σ₂, rfl, .zero⟩
    · have hreg' := (congrFun hs.region r).trans hreg
      obtain ⟨status, σ₃, hunmap, hc⟩ := vmmUnmapRange_tables
        (hf.spaces.toDirectories.congr fun _ _ => by rw [hm]) (hreg' ▸ hd)
        ((hl.of_same hs₁).of_same hs) (hle h0) fun j hj => by
          rw [hreg', Vmm.hasTable, hm]
          exact hf.here j hj
      rw [hreg'] at hc
      exact ⟨status, σ₃, hunmap, hc⟩
  rcases hend with ⟨rfl, hlen⟩ | ⟨hlt, -, hle, rfl | ⟨pa, rfl, -, -⟩⟩
  · exact ⟨0, σ₁, Option.bind_eq_some_iff.2 ⟨_, hloop, rfl⟩, hs₁, frames.length, hlen.le, hneed,
      .inl ⟨rfl, hlen, hf.filled⟩⟩
  · obtain ⟨status, σ₂, hunmap, hc⟩ := hundo σ₁ rfl (.refl σ₁) hle
    exact ⟨-1, σ₂, Option.bind_eq_some_iff.2 ⟨_, hloop, Option.bind_eq_some_iff.2 ⟨_, hunmap, rfl⟩⟩,
      hs₁.trans hc.same, frames.length, hlt.le, hneed, .inr ⟨rfl, hf.emptied hc hd le_rfl le_rfl⟩⟩
  · obtain ⟨hs, hm⟩ := freePage_same pa σ₁
    obtain ⟨status, σ₂, hunmap, hc⟩ := hundo (σ₁.freePage pa) hm hs hle
    exact ⟨-1, σ₂, Option.bind_eq_some_iff.2 ⟨_, hloop, Option.bind_eq_some_iff.2 ⟨_, hunmap, rfl⟩⟩,
      hs₁.trans hc.of_freePage.same, frames.length, hlt.le, hneed,
      .inr ⟨rfl, hf.emptied hc.of_freePage hd le_rfl le_rfl⟩⟩

end Tried

section Effect

variable (h : Spaces σ dirs) (hd : dirs (σ.region r).pgDir) (hl : Loaded σ r)
  (hle : va + n * pageSize ≤ recursiveAddr)

include hle in
theorem tried_range : TriedBelow σ d va 0 n := triedBelow_of_le (by rwa [Nat.zero_add])

include h hd hl hle in
theorem mapUnchecked_effect {finish : Vmm → Vmm} {fail : ℕ}
    (hrun : mapUnchecked r va flags n fail finish σ = some (v, σ'))
    (hcut : σ.freePages.length < pagesNeeded (σ.hasTable (σ.region r).pgDir) (va / pageSize) n →
      σ.freePages.length ≠ pagesNeeded (σ.hasTable (σ.region r).pgDir) (va / pageSize) (n - 1) + 1) :
    (v = va ∧ ∃ σ₁, σ' = finish σ₁ ∧ SameDescriptors σ σ₁ ∧
        Filled σ σ₁ dirs (σ.region r).pgDir (va / pageSize) n) ∨
      (v = fail ∧ SameDescriptors σ σ' ∧ Emptied σ σ' dirs (σ.region r).pgDir (va / pageSize) n) := by
  obtain ⟨m, hmn, -, ⟨hv, ⟨σ₁, hfinish, hs, hfilled⟩, rfl | ⟨hshort, hcount⟩⟩ | ⟨hv, -, hs, hemptied⟩⟩ :=
    mapUnchecked_tried h hd hl (tried_range hle) hrun
  · exact .inl ⟨hv, σ₁, hfinish, hs, hfilled⟩
  · exact absurd hcount (hcut hshort)
  · exact .inr ⟨hv, hs, hemptied.mono hmn⟩

include h hd hl hle in
theorem vmmMapAnonymous_effect (hfind : vmmFindFreeRange r n σ = some va) (hva : va ≠ 0) (flags : ℕ) :
    ∃ v σ', vmmMapAnonymous r n flags σ = some (v, σ') ∧ SameDescriptors σ σ' ∧
      ((v = va ∧ Filled σ σ' dirs (σ.region r).pgDir (va / pageSize) n) ∨
        (v = 0 ∧ Emptied σ σ' dirs (σ.region r).pgDir (va / pageSize) n)) := by
  obtain ⟨v, σ', hrun, hs, m, hmn, -, ⟨hv, rfl, hfilled⟩ | ⟨hv, -, hemptied⟩⟩ :=
    vmmMapAnonymous_tried h hd hl (tried_range hle) hfind hva flags
  · exact ⟨v, σ', hrun, hs, .inl ⟨hv, hfilled⟩⟩
  · exact ⟨v, σ', hrun, hs, .inr ⟨hv, hemptied.mono hmn⟩⟩

include h hd hl hle in
theorem vmmMapPages_effect (c : ℕ) : ∃ status σ', vmmMapPages r c va n σ = some (status, σ') ∧
    SameDescriptors σ σ' ∧
      ((status = 0 ∧ Filled σ σ' dirs (σ.region r).pgDir (va / pageSize) n) ∨
        (status = -1 ∧ Emptied σ σ' dirs (σ.region r).pgDir (va / pageSize) n)) := by
  obtain ⟨status, σ', hrun, hs, m, hmn, -, ⟨hv, rfl, hfilled⟩ | ⟨hv, hemptied⟩⟩ :=
    vmmMapPages_tried h hd hl (tried_range hle) c
  · exact ⟨status, σ', hrun, hs, .inl ⟨hv, hfilled⟩⟩
  · exact ⟨status, σ', hrun, hs, .inr ⟨hv, hemptied.mono hmn⟩⟩

include h hd hl in
/-- `vmm_map_range` changes no other page, and unmaps none. -/
theorem vmmMapRangeFrom_effect {pa : ℕ} (hle : va + (i + n) * pageSize ≤ recursiveAddr) :
    ∃ status σ', vmmMapRangeFrom r va pa flags n i σ = some (status, σ') ∧ SameDescriptors σ σ' ∧
      Directories σ' dirs ∧ ∀ q, q < windowPage →
        (¬ (va / pageSize + i ≤ q ∧ q < va / pageSize + i + n) →
          σ'.word (σ.region r).pgDir q = σ.word (σ.region r).pgDir q) ∧
        (present (σ.word (σ.region r).pgDir q) = true →
          present (σ'.word (σ.region r).pgDir q) = true) := by
  induction n generalizing i σ with
  | zero => exact ⟨0, σ, rfl, .refl σ, h.toDirectories, fun _ _ => ⟨fun _ => rfl, id⟩⟩
  | succ n ih =>
    obtain ⟨hlt, hpage, hle'⟩ := range_page hle
    rcases vmmMap_loaded h hd hl hlt (u32 (pa + i * pageSize)) flags with
      ⟨-, -, hrun⟩ | ⟨σ₁, hrun, hm⟩
    · exact ⟨-1, σ, Option.bind_eq_some_iff.2 ⟨_, hrun, rfl⟩, .refl σ, h.toDirectories,
        fun _ _ => ⟨fun _ => rfl, id⟩⟩
    · rw [hpage] at hm
      have hreg := congrFun hm.same.region r
      obtain ⟨status, σ', hrun', hs, hdirs, hword⟩ :=
        ih hm.spaces (hreg ▸ hd) (hl.of_same hm.same) hle'
      rw [hreg] at hword
      refine ⟨status, σ', Option.bind_eq_some_iff.2 ⟨_, hrun, hrun'⟩, hm.same.trans hs, hdirs,
        fun q hq => ⟨fun hne => ?_, fun hpres => (hword q hq).2 ?_⟩⟩
      · rw [(hword q hq).1 (by omega), hm.word _ q hd hq, if_neg (by omega)]
      · rw [hm.word _ q hd hq]
        split
        · exact present_pageEntry _ _
        · exact hpres

end Effect

/-! ### Calls and runs -/

/-- A call on the region. -/
inductive MapCall
  | allocate (call : AllocCall)
  | mapRange (va pa pages flags : ℕ)
  | free (va pages : ℕ)

/-- The pages of a range. -/
def rangePages (va n : ℕ) : Finset ℕ := (Finset.range n).image fun i => u32 (va + i * pageSize) / pageSize

theorem mem_rangePages (hle : va + n * pageSize ≤ recursiveAddr) :
    q ∈ rangePages va n ↔ va / pageSize ≤ q ∧ q < va / pageSize + n := by
  have hpage : ∀ i < n, u32 (va + i * pageSize) / pageSize = va / pageSize + i := fun i hi => by
    rw [u32_of_lt, page_div]
    simp only [pageSize, recursiveAddr] at *
    omega
  simp only [rangePages, Finset.mem_image, Finset.mem_range]
  constructor
  · rintro ⟨i, hi, rfl⟩
    rw [hpage i hi]
    omega
  · rintro ⟨hle, hlt⟩
    exact ⟨q - va / pageSize, by omega, by rw [hpage _ (by omega)]; omega⟩

/-- A run: the state, and the pages of each range that was handed out which have not been
freed since. -/
structure LiveRun where
  vmm : Vmm
  live : List (Finset ℕ)

/-- One call, that returns. -/
def MapCall.exec (r : ℕ) (s : LiveRun) : MapCall → Option LiveRun
  | allocate call => (call.run r s.vmm).map fun o =>
    ⟨o.2, if o.1 = call.failure then s.live else rangePages o.1 call.pages :: s.live⟩
  | mapRange va pa pages flags => (vmmMapRange r va pa pages flags s.vmm).map fun o => ⟨o.2, s.live⟩
  | free va pages => (vmmFree r va pages s.vmm).map fun σ => ⟨σ, s.live.map (· \ rangePages va pages)⟩

/-- One call, after the others have done something. -/
def LiveRun.Step (r d : ℕ) (s : LiveRun) (call : MapCall) (s' : LiveRun) : Prop :=
  ∃ σ, Interfere s.vmm σ d ∧ call.exec r ⟨σ, s.live⟩ = some s'

/-- The region `r` is current, its directory is `d`, its classes are in order, and
nothing has been handed out. -/
structure LiveRun.Start (r d : ℕ) (s : LiveRun) : Prop where
  live : s.live = []
  directories : Directories s.vmm (· = d)
  pgDir : (s.vmm.region r).pgDir = d
  loaded : Loaded s.vmm r
  next_pos : 0 < (s.vmm.region r).nextFreeVa
  next_lt : (s.vmm.region r).nextFreeVa < 2 ^ 32
  base_lt : (s.vmm.region r).baseVa < 2 ^ 32
  classes : ∃ cs ls, Classes s.vmm r cs ls ∧ Fresh s.vmm cs ls

/-! ### Dividing the address space -/

/-- The pages up to `top` that `vmm_alloc` has not come to. -/
def InArena (top r : ℕ) (σ : Vmm) (q : ℕ) : Prop := (σ.region r).nextFreeVa / pageSize ≤ q ∧ q < top

/-- The pages behind the areas of a class that is used. -/
def InRoom (used : VmClass → Prop) (r : ℕ) (σ : Vmm) (q : ℕ) : Prop :=
  ∃ type c, used type ∧ vmmClassGet r type σ = some (some c) ∧
    (σ.allocClass c).hintPtr / pageSize ≤ q ∧ q < (σ.allocClass c).config.stop / pageSize

namespace AllocCall

/-- The calls that do not look at the result of `vmm_map` do not tell when only the page
table of the last page is missing. -/
def Cut (call : AllocCall) (r va : ℕ) (σ : Vmm) : Prop :=
  call.checked = false ∧
    σ.freePages.length < pagesNeeded (σ.hasTable (σ.region r).pgDir) (va / pageSize) call.pages ∧
    σ.freePages.length =
      pagesNeeded (σ.hasTable (σ.region r).pgDir) (va / pageSize) (call.pages - 1) + 1

/-- The call may map page `q`. -/
def Entitled (top : ℕ) (used : VmClass → Prop) (r : ℕ) (σ : Vmm) (q : ℕ) : AllocCall → Prop
  | alloc _ _ => q < top ∧ ¬ InRoom used r σ q
  | mapAnonymous _ _ => ¬ InArena top r σ q ∧ ¬ InRoom used r σ q
  | allocStack _ _ => ¬ InRoom used r σ q
  | allocAligned _ _ _ => ¬ InRoom used r σ q
  | classAlloc type _ => used type ∧ ¬ InArena top r σ q ∧ ¬ InRoom (fun t => used t ∧ t ≠ type) r σ q

/-- The call keeps to its part of the address space. -/
structure Clear (top : ℕ) (used : VmClass → Prop) (r : ℕ) (σ : Vmm) (call : AllocCall) : Prop where
  ready : call.Ready r σ
  pages_pos : call.descriptor = true → 0 < call.pages
  below : ∀ va, call.target r σ = some (some va) → va + call.pages * pageSize ≤ recursiveAddr
  told : ∀ va, call.target r σ = some (some va) → ¬ call.Cut r va σ
  entitled : ∀ va, call.target r σ = some (some va) → ∀ q, va / pageSize ≤ q →
    q < va / pageSize + call.pages → call.Entitled top used r σ q

end AllocCall

/-- The call keeps to its part of the address space. -/
def MapCall.Clear (top : ℕ) (used : VmClass → Prop) (r : ℕ) (σ : Vmm) : MapCall → Prop
  | allocate call => call.Clear top used r σ
  | mapRange va _ pages _ => va + pages * pageSize ≤ recursiveAddr ∧ ∀ q, va / pageSize ≤ q →
    q < va / pageSize + pages → ¬ InArena top r σ q ∧ ¬ InRoom used r σ q
  | free va pages => va + pages * pageSize ≤ recursiveAddr

/-- Nothing is mapped in what is left to `vmm_alloc` and to the classes. -/
def Reserved (top : ℕ) (used : VmClass → Prop) (r d : ℕ) (σ : Vmm) : Prop :=
  ∀ q, q < windowPage → InArena top r σ q ∨ InRoom used r σ q → present (σ.word d q) = false

/-- A start at which nothing is mapped there. -/
def LiveRun.ClearStart (top : ℕ) (used : VmClass → Prop) (r d : ℕ) (s : LiveRun) : Prop :=
  s.Start r d ∧ Reserved top used r d s.vmm

/-- One call that keeps to its part. -/
def LiveRun.ClearStep (top : ℕ) (used : VmClass → Prop) (r d : ℕ) (s : LiveRun) (call : MapCall)
    (s' : LiveRun) : Prop :=
  ∃ σ, Interfere s.vmm σ d ∧ call.Clear top used r σ ∧ call.exec r ⟨σ, s.live⟩ = some s'

/-- The addresses that the allocators go by have moved forward. -/
structure Forward (σ σ' : Vmm) (r : ℕ) (cs : List ℕ) (ls' : ℕ → List ℕ) : Prop where
  currentPgDir : σ'.currentPgDir = σ.currentPgDir
  pgDir : (σ'.region r).pgDir = (σ.region r).pgDir
  baseVa : (σ'.region r).baseVa = (σ.region r).baseVa
  next_le : (σ.region r).nextFreeVa ≤ (σ'.region r).nextFreeVa
  next_lt : (σ'.region r).nextFreeVa < 2 ^ 32
  classes : Classes σ' r cs ls'
  fresh : Fresh σ' cs ls'
  config : ∀ c ∈ cs, (σ'.allocClass c).config = (σ.allocClass c).config
  hint : ∀ c ∈ cs, (σ.allocClass c).hintPtr ≤ (σ'.allocClass c).hintPtr

section Forward

variable (hclasses : Classes σ r cs ls) (hfresh : Fresh σ cs ls)
  (hnext : (σ.region r).nextFreeVa < 2 ^ 32)

include hclasses hfresh in
/-- `next_free_va` moves, and the other descriptors are as they were. -/
theorem Forward.setNextFreeVa (hs : SameDescriptors σ σ₁) (hle : (σ.region r).nextFreeVa ≤ va)
    (hlt : va < 2 ^ 32) : Forward σ (σ₁.setNextFreeVa r va) r cs ls := by
  have hreg : (σ₁.setNextFreeVa r va).region r = { σ.region r with nextFreeVa := va } := by
    rw [Vmm.setNextFreeVa, region_setRegion, hs.region]
  refine ⟨hs.currentPgDir, ?_, ?_, ?_, ?_, ?_, hfresh.congr hs.objects, fun c _ => ?_, fun c _ => ?_⟩
  · rw [hreg]
  · rw [hreg]
  · rw [hreg]
    exact hle
  · rw [hreg]
    exact hlt
  · exact hclasses.congr (by rw [hreg]) (fun c _ => congrFun hs.allocClass c)
      fun c _ p _ => congrFun hs.area p
  · exact congrArg AllocClass.config (congrFun hs.allocClass c)
  · exact (congrArg AllocClass.hintPtr (congrFun hs.allocClass c)).ge

include hclasses hfresh hnext in
theorem Forward.same (hs : SameDescriptors σ σ') : Forward σ σ' r cs ls := by
  refine ⟨hs.currentPgDir, ?_, ?_, ?_, ?_, ?_, hfresh.congr hs.objects, fun c _ => ?_, fun c _ => ?_⟩
  · rw [hs.region]
  · rw [hs.region]
  · rw [hs.region]
  · rw [hs.region]
    exact hnext
  · exact hclasses.congr (by rw [hs.region]) (fun c _ => congrFun hs.allocClass c)
      fun c _ p _ => congrFun hs.area p
  · exact congrArg AllocClass.config (congrFun hs.allocClass c)
  · exact (congrArg AllocClass.hintPtr (congrFun hs.allocClass c)).ge

include hclasses hfresh hnext in
/-- `next_free_va` is moved up, when it is not there already. -/
theorem Forward.raiseNext (hs : SameDescriptors σ σ₁) (hlt : va < 2 ^ 32) :
    Forward σ (σ₁.raiseNext r va) r cs ls ∧ va ≤ ((σ₁.raiseNext r va).region r).nextFreeVa := by
  rw [Vmm.raiseNext]
  split
  · next hlow =>
    rw [hs.region] at hlow
    refine ⟨.setNextFreeVa hclasses hfresh hs hlow.le hlt, ?_⟩
    rw [Vmm.setNextFreeVa, region_setRegion]
  · next hhigh => exact ⟨.same hclasses hfresh hnext hs, Nat.le_of_not_lt hhigh⟩

variable {top : ℕ} {used : VmClass → Prop} {ls' : ℕ → List ℕ}

theorem Forward.inArena (hf : Forward σ σ' r cs ls') (h : InArena top r σ' q) : InArena top r σ q :=
  ⟨(Nat.div_le_div_right hf.next_le).trans h.1, h.2⟩

include hclasses in
theorem Forward.inRoom (hf : Forward σ σ' r cs ls') (h : InRoom used r σ' q) : InRoom used r σ q := by
  obtain ⟨type, c, hused, hget, hle, hlt⟩ := h
  obtain ⟨hc, rfl⟩ := hf.classes.of_get hget
  have htype : σ'.classType c = σ.classType c := congrArg ClassConfig.type (hf.config c hc)
  refine ⟨_, c, htype ▸ hused, hclasses.get hc, (Nat.div_le_div_right (hf.hint c hc)).trans hle, ?_⟩
  rwa [← hf.config c hc]

end Forward

/-- The hint is where the areas end. -/
theorem Packed.hint_eq {align stop lo hint hint' : ℕ} {spans : List Extent}
    (h : Packed align stop lo spans hint) (h' : Packed align stop lo spans hint') : hint' = hint := by
  induction spans generalizing lo with
  | nil => exact Eq.trans h' (Eq.symm h)
  | cons x spans ih => exact ih h.2.2.2.2 h'.2.2.2.2

/-- A class allocation moves the hint of its class behind what it hands out. -/
theorem Allocated.forward {type : VmClass} {size : ℕ} (h : Allocated σ σ' r cs ls type size v)
    (hclasses : Classes σ r cs ls) (hnext : (σ.region r).nextFreeVa < 2 ^ 32)
    (hcur : σ'.currentPgDir = σ.currentPgDir) (hreg : σ'.region = σ.region) :
    ∃ ls', Forward σ σ' r cs ls' ∧
      (v ≠ 0 → ∀ c ∈ cs, σ.classType c = type → v + size ≤ (σ'.allocClass c).hintPtr) := by
  cases h with
  | failed hclasses' hfresh' hkeep =>
    refine ⟨ls, ⟨hcur, ?_, ?_, ?_, ?_, hclasses', hfresh', fun c hc => ?_, fun c hc => ?_⟩, ?_⟩
    · rw [hreg]
    · rw [hreg]
    · rw [hreg]
    · rw [hreg]
      exact hnext
    · rw [(hkeep c hc).1]
    · rw [(hkeep c hc).1]
    · exact fun hne => absurd rfl hne
  | done c p hc htype hfit hclasses' hfresh' hgrown hkeep =>
    have hend : classFront σ c + size ≤ (σ'.allocClass c).hintPtr := by
      have hstate := hclasses'.state c hc
      rw [Function.update_self] at hstate
      have hmem : (⟨classFront σ c, size⟩ : Extent) ∈ σ'.spans (ls c ++ [p]) := by simp [hgrown]
      exact (hstate.bounds.2.2.2.2.1 _ hmem).2.2.2
    refine ⟨_, ⟨hcur, ?_, ?_, ?_, ?_, hclasses', hfresh', fun d hd => (hkeep d hd).1, fun d hd => ?_⟩,
      fun _ d hd hdtype => ?_⟩
    · rw [hreg]
    · rw [hreg]
    · rw [hreg]
    · rw [hreg]
      exact hnext
    · rcases eq_or_ne d c with rfl | hdc
      · have hfront := (hclasses.state d hd).front_le
        omega
      · have hpacked := (hclasses'.state d hd).packed
        rw [Function.update_of_ne hdc, (hkeep d hd).1, (hkeep d hd).2 hdc] at hpacked
        exact ((hclasses.state d hd).packed.hint_eq hpacked).ge
    · obtain rfl := hclasses.type_inj hd hc (hdtype.trans htype.symm)
      exact hend

theorem Filled.of_samePages (h : Filled σ₁ σ' dirs d p n) (hs : SamePages σ σ₁) :
    Filled σ σ' dirs d p n :=
  ⟨h.dirs, fun q hq hne => by rw [h.other q hq hne, Vmm.word, hs.mem, Vmm.word], h.here⟩

theorem Emptied.of_samePages (h : Emptied σ₁ σ' dirs d p n) (hs : SamePages σ σ₁) :
    Emptied σ σ' dirs d p n := by
  have hword : ∀ q, σ₁.word d q = σ.word d q := fun q => by rw [Vmm.word, hs.mem, Vmm.word]
  exact ⟨h.dirs, fun q hq hne => (h.other q hq hne).trans (hword q),
    fun q hq hpres => (h.none q hq hpres).trans (hword q)⟩

/-- **`vmm_class_alloc`** maps the pages of its range and no others. -/
theorem vmmClassAlloc_effect (h : Spaces σ dirs) (hd : dirs (σ.region r).pgDir) (hl : Loaded σ r)
    (hclasses : Classes σ r cs ls) (hfresh : Fresh σ cs ls) {type : VmClass}
    (hget : vmmClassGet r type σ = some (some c)) (hc : c ∈ cs)
    (hfind : vmmFindFit c (u32 (n * pageSize)) σ = some (classFront σ c)) (hfront : classFront σ c ≠ 0)
    (hle : classFront σ c + n * pageSize ≤ recursiveAddr) :
    ∃ v σ', vmmClassAlloc r type n σ = some (v, σ') ∧ σ'.currentPgDir = σ.currentPgDir ∧
      σ'.region = σ.region ∧
      ((v = classFront σ c ∧
          Filled σ σ' dirs (σ.region r).pgDir (classFront σ c / pageSize) n) ∨
        (v = 0 ∧ Emptied σ σ' dirs (σ.region r).pgDir (classFront σ c / pageSize) n)) := by
  rcases ho : σ.objects with - | ⟨p, objects⟩
  · exact ⟨0, σ, vmmClassAlloc_noObject hget hfind hfront ho, rfl, rfl,
      .inr ⟨rfl, .refl h.toDirectories⟩⟩
  · obtain ⟨σ₁, hs, ha, hdone, hfail⟩ := vmmClassAlloc_insert hclasses hfresh hget hc hfind hfront ho
    obtain ⟨status, σ₂, hmap, hsame, hcase⟩ :=
      vmmMapPages_effect (hs.spaces h) (hs.region ▸ hd) (hs.loaded hl) hle c
    rw [hs.region] at hcase
    rcases hcase with ⟨rfl, hfilled⟩ | ⟨rfl, hemptied⟩
    · exact ⟨_, _, hdone σ₂ hmap, hsame.currentPgDir.trans hs.currentPgDir,
        hsame.region.trans hs.region, .inl ⟨rfl, (hfilled.of_samePages hs).congr rfl⟩⟩
    · obtain ⟨σ₃, hremove, hr, -⟩ := (ha.same hsame).restored hclasses hc
      exact ⟨0, σ₃, hfail σ₂ σ₃ hmap hremove,
        hr.currentPgDir.trans (hsame.currentPgDir.trans hs.currentPgDir),
        hr.region.trans (hsame.region.trans hs.region),
        .inr ⟨rfl, (hemptied.of_samePages hs).congr hr.mem⟩⟩

/-- The invariant: nothing is mapped in what is left to the allocators, and what has been
handed out is mapped, each range apart from the others. -/
structure LiveInv (top : ℕ) (used : VmClass → Prop) (r d : ℕ) (s : LiveRun) (cs : List ℕ)
    (ls : ℕ → List ℕ) : Prop where
  directories : Directories s.vmm (· = d)
  pgDir : (s.vmm.region r).pgDir = d
  loaded : Loaded s.vmm r
  next_pos : 0 < (s.vmm.region r).nextFreeVa
  next_lt : (s.vmm.region r).nextFreeVa < 2 ^ 32
  base_lt : (s.vmm.region r).baseVa < 2 ^ 32
  classes : Classes s.vmm r cs ls
  fresh : Fresh s.vmm cs ls
  reserved : Reserved top used r d s.vmm
  mapped : ∀ x ∈ s.live, ∀ q ∈ x, q < windowPage ∧ present (s.vmm.word d q) = true
  apart : s.live.Pairwise Disjoint

/-- What is vacant is not mapped. -/
theorem Vacant.rangeUnmapped (h : Vacant σ d (va / pageSize) n) (hl : Loaded σ r)
    (hd : (σ.region r).pgDir = d) (hle : va + n * pageSize ≤ recursiveAddr) :
    RangeUnmapped r n va σ := by
  intro i hi
  have hlt : va + i * pageSize < 2 ^ 32 := by
    simp only [pageSize, recursiveAddr] at *
    omega
  rw [u32_of_lt hlt, vmmIsMapped, vmmTableWord_loaded hl hlt, page_div, hd]
  exact congrArg some (h _ (Nat.le_add_right _ i) (Nat.add_lt_add_left hi _))

section Step

variable {top : ℕ} {used : VmClass → Prop} {live : List (Finset ℕ)} {call : AllocCall}

/-- What the others do keeps the invariant. -/
theorem LiveInv.interfere {s : LiveRun} (h : LiveInv top used r d s cs ls) (hi : Interfere s.vmm σ d) :
    LiveInv top used r d ⟨σ, s.live⟩ cs ls ∧ Spaces σ (· = d) := by
  have hs := hi.spaces h.directories
  have hf := Forward.same h.classes h.fresh h.next_lt hi.same
  refine ⟨⟨hs.toDirectories, hf.pgDir.trans h.pgDir, h.loaded.of_same hi.same, h.next_pos.trans_le hf.next_le,
    hf.next_lt, hf.baseVa.trans_lt h.base_lt, hf.classes, hf.fresh, fun q hq hin => ?_,
    fun x hx q hq => ?_, h.apart⟩, hs⟩
  · rw [hi.word hq]
    exact h.reserved q hq (hin.imp hf.inArena (hf.inRoom h.classes))
  · obtain ⟨hlt, hpres⟩ := h.mapped x hx q hq
    exact ⟨hlt, by rwa [hi.word hlt]⟩

/-- What a call has done with its range. -/
structure Placed (top : ℕ) (used : VmClass → Prop) (r d n va : ℕ) (σ σ' : Vmm) : Prop where
  filled : Filled σ σ' (· = d) d (va / pageSize) n
  past : ∀ q, va / pageSize ≤ q → q < va / pageSize + n → ¬ InArena top r σ' q ∧ ¬ InRoom used r σ' q

variable (h : LiveInv top used r d ⟨σ, live⟩ cs ls) (hs : Spaces σ (· = d))
  (hclear : call.Clear top used r σ) (htarget : call.target r σ = some (some va))

include h hs in
/-- The calls that look for pages that are not mapped and move `next_free_va` behind
them. -/
theorem effect_raise (hle : va + call.pages * pageSize ≤ recursiveAddr) (hcut : ¬ call.Cut r va σ)
    (hvacant : Vacant σ d (va / pageSize) call.pages)
    (hroom : ∀ q, va / pageSize ≤ q → q < va / pageSize + call.pages → ¬ InRoom used r σ q) {next : ℕ}
    (hnext : next < 2 ^ 32) (hpast : va / pageSize + call.pages ≤ next / pageSize)
    (hrun : mapUnchecked r va flags call.pages call.failure (raiseNext r next) σ = some (v, σ'))
    (hchecked : call.checked = false) :
    Vacant σ d (va / pageSize) call.pages ∧ ∃ ls', Forward σ σ' r cs ls' ∧
      ((v = va ∧ Placed top used r d call.pages va σ σ') ∨
        (v = call.failure ∧ Emptied σ σ' (· = d) d (va / pageSize) call.pages)) := by
  have hd : (σ.region r).pgDir = d := h.pgDir
  refine ⟨hvacant, ls, ?_⟩
  rcases mapUnchecked_effect hs hd h.loaded hle hrun
      (fun hneed hcount => hcut ⟨hchecked, hneed, hcount⟩) with
    ⟨rfl, σ₁, rfl, hsame, hfilled⟩ | ⟨rfl, hsame, hemptied⟩
  · obtain ⟨hf, hge⟩ := Forward.raiseNext h.classes h.fresh h.next_lt hsame hnext
    refine ⟨hf, .inl ⟨rfl, (hd ▸ hfilled).congr (finish_raiseNext next σ₁).1,
      fun q hpq hq => ⟨fun hin => ?_, fun hin => hroom q hpq hq (hf.inRoom h.classes hin)⟩⟩⟩
    have hpage := (Nat.div_le_div_right (c := pageSize) hge).trans hin.1
    omega
  · exact ⟨.same h.classes h.fresh h.next_lt hsame, .inr ⟨rfl, hd ▸ hemptied⟩⟩

include h hs in
theorem AllocCall.effect (hclear : call.Clear top used r σ)
    (htarget : call.target r σ = some (some va)) (hrun : call.run r σ = some (v, σ')) :
    Vacant σ d (va / pageSize) call.pages ∧ ∃ ls', Forward σ σ' r cs ls' ∧
      ((v = va ∧ Placed top used r d call.pages va σ σ') ∨
        (v = call.failure ∧ Emptied σ σ' (· = d) d (va / pageSize) call.pages)) := by
  have hd : (σ.region r).pgDir = d := h.pgDir
  have hle := hclear.below va htarget
  have hentitled := hclear.entitled va htarget
  have htold := hclear.told va htarget
  cases call with
  | alloc n flags =>
    obtain ⟨hn, hbump, hcall⟩ := alloc_target htarget
    obtain rfl : (σ.region r).nextFreeVa = va := (if_pos h.next_pos.ne').symm.trans hbump
    have hend : (σ.region r).nextFreeVa + n * pageSize < 2 ^ 32 := lt_of_le_of_lt hle (by decide)
    refine ⟨fun q hpq hq => h.reserved q (page_lt_of_range (i := 0) (by rwa [Nat.zero_add]) hq)
      (.inl ⟨hpq, (hentitled q hpq hq).1⟩), ls, ?_⟩
    rcases mapUnchecked_effect hs hd h.loaded hle (hcall.symm.trans hrun)
        (fun hneed hcut => htold ⟨rfl, hd ▸ hneed, hd ▸ hcut⟩) with
      ⟨rfl, σ₁, rfl, hsame, hfilled⟩ | ⟨rfl, hsame, hemptied⟩
    · have hf := Forward.setNextFreeVa h.classes h.fresh hsame (Nat.le_add_right _ (n * pageSize)) hend
      rw [u32_of_lt hend]
      refine ⟨hf, .inl ⟨rfl, (hd ▸ hfilled).congr rfl, fun q hpq hq => ⟨fun hin => ?_, fun hin => ?_⟩⟩⟩
      · have hnext := hin.1
        rw [Vmm.setNextFreeVa, region_setRegion, page_div] at hnext
        exact absurd hq (Nat.not_lt.2 hnext)
      · exact (hentitled q hpq hq).2 (hf.inRoom h.classes hin)
    · exact ⟨.same h.classes h.fresh h.next_lt hsame, .inr ⟨rfl, hd ▸ hemptied⟩⟩
  | mapAnonymous n flags =>
    obtain ⟨va', hfind, hva⟩ := Option.map_eq_some_iff.1 htarget
    obtain ⟨rfl, hva⟩ := nonNull_eq_some.1 hva
    obtain ⟨-, hrange⟩ := vmmFindFreeRange_spec hs.toDirectories hd h.loaded hfind hva
    obtain ⟨w, σ'', hcall, hsame, hcase⟩ := vmmMapAnonymous_effect hs hd h.loaded hle hfind hva flags
    obtain ⟨rfl, rfl⟩ := Prod.mk.inj (Option.some.inj (hrun.symm.trans hcall))
    have hf := Forward.same h.classes h.fresh h.next_lt hsame
    rw [hd] at hcase hrange
    refine ⟨hrange.vacant.mono (Nat.le_max_left n 1), ls, hf, hcase.imp
      (fun hc => ⟨hc.1, hc.2, fun q hpq hq => ?_⟩) fun hc => ⟨hc.1, hc.2⟩⟩
    obtain ⟨harena, hroom⟩ := hentitled q hpq hq
    exact ⟨fun hin => harena (hf.inArena hin), fun hin => hroom (hf.inRoom h.classes hin)⟩
  | allocStack n flags =>
    obtain ⟨base, hfind, hbase, rfl, hcall⟩ := allocStack_target htarget
    obtain ⟨hdvd, hrange⟩ := vmmFindFreeRange_spec hs.toDirectories hd h.loaded hfind hbase
    have hfirst := hrange.first_lt
    have hend := hrange.le
    have hvacant := hrange.vacant
    rw [hd] at hvacant
    rw [u32_of_lt hfirst] at hle hentitled htold hcall ⊢
    have htotal : u32 (n + 2) = n + 2 := u32_of_lt (by
      change _ + n * pageSize ≤ _ at hle
      simp only [pageSize, recursiveAddr] at hle
      omega)
    have hmax : max (n + 2) 1 = n + 2 := by omega
    rw [htotal, hmax] at hend hvacant
    rw [htotal, u32_of_lt hend] at hcall
    have hpage : (base + pageSize) / pageSize = base / pageSize + 1 :=
      Nat.add_div_right _ (by decide : 0 < pageSize)
    refine effect_raise h hs hle htold (fun q hpq hq => ?_) hentitled hend ?_ (hcall.symm.trans hrun) rfl
    · rw [hpage] at hpq hq
      change q < base / pageSize + 1 + n at hq
      exact hvacant q (by omega) (by omega)
    · rw [hpage, page_div]
      change base / pageSize + 1 + n ≤ _
      omega
  | allocAligned n alignment flags =>
    obtain ⟨hfind, hva, hcall⟩ := allocAligned_target htarget
    have hrange := vmmFindFreeRangeAligned_spec h.loaded h.next_lt h.base_lt hfind hva
    have hend : va + n * pageSize < 2 ^ 32 := lt_of_le_of_lt hle (by decide)
    rw [u32_of_lt hend] at hcall
    refine effect_raise h hs hle htold ((hd ▸ hrange.vacant).mono (Nat.le_max_left n 1)) hentitled hend
      ?_ (hcall.symm.trans hrun) rfl
    rw [page_div]
    exact le_rfl
  | classAlloc type n =>
    obtain ⟨-, hwrap, hfits⟩ := hclear.ready
    obtain ⟨c, hc, hget, rfl, hfind, hfront, hfit⟩ := classAlloc_target h.classes hwrap hfits htarget
    obtain ⟨w, σ'', hcall, hcur, hreg, hcase⟩ :=
      vmmClassAlloc_effect hs hd h.loaded h.classes h.fresh hget hc hfind hfront hle
    obtain ⟨rfl, rfl⟩ := Prod.mk.inj (Option.some.inj (hrun.symm.trans hcall))
    obtain ⟨ls', hf, hmoved⟩ :=
      (vmmClassAlloc_fits h.classes h.fresh (hclear.pages_pos rfl) hwrap hfits hrun).forward h.classes
        h.next_lt hcur hreg
    rw [hd] at hcase
    have hhint : (σ.allocClass c).hintPtr ≤ classFront σ c := (h.classes.state c hc).front_le
    refine ⟨fun q hpq hq => h.reserved q (page_lt_of_range (i := 0) (by rwa [Nat.zero_add]) hq)
      (.inr ⟨type, c, (hentitled q hpq hq).1, hget, (Nat.div_le_div_right hhint).trans hpq, ?_⟩),
      ls', hf, hcase.imp (fun hc' => ⟨hc'.1, hc'.2, fun q hpq hq => ?_⟩) fun hc => ⟨hc.1, hc.2⟩⟩
    · have hpage := Nat.div_le_div_right (c := pageSize) hfit
      rw [page_div] at hpage
      exact hq.trans_le hpage
    · obtain ⟨-, harena, hroom⟩ := hentitled q hpq hq
      refine ⟨fun hin => harena (hf.inArena hin), ?_⟩
      rintro ⟨t, c', hused, hget', hle', hlt'⟩
      by_cases ht : t = type
      · obtain ⟨hc₁, htype₁⟩ := hf.classes.of_get hget'
        have hfront' : v + n * pageSize ≤ (σ'.allocClass c').hintPtr := by
          refine hmoved (hc'.1 ▸ hfront) c' hc₁ ?_
          rw [← ht, ← htype₁]
          exact (congrArg ClassConfig.type (hf.config c' hc₁)).symm
        have hpage := (Nat.div_le_div_right (c := pageSize) hfront').trans hle'
        rw [hc'.1, page_div] at hpage
        exact absurd hq (Nat.not_lt.2 hpage)
      · exact hroom (hf.inRoom h.classes ⟨t, c', ⟨hused, ht⟩, hget', hle', hlt'⟩)

include h in
theorem LiveInv.forward {ls' : ℕ → List ℕ} {live' : List (Finset ℕ)} (hf : Forward σ σ' r cs ls')
    (hdirs : Directories σ' (· = d)) (hreserved : Reserved top used r d σ')
    (hmapped : ∀ x ∈ live', ∀ q ∈ x, q < windowPage ∧ present (σ'.word d q) = true)
    (hapart : live'.Pairwise Disjoint) : LiveInv top used r d ⟨σ', live'⟩ cs ls' where
  directories := hdirs
  pgDir := hf.pgDir.trans h.pgDir
  loaded := by
    change σ'.currentPgDir = (σ'.region r).pgDir
    rw [hf.currentPgDir, hf.pgDir]
    exact h.loaded
  next_pos := h.next_pos.trans_le hf.next_le
  next_lt := hf.next_lt
  base_lt := hf.baseVa.trans_lt h.base_lt
  classes := hf.classes
  fresh := hf.fresh
  reserved := hreserved
  mapped := hmapped
  apart := hapart

include h in
/-- Pages that are in use stay mapped when a range changes that was not mapped. -/
theorem LiveInv.keep (hvacant : Vacant σ d p n)
    (hother : ∀ q, q < windowPage → ¬ (p ≤ q ∧ q < p + n) → σ'.word d q = σ.word d q) :
    ∀ x ∈ live, ∀ q ∈ x, ¬ (p ≤ q ∧ q < p + n) ∧ q < windowPage ∧ present (σ'.word d q) = true := by
  intro x hx q hq
  obtain ⟨hlt, hpres⟩ := h.mapped x hx q hq
  have hne : ¬ (p ≤ q ∧ q < p + n) := fun hin =>
    absurd ((hvacant q hin.1 hin.2).symm.trans hpres) (by simp)
  exact ⟨hne, hlt, by rw [hother q hlt hne]; exact hpres⟩

include h hs in
theorem LiveInv.allocate (hclear : call.Clear top used r σ) (hrun : call.run r σ = some (v, σ')) :
    ∃ ls', LiveInv top used r d
      ⟨σ', if v = call.failure then live else rangePages v call.pages :: live⟩ cs ls' := by
  cases htarget : call.target r σ with
  | none => exact absurd ((AllocCall.run_of_target htarget).symm.trans hrun) (by simp)
  | some target =>
    cases target with
    | none =>
      obtain ⟨rfl, rfl⟩ :=
        Prod.mk.inj (Option.some.inj (hrun.symm.trans (AllocCall.run_of_refused htarget)))
      rw [if_pos rfl]
      exact ⟨ls, h⟩
    | some va =>
      have hrange : ∀ q, q ∈ rangePages va call.pages ↔
          va / pageSize ≤ q ∧ q < va / pageSize + call.pages := fun _ =>
        mem_rangePages (hclear.below va htarget)
      have hlt : ∀ q, q < va / pageSize + call.pages → q < windowPage := fun q hq =>
        page_lt_of_range (i := 0) (by rw [Nat.zero_add]; exact hclear.below va htarget) hq
      obtain ⟨hvacant, ls', hf, ⟨rfl, hplaced⟩ | ⟨rfl, hemptied⟩⟩ := AllocCall.effect h hs hclear htarget hrun
      · have hkeep := h.keep hvacant hplaced.filled.other
        refine ⟨ls', h.forward hf hplaced.filled.dirs (fun q hq hin => ?_) ?_ ?_⟩
        · have hne : ¬ (v / pageSize ≤ q ∧ q < v / pageSize + call.pages) := fun hpq =>
            hin.elim (hplaced.past q hpq.1 hpq.2).1 (hplaced.past q hpq.1 hpq.2).2
          rw [hplaced.filled.other q hq hne]
          exact h.reserved q hq (hin.imp hf.inArena (hf.inRoom h.classes))
        · intro x hx q hq
          split at hx
          · exact (hkeep x hx q hq).2
          · rcases List.mem_cons.1 hx with rfl | hx
            · obtain ⟨hpq, hq⟩ := (hrange q).1 hq
              exact ⟨hlt q hq, hplaced.filled.here q hpq hq⟩
            · exact (hkeep x hx q hq).2
        · split
          · exact h.apart
          · refine List.pairwise_cons.2 ⟨fun x hx => Finset.disjoint_left.2 fun q hq hqx => ?_, h.apart⟩
            exact (hkeep x hx q hqx).1 ((hrange q).1 hq)
      · rw [if_pos rfl]
        refine ⟨ls', h.forward hf hemptied.dirs (fun q hq hin => ?_)
          (fun x hx q hq => (h.keep hvacant hemptied.other x hx q hq).2) h.apart⟩
        have hnone := h.reserved q hq (hin.imp hf.inArena (hf.inRoom h.classes))
        rcases hpres : present (σ'.word d q) with - | -
        · rfl
        · rw [← hemptied.none q hq hpres, hpres] at hnone
          exact hnone

include h hs in
theorem LiveInv.mapRange (hle : va + n * pageSize ≤ recursiveAddr)
    (hfree : ∀ q, va / pageSize ≤ q → q < va / pageSize + n → ¬ InArena top r σ q ∧ ¬ InRoom used r σ q)
    (hrun : vmmMapRange r va pa n flags σ = some (status, σ')) : LiveInv top used r d ⟨σ', live⟩ cs ls := by
  have hd : (σ.region r).pgDir = d := h.pgDir
  obtain ⟨status', σ'', hcall, hsame, hdirs, hword⟩ := vmmMapRangeFrom_effect hs hd h.loaded
    (by rwa [Nat.zero_add] : va + (0 + n) * pageSize ≤ recursiveAddr)
  obtain ⟨-, rfl⟩ := Prod.mk.inj (Option.some.inj (hrun.symm.trans hcall))
  rw [hd, Nat.add_zero] at hword
  have hf := Forward.same h.classes h.fresh h.next_lt hsame
  refine h.forward hf hdirs (fun q hq hin => ?_) (fun x hx q hq => ?_) h.apart
  · have hin' := hin.imp hf.inArena (hf.inRoom h.classes)
    rw [(hword q hq).1 fun hpq => hin'.elim (hfree q hpq.1 hpq.2).1 (hfree q hpq.1 hpq.2).2]
    exact h.reserved q hq hin'
  · obtain ⟨hlt, hpres⟩ := h.mapped x hx q hq
    exact ⟨hlt, (hword q hlt).2 hpres⟩

include h hs in
theorem LiveInv.free (hle : va + n * pageSize ≤ recursiveAddr) (hrun : vmmFree r va n σ = some σ') :
    LiveInv top used r d ⟨σ', live.map (· \ rangePages va n)⟩ cs ls := by
  have hd : (σ.region r).pgDir = d := h.pgDir
  obtain ⟨σ'', hcall, hc, -⟩ := vmmFreeFrom_loaded hs.toDirectories hd h.loaded
    (by rwa [Nat.zero_add] : va + (0 + n) * pageSize ≤ recursiveAddr)
  obtain rfl := Option.some.inj (hrun.symm.trans hcall)
  rw [hd, Nat.add_zero] at hc
  have hf := Forward.same h.classes h.fresh h.next_lt hc.same
  refine h.forward hf (hc.directories hs.toDirectories) (fun q hq hin => ?_) ?_ ?_
  · rw [hc.word d q rfl hq]
    split
    · exact present_zero
    · exact h.reserved q hq (hin.imp hf.inArena (hf.inRoom h.classes))
  · rintro x' hx' q hq
    obtain ⟨x, hx, rfl⟩ := List.mem_map.1 hx'
    obtain ⟨hqx, hne⟩ := Finset.mem_sdiff.1 hq
    obtain ⟨hlt, hpres⟩ := h.mapped x hx q hqx
    rw [mem_rangePages hle] at hne
    refine ⟨hlt, ?_⟩
    rw [hc.word d q rfl hlt, if_neg fun hpq => hne hpq.2]
    exact hpres
  · exact List.Pairwise.map _ (fun _ _ hxy => hxy.mono Finset.sdiff_subset Finset.sdiff_subset) h.apart

end Step

variable {top : ℕ} {used : VmClass → Prop}

/-- What one call preserves. -/
theorem LiveInv.step {s s' : LiveRun} {call : MapCall} (h : LiveInv top used r d s cs ls)
    (hstep : s.ClearStep top used r d call s') : ∃ ls', LiveInv top used r d s' cs ls' := by
  obtain ⟨σ, hi, hclear, hexec⟩ := hstep
  obtain ⟨hinv, hs⟩ := h.interfere hi
  cases call with
  | allocate call =>
    obtain ⟨⟨v, σ'⟩, hrun, rfl⟩ := Option.map_eq_some_iff.1 hexec
    exact hinv.allocate hs hclear hrun
  | mapRange va pa n flags =>
    obtain ⟨⟨status, σ'⟩, hrun, rfl⟩ := Option.map_eq_some_iff.1 hexec
    exact ⟨ls, hinv.mapRange hs hclear.1 hclear.2 hrun⟩
  | free va n =>
    obtain ⟨σ', hrun, rfl⟩ := Option.map_eq_some_iff.1 hexec
    exact ⟨ls, hinv.free hs hclear hrun⟩

theorem LiveRun.inv {s : LiveRun}
    (h : Reach (LiveRun.ClearStart top used r d) (LiveRun.ClearStep top used r d) s) :
    ∃ cs ls, LiveInv top used r d s cs ls := by
  refine h.invariant (P := fun s => ∃ cs ls, LiveInv top used r d s cs ls) ?_ ?_
  · rintro s ⟨⟨hlive, hdirs, hd, hl, hpos, hlt, hbase, cs, ls, hclasses, hfresh⟩, hreserved⟩
    exact ⟨cs, ls, hdirs, hd, hl, hpos, hlt, hbase, hclasses, hfresh, hreserved, by simp [hlive], by simp [hlive]⟩
  · rintro s call s' - ⟨cs, ls, hinv⟩ hstep
    obtain ⟨ls', hinv'⟩ := hinv.step hstep
    exact ⟨cs, ls', hinv'⟩

/-- **What is handed out was not mapped before, and stays apart**, in every run whose
calls keep to their parts of the address space. -/
theorem live_ranges_apart {s : LiveRun}
    (h : Reach (LiveRun.ClearStart top used r d) (LiveRun.ClearStep top used r d) s) :
    s.live.Pairwise Disjoint ∧ ∀ (call : AllocCall) (σ σ' : Vmm) (v : ℕ), Interfere s.vmm σ d →
      call.Clear top used r σ → call.run r σ = some (v, σ') → v ≠ call.failure →
        RangeUnmapped r call.pages v σ := by
  obtain ⟨cs, ls, hinv⟩ := LiveRun.inv h
  refine ⟨hinv.apart, fun call σ σ' v hi hclear hrun hv => ?_⟩
  obtain ⟨hinv', hs⟩ := hinv.interfere hi
  cases htarget : call.target r σ with
  | none => exact absurd ((AllocCall.run_of_target htarget).symm.trans hrun) (by simp)
  | some target =>
    cases target with
    | none =>
      obtain ⟨rfl, -⟩ :=
        Prod.mk.inj (Option.some.inj (hrun.symm.trans (AllocCall.run_of_refused htarget)))
      exact absurd rfl hv
    | some va =>
      obtain ⟨hvacant, -, -, ⟨rfl, -⟩ | ⟨rfl, -⟩⟩ := AllocCall.effect hinv' hs hclear htarget hrun
      · exact hvacant.rangeUnmapped hinv'.loaded hinv'.pgDir (hclear.below v htarget)
      · exact absurd rfl hv

/-! ### A region with its classes -/

/-- The calls work on the same pages. -/
structure SameSpace (σ σ' : Vmm) (r : ℕ) : Prop where
  mem : σ'.mem = σ.mem
  freePages : σ'.freePages = σ.freePages
  currentPgDir : σ'.currentPgDir = σ.currentPgDir
  pgDir : (σ'.region r).pgDir = (σ.region r).pgDir
  baseVa : (σ'.region r).baseVa = (σ.region r).baseVa
  nextFreeVa : (σ'.region r).nextFreeVa = (σ.region r).nextFreeVa

theorem SameSpace.refl (σ : Vmm) (r : ℕ) : SameSpace σ σ r := ⟨rfl, rfl, rfl, rfl, rfl, rfl⟩

theorem SameSpace.trans (h : SameSpace σ σ₁ r) (h' : SameSpace σ₁ σ' r) : SameSpace σ σ' r where
  mem := h'.mem.trans h.mem
  freePages := h'.freePages.trans h.freePages
  currentPgDir := h'.currentPgDir.trans h.currentPgDir
  pgDir := h'.pgDir.trans h.pgDir
  baseVa := h'.baseVa.trans h.baseVa
  nextFreeVa := h'.nextFreeVa.trans h.nextFreeVa

theorem sameSpace_setClassList (l : Option ℕ) :
    SameSpace σ (σ.setRegion r { σ.region r with classList := l }) r := by
  constructor
  case pgDir => rw [region_setRegion]
  case baseVa => rw [region_setRegion]
  case nextFreeVa => rw [region_setRegion]
  all_goals rfl

theorem vmmClassRegister_sameSpace {config : ClassConfig}
    (hrun : vmmClassRegister r config σ = some (status, σ')) : SameSpace σ σ' r := by
  obtain ⟨o, -, hrun⟩ := Option.bind_eq_some_iff.1 hrun
  cases o with
  | some c =>
    obtain ⟨-, rfl⟩ := Prod.mk.inj (Option.some.inj hrun)
    exact .refl _ r
  | none =>
    rcases hobj : σ.objects with - | ⟨p, objects⟩
    · simp only [Vmm.kmalloc, hobj] at hrun
      obtain ⟨-, rfl⟩ := Prod.mk.inj (Option.some.inj hrun)
      exact .refl _ r
    · simp only [Vmm.kmalloc, hobj] at hrun
      obtain ⟨-, rfl⟩ := Prod.mk.inj (Option.some.inj hrun)
      exact (show SameSpace σ (({ σ with objects := objects } : Vmm).setClass p _) r from
        ⟨rfl, rfl, rfl, rfl, rfl, rfl⟩).trans (sameSpace_setClassList _)

theorem vmmRegisterAll_sameSpace {configs : List ClassConfig}
    (hrun : vmmRegisterAll r configs σ = some σ') : SameSpace σ σ' r := by
  induction configs generalizing σ with
  | nil =>
    obtain rfl := Option.some.inj hrun
    exact .refl σ r
  | cons config configs ih =>
    obtain ⟨⟨status, σ₁⟩, hregister, hrun⟩ := Option.bind_eq_some_iff.1 hrun
    exact (vmmClassRegister_sameSpace hregister).trans (ih hrun)

theorem vmmClassesInit_sameSpace (hrun : vmmClassesInit r σ = some σ') : SameSpace σ σ' r :=
  (sameSpace_setClassList none).trans (vmmRegisterAll_sameSpace hrun)

/-- A region over clear memory that is current, with its classes. -/
def classedRegion : Option LiveRun :=
  (vmmClassesInit 0 (vmmSwitch 0
    (vmmRegionNew (clearVmm ((List.range' 1 6).map (· * pageSize)) (List.range 8))).2)).map (⟨·, []⟩)

theorem classedRegion_start {s : LiveRun} (h : classedRegion = some s) :
    s.Start 0 0x1000 ∧ Spaces s.vmm (· = 0x1000) ∧ ∀ q < windowPage, s.vmm.word 0x1000 q = 0 := by
  obtain ⟨σ, hrun, rfl⟩ := Option.map_eq_some_iff.1 h
  obtain ⟨-, hc⟩ := vmmRegionNew_created (σ := clearVmm ((List.range' 1 6).map (· * pageSize))
    (List.range 8)) (by decide) rfl rfl
  have hsame := vmmClassesInit_sameSpace hrun
  obtain ⟨cs, ls, hinv⟩ := ClassRun.Start.inv (s := ⟨σ, []⟩) ⟨rfl, _, by decide, hrun⟩
  have hs : Spaces σ (· = 0x1000) :=
    (hc.spaces_single (by decide)).switch.congr (fun _ _ => by rw [hsame.mem]) hsame.freePages
  refine ⟨⟨rfl, hs.toDirectories, hsame.pgDir.trans hc.pgDir, ?_, ?_, ?_, ?_, cs, ls, hinv.classes,
    hinv.fresh⟩, hs, fun q hq => ?_⟩
  · exact hsame.currentPgDir.trans hsame.pgDir.symm
  · exact hsame.nextFreeVa.symm ▸ (by decide : 0 < userSpaceStart)
  · exact hsame.nextFreeVa.symm ▸ (by decide : userSpaceStart < 2 ^ 32)
  · exact hsame.baseVa.symm ▸ (by decide : userSpaceStart < 2 ^ 32)
  · rw [Vmm.word, hsame.mem]
    exact hc.word hq

/-- Pages of `vmm_alloc` leave the memory in order. -/
theorem vmmAlloc_spaces (h : Spaces σ dirs) (hd : dirs (σ.region r).pgDir) (hl : Loaded σ r)
    (hle : vmmBump r σ + n * pageSize ≤ recursiveAddr) (hn : n ≠ 0)
    (hrun : vmmAlloc r n flags σ = some (v, σ')) (hv : v ≠ minusOne) : Spaces σ' dirs := by
  rcases vmmAlloc_loaded h hd hl hle hn flags with ⟨σ₁, frames, hcall, hf, -⟩ | ⟨σ₁, frames, hcall, -⟩
  · obtain ⟨-, rfl⟩ := Prod.mk.inj (Option.some.inj (hrun.symm.trans hcall))
    exact hf.spaces.congr (fun _ _ => rfl) rfl
  · obtain ⟨rfl, -⟩ := Prod.mk.inj (Option.some.inj (hrun.symm.trans hcall))
    exact absurd rfl hv

/-- The region has allocated a page with `vmm_alloc`. -/
def firstPage : Option LiveRun :=
  classedRegion.bind fun s => MapCall.exec 0 s (.allocate (.alloc 1 pageRw))

theorem firstPage_spaces {s : LiveRun} (h : firstPage = some s) : Spaces s.vmm (· = 0x1000) := by
  have hval : (classedRegion.bind fun s => vmmAlloc 0 1 pageRw s.vmm).map Prod.fst =
      some userSpaceStart := by decide +kernel
  have hbump : classedRegion.map (fun s => vmmBump 0 s.vmm) = some userSpaceStart := by decide +kernel
  obtain ⟨s₀, h₀, hexec⟩ := Option.bind_eq_some_iff.1 h
  obtain ⟨⟨v, σ'⟩, hrun, rfl⟩ := Option.map_eq_some_iff.1 hexec
  obtain ⟨hstart, hs, -⟩ := classedRegion_start h₀
  rw [h₀] at hval hbump
  have hva : vmmBump 0 s₀.vmm = userSpaceStart := Option.some.inj hbump
  have hv : v = userSpaceStart := by
    rw [Option.bind_some, show vmmAlloc 0 1 pageRw s₀.vmm = some (v, σ') from hrun] at hval
    exact Option.some.inj hval
  exact vmmAlloc_spaces hs hstart.pgDir hstart.loaded (by rw [hva]; decide) one_ne_zero hrun
    (by rw [hv]; decide)

/-- The calls of the witness: `vmm_alloc` has the pages up to `0x200`, the kernel's
class its window. -/
theorem firstPage_clear {s₀ s₁ : LiveRun} (h₀ : classedRegion = some s₀)
    (halloc : MapCall.exec 0 s₀ (.allocate (.alloc 1 pageRw)) = some s₁) :
    LiveRun.ClearStart 0x200 (· = .kernel) 0 0x1000 s₀ ∧
      LiveRun.ClearStep 0x200 (· = .kernel) 0 0x1000 s₀ (.allocate (.alloc 1 pageRw)) s₁ := by
  have hval : classedRegion.map (fun s => (vmmBump 0 s.vmm,
      (vmmClassGet 0 .kernel s.vmm).map (Option.map fun c => (s.vmm.allocClass c).hintPtr),
      decide (pagesNeeded (s.vmm.hasTable (s.vmm.region 0).pgDir) (userSpaceStart / pageSize) 1 ≤
        s.vmm.freePages.length))) = some (userSpaceStart, some (some 0xC0000000), true) := by decide +kernel
  rw [h₀] at hval
  obtain ⟨hbump, hval⟩ := Prod.mk.inj (Option.some.inj hval)
  obtain ⟨hkernel, henough⟩ := Prod.mk.inj hval
  obtain ⟨hstart, hs, hnone⟩ := classedRegion_start h₀
  have htarget : ∀ va, (AllocCall.alloc 1 pageRw).target 0 s₀.vmm = some (some va) → va = userSpaceStart :=
    fun va hva => (Option.some.inj (Option.some.inj hva)).symm.trans hbump
  refine ⟨⟨hstart, fun q hq _ => by rw [hnone q hq, present_zero]⟩, s₀.vmm, .refl hs,
    ⟨(by decide : pageRw < pageSize), fun hfalse => absurd hfalse (by simp [AllocCall.descriptor]),
      fun va hva => ?_, fun va hva hcut => ?_, fun va hva q hpq hq => ⟨?_, ?_⟩⟩, halloc⟩
  · rw [htarget va hva]
    decide
  · rw [htarget va hva] at hcut
    exact absurd (of_decide_eq_true henough) (Nat.not_le.2 hcut.2.1)
  · rw [htarget va hva] at hq
    exact hq.trans_le (by decide)
  · rintro ⟨type, c, rfl, hget, hle, -⟩
    rw [hget] at hkernel
    have hhint : (s₀.vmm.allocClass c).hintPtr = 0xC0000000 :=
      Option.some.inj (Option.some.inj hkernel)
    rw [hhint] at hle
    rw [htarget va hva] at hq
    exact absurd (hle.trans_lt hq) (by decide)

/-- A page of `vmm_alloc`, and one of the kernel's class. -/
theorem live_ranges_apart_two : ∃ s : LiveRun, s.live.length = 2 ∧ s.live.Pairwise Disjoint := by
  have hrun : (firstPage.bind fun s => MapCall.exec 0 s (.allocate (.classAlloc .kernel 1))).map
      (fun s => s.live.length) = some 2 := by decide +kernel
  have hval : firstPage.map (fun s => (decide (ClearRequest s.vmm 0 .kernel 1),
      (AllocCall.classAlloc .kernel 1).target 0 s.vmm)) = some (true, some (some 0xC0000000)) := by
    decide +kernel
  obtain ⟨s₂, hrun, hlen⟩ := Option.map_eq_some_iff.1 hrun
  obtain ⟨s₁, h₁, hclass⟩ := Option.bind_eq_some_iff.1 hrun
  obtain ⟨s₀, h₀, halloc⟩ := Option.bind_eq_some_iff.1 h₁
  obtain ⟨hstart, hstep⟩ := firstPage_clear h₀ halloc
  have hreach := (Reach.init hstart).step _ hstep
  obtain ⟨cs, ls, hinv⟩ := LiveRun.inv hreach
  rw [h₁] at hval
  obtain ⟨hrequest, htarget⟩ := Prod.mk.inj (Option.some.inj hval)
  obtain ⟨hwrap, hfits⟩ := of_decide_eq_true hrequest
  have hva : ∀ va, (AllocCall.classAlloc .kernel 1).target 0 s₁.vmm = some (some va) → va = 0xC0000000 :=
    fun va h => Option.some.inj (Option.some.inj (h.symm.trans htarget))
  have hclear : (AllocCall.classAlloc .kernel 1).Clear 0x200 (· = .kernel) 0 s₁.vmm := by
    refine ⟨⟨⟨cs, ls, hinv.classes, hinv.fresh⟩, hwrap, fun c hget =>
      ⟨(hfits c hget).1, fun hle => ((hfits c hget).2 hle).1⟩⟩, fun _ => Nat.one_pos,
      fun va h => ?_, fun va h hcut => absurd hcut.1 (by decide), fun va h q hpq hq => ⟨rfl, ?_, ?_⟩⟩
    · rw [hva va h]
      decide
    · rintro ⟨-, hlt⟩
      rw [hva va h] at hpq
      exact absurd (hpq.trans_lt hlt) (by decide)
    · rintro ⟨type, c, ⟨rfl, hne⟩, -⟩
      exact hne rfl
  exact ⟨s₂, hlen, (live_ranges_apart (hreach.step (.allocate (.classAlloc .kernel 1))
    ⟨s₁.vmm, .refl (firstPage_spaces h₁), hclear, hclass⟩)).1⟩

/-- A page of `vmm_alloc`, and one of the class for user memory: both are the first page
of user memory. -/
theorem live_ranges_meet : ¬ ∀ (r d : ℕ) (s : LiveRun),
    Reach (LiveRun.Start r d) (LiveRun.Step r d) s → s.live.Pairwise Disjoint := by
  intro hall
  have hrun : (firstPage.bind fun s => MapCall.exec 0 s (.allocate (.classAlloc .user 1))).map
      (fun s => decide (s.live.Pairwise Disjoint)) = some false := by decide +kernel
  obtain ⟨s₂, hrun, hmeet⟩ := Option.map_eq_some_iff.1 hrun
  obtain ⟨s₁, h₁, hclass⟩ := Option.bind_eq_some_iff.1 hrun
  obtain ⟨s₀, h₀, halloc⟩ := Option.bind_eq_some_iff.1 h₁
  obtain ⟨hstart, hs, -⟩ := classedRegion_start h₀
  have hreach : Reach (LiveRun.Start 0 0x1000) (LiveRun.Step 0 0x1000) s₁ :=
    (Reach.init hstart).step _ ⟨s₀.vmm, .refl hs, halloc⟩
  have happart := hall 0 0x1000 s₂ (hreach.step _ ⟨s₁.vmm, .refl (firstPage_spaces h₁), hclass⟩)
  exact absurd happart (of_decide_eq_false hmeet)

end Flopperating
