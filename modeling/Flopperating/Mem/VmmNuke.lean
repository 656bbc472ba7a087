/-
# Tearing a page map down

`vmm_nuke_pagemap` walks over all 1024 entries of the directory, the link to itself
included.  There the directory is the page table, so its page tables are freed once more
as if they were data, and itself twice; the last call frees it a third time
(`passedFrames_perm`).  What a region owns is freed exactly once in no case
(`nuke_frees_again`).
-/

import Flopperating.Mem.VmmRegionRuns

namespace Flopperating

open LinkedList Transition Vmm

variable {σ σ' : Vmm} {d i j n p r t : ℕ} {fs : List ℕ}

/-- `pmm_free_page` of each of `fs`, in this order. -/
def Vmm.freeAll (σ : Vmm) (fs : List ℕ) : Vmm := fs.foldl (fun σ f => σ.freePage f) σ

theorem freeAll_append (fs gs : List ℕ) : σ.freeAll (fs ++ gs) = (σ.freeAll fs).freeAll gs :=
  List.foldl_append ..

/-- Pages that are freed come before those that are free; `NULL` is none. -/
theorem freeAll_eq (h : ∀ f ∈ fs, pageSize ∣ f) :
    σ.freeAll fs = { σ with freePages := (fs.filter (· ≠ 0)).reverse ++ σ.freePages } := by
  induction fs generalizing σ with
  | nil => rfl
  | cons f fs ih =>
    have hf : pageSize ∣ f := h f List.mem_cons_self
    rw [Vmm.freeAll, List.foldl_cons, ← Vmm.freeAll, ih fun g hg => h g (List.mem_cons_of_mem _ hg)]
    rcases eq_or_ne f 0 with rfl | hf0
    · simp [Vmm.freePage]
    · simp [Vmm.freePage, hf0, maskLow_of_dvd hf]

theorem freeAll_same (σ : Vmm) (fs : List ℕ) :
    SameDescriptors σ (σ.freeAll fs) ∧ (σ.freeAll fs).mem = σ.mem := by
  induction fs generalizing σ with
  | nil => exact ⟨.refl σ, rfl⟩
  | cons f fs ih =>
    obtain ⟨hs, hm⟩ := freePage_same f σ
    obtain ⟨hs', hm'⟩ := ih (σ.freePage f)
    exact ⟨hs.trans hs', hm'.trans hm⟩

/-! ### The frames of an address space -/

/-- What the words of the pages of slot `i` link. -/
def slotData (σ : Vmm) (d i : ℕ) : List ℕ :=
  (List.range pageEntries).filterMap fun j => tableLink (σ.word d (i * pageEntries + j))

/-- The page table at slot `i`. -/
def slotTable (σ : Vmm) (d i : ℕ) : List ℕ := (tableLink (σ.mem d i)).toList

/-- The data frames. -/
def dataFrames (σ : Vmm) (d : ℕ) : List ℕ := (List.range recursivePde).flatMap (slotData σ d)

/-- The page tables. -/
def tableFrames (σ : Vmm) (d : ℕ) : List ℕ := (List.range recursivePde).flatMap (slotTable σ d)

/-- The frames of the address space: data, page tables and the directory. -/
def ownedFrames (σ : Vmm) (d : ℕ) : List ℕ := dataFrames σ d ++ tableFrames σ d ++ [d]

/-- The frames that `vmm_nuke_pagemap` passes to `pmm_free_page`. -/
def passedFrames (σ : Vmm) (d : ℕ) : List ℕ :=
  (List.range pageEntries).flatMap (fun i => slotData σ d i ++ slotTable σ d i) ++ [d]

theorem slot_word (hj : j < pageEntries) (ht : tableLink (σ.mem d i) = some t) :
    σ.word d (i * pageEntries + j) = σ.mem t j := by
  have hdiv : (i * pageEntries + j) / pageEntries = i := by
    simp only [pageEntries] at *
    omega
  have hmod : (i * pageEntries + j) % pageEntries = j := by
    simp only [pageEntries] at *
    omega
  rw [word_of_link (by rwa [hdiv]), hmod]

theorem slotData_of_link (ht : tableLink (σ.mem d i) = some t) :
    slotData σ d i = (List.range pageEntries).filterMap fun j => tableLink (σ.mem t j) :=
  List.filterMap_congr fun j hj => by rw [slot_word (List.mem_range.1 hj) ht]

theorem slotData_of_absent (h : present (σ.mem d i) = false) : slotData σ d i = [] := by
  refine List.filterMap_eq_nil_iff.2 fun j hj => ?_
  have hdiv : (i * pageEntries + j) / pageEntries = i := by
    have hlt := List.mem_range.1 hj
    simp only [pageEntries] at *
    omega
  rw [word_of_absent (by rwa [hdiv]), tableLink_zero]

theorem slotFrames_congr (hmem : σ'.mem = σ.mem) :
    (fun k => slotData σ' d k ++ slotTable σ' d k) = fun k => slotData σ d k ++ slotTable σ d k := by
  funext k
  simp only [slotData, slotTable, Vmm.word, hmem]

theorem dvd_passedFrames (hd : pageSize ∣ d) : ∀ f ∈ passedFrames σ d, pageSize ∣ f := by
  intro f hf
  rcases List.mem_append.1 hf with hf | hf
  · obtain ⟨i, -, hf⟩ := List.mem_flatMap.1 hf
    rcases List.mem_append.1 hf with hf | hf
    · obtain ⟨j, -, hlink⟩ := List.mem_filterMap.1 hf
      exact dvd_of_tableLink hlink
    · exact dvd_of_tableLink (Option.mem_toList.1 hf)
  · rw [List.mem_singleton.1 hf]
    exact hd

/-- **What is passed**: data frames once, page tables twice, the directory three times. -/
theorem passedFrames_perm (hself : tableLink (σ.mem d recursivePde) = some d) :
    (passedFrames σ d).Perm (dataFrames σ d ++ tableFrames σ d ++ (tableFrames σ d ++ [d, d, d])) := by
  have hlast : slotTable σ d recursivePde = [d] := by rw [slotTable, hself]; rfl
  have htables : tableFrames σ d = (List.range recursivePde).filterMap fun i => tableLink (σ.mem d i) :=
    (List.filterMap_eq_flatMap_toList _ _).symm
  have hdata : slotData σ d recursivePde = tableFrames σ d ++ [d] := by
    rw [slotData_of_link hself, show pageEntries = recursivePde + 1 from rfl, List.range_succ,
      List.filterMap_append, htables]
    simp [hself]
  rw [passedFrames, show pageEntries = recursivePde + 1 from rfl, List.range_succ, List.flatMap_append,
    List.flatMap_singleton, hlast, hdata]
  have hslots := (List.flatMap_append_perm (List.range recursivePde) (slotData σ d) (slotTable σ d)).symm
  refine ((hslots.append_right _).append_right _).trans (List.Perm.of_eq ?_)
  simp [dataFrames, tableFrames]

/-! ### The walk -/

theorem vmmFreeFramesFrom_eq (ht : σ.recursivePt i = some t) :
    vmmFreeFramesFrom i n j σ =
      some (σ.freeAll ((List.range' j n).filterMap fun k => tableLink (σ.mem t k))) := by
  induction n generalizing j σ with
  | zero => rfl
  | succ n ih =>
    have hstep : vmmFreeFramesFrom i (n + 1) j σ = vmmFreeFramesFrom i n (j + 1)
        (if present (σ.mem t j) then σ.freePage (maskLow (σ.mem t j) pageSize) else σ) := by
      rw [vmmFreeFramesFrom, ht]
      rfl
    rw [hstep, List.range'_succ, List.filterMap_cons]
    split
    · next hpres =>
      obtain ⟨hs, hm⟩ := freePage_same (maskLow (σ.mem t j) pageSize) σ
      have ht' : (σ.freePage (maskLow (σ.mem t j) pageSize)).recursivePt i = some t := by
        rw [Vmm.recursivePt, hm, hs.currentPgDir]
        exact ht
      rw [ih ht', hm, tableLink_of_present hpres]
      rfl
    · next habs =>
      rw [ih ht, tableLink_eq_none.2 (Bool.not_eq_true _ ▸ habs)]

theorem vmmFreeTablesFrom_eq (hl : Loaded σ r) (hd : (σ.region r).pgDir = d) :
    vmmFreeTablesFrom r n i σ =
      some (σ.freeAll ((List.range' i n).flatMap fun k => slotData σ d k ++ slotTable σ d k)) := by
  induction n generalizing i σ with
  | zero => rfl
  | succ n ih =>
    have hpde : σ.pde r i = σ.mem d i := by rw [Vmm.pde, hd]
    -- the frames that one entry gives back, then the rest of the walk
    have hrest : vmmFreeTablesFrom r n (i + 1) (σ.freeAll (slotData σ d i ++ slotTable σ d i)) =
        some (σ.freeAll ((List.range' i (n + 1)).flatMap fun k => slotData σ d k ++ slotTable σ d k)) := by
      obtain ⟨hs, hm⟩ := freeAll_same σ (slotData σ d i ++ slotTable σ d i)
      rw [ih (hl.of_same hs) (by rw [hs.region]; exact hd), slotFrames_congr hm, List.range'_succ,
        List.flatMap_cons,
        freeAll_append (slotData σ d i ++ slotTable σ d i)]
    rw [vmmFreeTablesFrom, hpde]
    split
    · next hpres =>
      have ht := tableLink_of_present hpres
      have hframes : vmmFreePhysicalFrames i σ = some (σ.freeAll (slotData σ d i)) := by
        rw [vmmFreePhysicalFrames, vmmFreeFramesFrom_eq (by rw [recursivePt_loaded hl, hpde, ht]),
          slotData_of_link ht, List.range_eq_range']
      obtain ⟨hs, hm⟩ := freeAll_same σ (slotData σ d i)
      have hpde' : (σ.freeAll (slotData σ d i)).pde r i = σ.mem d i := by
        rw [Vmm.pde, hs.region, hm, hd]
      rw [hframes, ← hrest, freeAll_append, slotTable, ht]
      change vmmFreeTablesFrom r n (i + 1) ((σ.freeAll (slotData σ d i)).freePage
        (maskLow ((σ.freeAll (slotData σ d i)).pde r i) pageSize)) = _
      rw [hpde']
      rfl
    · next habs =>
      have habs : present (σ.mem d i) = false := Bool.not_eq_true _ ▸ habs
      rw [← hrest, slotData_of_absent habs, slotTable, tableLink_eq_none.2 habs]
      rfl

/-- The frames that are passed, on the list of free pages. -/
def passedPages (σ : Vmm) (d : ℕ) : List ℕ := ((passedFrames σ d).filter (· ≠ 0)).reverse

/-- **`vmm_nuke_pagemap`** of the loaded region passes these frames on and unlinks the
region. -/
theorem vmmNukePagemap_loaded (hl : Loaded σ r) (hd : (σ.region r).pgDir = d) (hdvd : pageSize ∣ d)
    {l : List ℕ} (hlist : Chain (fun s => (σ.region s).next) σ.regionList l)
    (hshort : l.length < vmmSteps) :
    ∃ σ', vmmNukePagemap r σ = some σ' ∧ σ'.freePages = passedPages σ d ++ σ.freePages ∧
      ¬ Linked (fun s => (σ'.region s).next) σ'.regionList r := by
  have hwalk : (vmmIterateThroughPageTables r σ).map (fun σ => σ.freePage (σ.region r).pgDir) =
      some (σ.freeAll (passedFrames σ d)) := by
    obtain ⟨hs, -⟩ := freeAll_same σ
      ((List.range pageEntries).flatMap fun k => slotData σ d k ++ slotTable σ d k)
    rw [vmmIterateThroughPageTables, vmmFreeTablesFrom_eq hl hd, ← List.range_eq_range', passedFrames,
      freeAll_append, Option.map_some, hs.region, hd]
    rfl
  obtain ⟨σ₁, hfree, hdir⟩ := Option.map_eq_some_iff.1 hwalk
  obtain ⟨hs, hm⟩ := freeAll_same σ (passedFrames σ d)
  obtain ⟨σ₂, hremove, -, hpages, -, hunlinked⟩ := vmmRegionRemove_spec (σ := σ.freeAll (passedFrames σ d))
    (l := l) (by rw [hs.region, hs.regionList]; exact hlist) hshort r
  refine ⟨σ₂.kfree r, Option.bind_eq_some_iff.2 ⟨σ₁, hfree, ?_⟩, ?_, hunlinked⟩
  · change (vmmRegionRemove r (σ₁.freePage (σ₁.region r).pgDir)).bind _ = _
    rw [hdir, hremove]
    rfl
  · exact hpages.trans (by rw [freeAll_eq (dvd_passedFrames hdvd)]; rfl)

/-! ### Freed exactly once -/

/-- Each data frame, each page table and the directory is passed to `pmm_free_page` once,
nothing else is, and the region is unlinked. -/
def FreedOnce (r : ℕ) (σ : Vmm) : Prop :=
  ∃ σ' passed, vmmNukePagemap r σ = some σ' ∧ σ'.freePages = passed ++ σ.freePages ∧
    passed.Perm (ownedFrames σ (σ.region r).pgDir) ∧ ¬ Linked (fun s => (σ'.region s).next) σ'.regionList r

/-- The data frames have been passed once, the page tables twice and the directory three
times. -/
def FreedAgain (r : ℕ) (σ : Vmm) : Prop :=
  ∃ d σ' passed, (σ.region r).pgDir = d ∧ vmmNukePagemap r σ = some σ' ∧
    σ'.freePages = passed ++ σ.freePages ∧
    passed.Perm ((dataFrames σ d ++ tableFrames σ d ++ (tableFrames σ d ++ [d, d, d])).filter (· ≠ 0)) ∧
    ¬ Linked (fun s => (σ'.region s).next) σ'.regionList r

theorem passedPages_perm (hself : tableLink (σ.mem d recursivePde) = some d) :
    (passedPages σ d).Perm
      ((dataFrames σ d ++ tableFrames σ d ++ (tableFrames σ d ++ [d, d, d])).filter (· ≠ 0)) :=
  (List.reverse_perm _).trans ((passedFrames_perm hself).filter _)

/-- The directory is among what is passed more often than among what is owned. -/
theorem passedPages_not_perm (hself : tableLink (σ.mem d recursivePde) = some d) (hd : 0 < d) :
    ¬ (passedPages σ d).Perm (ownedFrames σ d) := by
  intro hperm
  have howned : (ownedFrames σ d).count d = (dataFrames σ d).count d + (tableFrames σ d).count d + 1 := by
    simp [ownedFrames, List.count_append, Nat.add_assoc]
  have hpassed : (passedPages σ d).count d =
      (dataFrames σ d).count d + (tableFrames σ d).count d + ((tableFrames σ d).count d + 3) := by
    rw [(passedPages_perm hself).count_eq, List.count_filter (by simpa using hd.ne')]
    simp [List.count_append, Nat.add_assoc]
  have hcount := hperm.count_eq d
  omega

theorem RegionHeld.nuked {top : ℕ} (h : RegionHeld top r d σ) :
    ∃ σ', vmmNukePagemap r σ = some σ' ∧ σ'.freePages = passedPages σ d ++ σ.freePages ∧
      ¬ Linked (fun s => (σ'.region s).next) σ'.regionList r := by
  obtain ⟨hl, dirs, hinv⟩ := h
  obtain ⟨l, hlist, hshort, -⟩ := hinv.list
  exact vmmNukePagemap_loaded hl hinv.pgDir (dvd_of_tableLink (hinv.spaces.self d hinv.dir)) hlist hshort

theorem RegionHeld.not_freedOnce {top : ℕ} (h : RegionHeld top r d σ) : ¬ FreedOnce r σ := by
  rintro ⟨σ', passed, hnuke, hpages, hperm, -⟩
  obtain ⟨σ'', hnuke', hpages', -⟩ := h.nuked
  obtain ⟨-, dirs, hinv⟩ := h
  obtain rfl := Option.some.inj (hnuke.symm.trans hnuke')
  have hpassed : passed = passedPages σ d := List.append_cancel_right (hpages.symm.trans hpages')
  rw [hinv.pgDir, hpassed] at hperm
  exact passedPages_not_perm (hinv.spaces.self d hinv.dir) hinv.pos hperm

/-- **`vmm_nuke_pagemap` frees page tables twice and the directory three times**, in every
run. -/
theorem nuke_frees_again {s : Vmm}
    (h : Reach (RegionStart recursiveAddr r) (RegionStep recursiveAddr r) s) :
    ¬ FreedOnce r s ∧ FreedAgain r s := by
  obtain ⟨d, hheld⟩ := RegionHeld.reach le_rfl (by decide) h
  obtain ⟨σ', hnuke, hpages, hunlinked⟩ := hheld.nuked
  refine ⟨hheld.not_freedOnce, ?_⟩
  obtain ⟨-, dirs, hinv⟩ := hheld
  exact ⟨d, σ', _, hinv.pgDir, hnuke, hpages, passedPages_perm (hinv.spaces.self d hinv.dir), hunlinked⟩

/-- A region that has one page. -/
theorem nuke_frees_again_used : ∃ s, usedRegion = some s ∧ ¬ FreedOnce 2 s ∧ FreedAgain 2 s := by
  obtain ⟨s, hs⟩ := exists_usedRegion
  exact ⟨s, hs, nuke_frees_again (usedRegion_reach hs (by decide))⟩

theorem not_nuke_frees_once : ¬ ∀ (r : ℕ) (s : Vmm),
    Reach (RegionStart recursiveAddr r) (RegionStep recursiveAddr r) s → FreedOnce r s := by
  intro hall
  obtain ⟨s, hs⟩ := exists_usedRegion
  have hreach := usedRegion_reach hs (by decide : userSpaceStart + pageSize ≤ recursiveAddr)
  obtain ⟨d, hheld⟩ := RegionHeld.reach le_rfl (by decide) hreach
  exact hheld.not_freedOnce (hall 2 s hreach)

end Flopperating
