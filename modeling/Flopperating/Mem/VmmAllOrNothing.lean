/-
# Allocations that fail

An allocator is to hand out new pages for its whole range or to leave everything as it
was (`AllOrNothing`).  Each of `vmm_alloc`, `vmm_map_anonymous`, `vmm_alloc_stack`,
`vmm_alloc_aligned` and `vmm_class_alloc` does so when enough pages are free for the
range and its page tables, and when none is free at all; in between it loses pages
(`all_or_nothing_iff`).

* The range is unmapped by `vmm_unmap_range` or `vmm_unmap`, and no page that had been
  mapped goes back to the physical allocator.
* Only `vmm_map_anonymous` and `vmm_map_pages` look at the result of `vmm_map`; the
  others lose the page for which there is no table, and hand out a range whose last page
  is not mapped when it is that page.
-/

import Flopperating.Mem.VmmSearch

namespace Flopperating

open DoublyLinked Vmm

variable {σ σ' σ₁ : Vmm} {dirs : ℕ → Prop} {c d i k n p q r t v va pa flags : ℕ} {frames l objects cs : List ℕ}
  {ls : ℕ → List ℕ} {check : Bool} {e : LoopEnd}

/-! ### Calls -/

/-- A call of one of the allocators. -/
inductive AllocCall
  | alloc (pages flags : ℕ)
  | mapAnonymous (pages flags : ℕ)
  | allocStack (pages flags : ℕ)
  | allocAligned (pages alignment flags : ℕ)
  | classAlloc (type : VmClass) (pages : ℕ)

/-- The address, unless it is `0`. -/
def nonNull (va : ℕ) : Option ℕ := if va = 0 then none else some va

theorem nonNull_eq_none : nonNull v = none ↔ v = 0 := by simp [nonNull]

theorem nonNull_eq_some : nonNull v = some va ↔ v = va ∧ va ≠ 0 := by
  rw [nonNull]
  split
  · next hv => exact ⟨fun h => absurd h (by simp), fun h => absurd (h.1.symm.trans hv) h.2⟩
  · next hv => exact ⟨fun h => Option.some.inj h ▸ ⟨rfl, hv⟩, fun h => congrArg some h.1⟩

namespace AllocCall

def run (r : ℕ) : AllocCall → Vmm → Option (ℕ × Vmm)
  | alloc pages flags => vmmAlloc r pages flags
  | mapAnonymous pages flags => vmmMapAnonymous r pages flags
  | allocStack pages flags => vmmAllocStack r pages flags
  | allocAligned pages alignment flags => vmmAllocAligned r pages alignment flags
  | classAlloc type pages => vmmClassAlloc r type pages

def pages : AllocCall → ℕ
  | alloc pages _ => pages
  | mapAnonymous pages _ => pages
  | allocStack pages _ => pages
  | allocAligned pages _ _ => pages
  | classAlloc _ pages => pages

/-- What is returned for failure. -/
def failure : AllocCall → ℕ
  | alloc _ _ => minusOne
  | _ => 0

/-- The address at which the call allocates: `none` when the search for it does not
return, `some none` when there is none. -/
def target (r : ℕ) (σ : Vmm) : AllocCall → Option (Option ℕ)
  | alloc pages _ => some (if pages = 0 then none else some (vmmBump r σ))
  | mapAnonymous pages _ => (vmmFindFreeRange r pages σ).map nonNull
  | allocStack pages _ =>
    if pages = 0 then some none
    else (vmmFindFreeRange r (u32 (pages + 2)) σ).map fun va =>
      (nonNull va).map fun va => u32 (va + pageSize)
  | allocAligned pages alignment _ =>
    (vmmFindFreeRangeAligned r pages (if alignment < pageSize then pageSize else alignment) σ).map
      nonNull
  | classAlloc type pages => do
    match ← vmmClassGet r type σ with
    | none => return none
    | some c => (vmmFindFit c (u32 (pages * pageSize)) σ).map nonNull

/-- The result of `vmm_map` is looked at. -/
def checked : AllocCall → Bool
  | mapAnonymous _ _ => true
  | classAlloc _ _ => true
  | _ => false

/-- The call allocates a descriptor. -/
def descriptor : AllocCall → Bool
  | classAlloc _ _ => true
  | _ => false

end AllocCall

/-- The pages from `va` on resolve to pages that were free and are not any more. -/
def HandedOut (r n va : ℕ) (σ σ' : Vmm) : Prop :=
  ∃ frames : List ℕ, frames.length = n ∧ frames.Nodup ∧
    (∀ f ∈ frames, f ∈ σ.freePages ∧ f ∉ σ'.freePages) ∧
    ∀ i f, frames[i]? = some f →
      vmmResolve r (u32 (va + i * pageSize)) σ' = some (f ||| va % pageSize)

/-- No page of the range is mapped. -/
def RangeUnmapped (r n va : ℕ) (σ : Vmm) : Prop :=
  ∀ i < n, vmmIsMapped r (u32 (va + i * pageSize)) σ = some false

/-- The pages that were free are free or page tables of the region, and what the
allocators go by is as before. -/
structure TakenBack (r : ℕ) (σ σ' : Vmm) : Prop where
  frames : ∀ f ∈ σ.freePages, f ∈ σ'.freePages ∨ ∃ i < recursivePde, tableLink (σ'.pde r i) = some f
  nextFreeVa : (σ'.region r).nextFreeVa = (σ.region r).nextFreeVa
  allocClass : σ'.allocClass = σ.allocClass
  area : ∀ p, p ∉ σ.objects → σ'.area p = σ.area p

/-- The call hands out its whole range, or fails and takes everything back. -/
def AllOrNothing (call : AllocCall) (r : ℕ) (σ : Vmm) : Prop :=
  ∃ v σ', call.run r σ = some (v, σ') ∧
    ((v ≠ call.failure ∧ HandedOut r call.pages v σ σ') ∨
      (v = call.failure ∧ (∀ va, call.target r σ = some (some va) → RangeUnmapped r call.pages va σ') ∧
        TakenBack r σ σ'))

/-! ### What the loop over new pages leaves behind -/

/-- A page that was free is neither free now nor used for an address space. -/
def Lost (σ σ' : Vmm) (dirs : ℕ → Prop) : Prop :=
  ∃ f ∈ σ.freePages, f ∉ σ'.freePages ∧ σ'.Plain dirs f

theorem Lost.not_takenBack (h : Lost σ σ' dirs) (hd : dirs (σ'.region r).pgDir) :
    ¬ TakenBack r σ σ' := fun htaken => by
  obtain ⟨f, hf, hfree, hplain⟩ := h
  rcases htaken.frames f hf with hmem | ⟨i, hi, hlink⟩
  · exact hfree hmem
  · exact hplain.2 _ i hd hi hlink

/-- The pages that the loop has mapped are handed out; what follows it may change
descriptors. -/
theorem FreshRun.handedOut (h : Spaces σ dirs) (hf : FreshRun σ σ₁ dirs d (va / pageSize) flags frames)
    (hflags : flags < pageSize) (hle : va + frames.length * pageSize ≤ recursiveAddr)
    (hmem : σ'.mem = σ₁.mem) (hfree : σ'.freePages = σ₁.freePages) (hl : Loaded σ' r)
    (hd : (σ'.region r).pgDir = d) : HandedOut r frames.length va σ σ' := by
  refine ⟨frames, rfl, hf.nodup, fun f hmem => ?_, fun i f hi => ?_⟩
  · obtain ⟨h₁, h₂, -⟩ := hf.taken f hmem
    exact ⟨h₁, hfree ▸ h₂⟩
  · have hlen : i < frames.length := (List.getElem?_eq_some_iff.1 hi).1
    have hlt : va + i * pageSize < 2 ^ 32 := by
      simp only [pageSize, recursiveAddr] at *
      omega
    have hword : σ'.word d (va / pageSize + i) = pageEntry f flags := by
      rw [← hf.maps i f hi, Vmm.word, hmem, Vmm.word]
    obtain ⟨hf₁, -, -⟩ := hf.taken f (List.mem_of_getElem? hi)
    rw [u32_of_lt hlt, vmmResolve_loaded hl hlt, hd, page_div, hword, if_pos (present_pageEntry _ _),
      maskLow_pageEntry hflags, maskLow_of_dvd (h.free_page f hf₁).2.1, Nat.add_mul_mod_self_right]

section Loop

variable (h : Spaces σ dirs) (hd : dirs (σ.region r).pgDir) (hl : Loaded σ r)

include h hd hl in
/-- The loop takes nothing from a page that is not free. -/
theorem vmmMapFresh_keeps (hle : va + (i + n) * pageSize ≤ recursiveAddr) (hpa : pa ∉ σ.freePages)
    (hplain : σ.Plain dirs pa) (hrun : vmmMapFresh check r va flags n i σ = some (e, σ')) :
    pa ∉ σ'.freePages ∧ σ'.Plain dirs pa ∧ ∀ k t, e = .noTable k t → maskLow t pageSize ≠ pa := by
  obtain ⟨e', σ'', frames, hrun', hf, hend⟩ := vmmMapFresh_loaded check h hd hl hle flags
  obtain ⟨rfl, rfl⟩ := Prod.mk.inj (Option.some.inj (hrun.symm.trans hrun'))
  refine ⟨fun hmem => hpa (hf.free.subset hmem), hf.plain pa hpa hplain, ?_⟩
  rintro k t rfl
  rcases hend with ⟨he, -⟩ | ⟨-, -, -, he | ⟨pa', hno, ⟨-, he⟩ | ⟨-, -, he⟩ | ⟨-, -, he⟩⟩⟩
  case inr.inr.inl =>
    obtain ⟨-, rfl⟩ := LoopEnd.noTable.inj he
    rw [maskLow_of_dvd (h.free_page t hno.taken).2.1]
    exact ne_of_mem_of_not_mem hno.taken hpa
  all_goals exact absurd he (by simp)

variable (hle : va + n * pageSize ≤ recursiveAddr)

include h hd hl hle in
/-- Enough pages are free. -/
theorem vmmMapFresh_enough
    (hneed : pagesNeeded (σ.hasTable (σ.region r).pgDir) (va / pageSize) n ≤ σ.freePages.length)
    (check : Bool) (flags : ℕ) :
    ∃ σ' frames, vmmMapFresh check r va flags n 0 σ = some (.done, σ') ∧
      FreshRun σ σ' dirs (σ.region r).pgDir (va / pageSize) flags frames ∧ frames.length = n := by
  obtain ⟨e, σ', frames, hrun, hf, hend⟩ := vmmMapFresh_loaded check h hd hl
    (by rwa [Nat.zero_add] : va + (0 + n) * pageSize ≤ recursiveAddr) flags
  rw [Nat.add_zero] at hf hend
  rcases hend with ⟨rfl, hlen, -⟩ | ⟨-, -, hshort, -⟩
  · exact ⟨σ', frames, hrun, hf, hlen⟩
  · exact absurd hneed (Nat.not_le.2 hshort)

include h hd hl hle in
/-- Some pages are free, but not enough: the first that is taken is lost, unless there is
no other and the result of `vmm_map` is looked at. -/
theorem vmmMapFresh_short (check : Bool)
    (hneed : σ.freePages.length < pagesNeeded (σ.hasTable (σ.region r).pgDir) (va / pageSize) n)
    (hne : σ.freePages ≠ []) (hcheck : ¬ (check = true ∧ σ.freePages.length = 1 ∧
      σ.hasTable (σ.region r).pgDir (va / pageSize / pageEntries) = false)) (flags : ℕ) :
    ∃ e σ' frames f, vmmMapFresh check r va flags n 0 σ = some (e, σ') ∧
      FreshRun σ σ' dirs (σ.region r).pgDir (va / pageSize) flags frames ∧
      LoopEnds check σ σ' dirs (σ.region r).pgDir (va / pageSize) 0 n frames e ∧
      f ∈ σ.freePages ∧ f ∉ σ'.freePages ∧ σ'.Plain dirs f ∧
      ∀ k t, e = .noTable k t → maskLow t pageSize ≠ f := by
  have hle₀ : va + (0 + n) * pageSize ≤ recursiveAddr := by rwa [Nat.zero_add]
  obtain ⟨e, σ', frames, hrun, hf, hend⟩ := vmmMapFresh_loaded check h hd hl hle₀ flags
  rw [Nat.add_zero] at hf hend
  cases n with
  | zero => exact absurd hneed (Nat.not_lt_zero _)
  | succ n =>
    rcases vmmMapFresh_step check h hd hl (fun _ => addr_lt hle₀) flags with
      ⟨hnil, -⟩ | ⟨pa, free, hfree, ⟨rfl, hnone, hstep⟩ | ⟨σ₁, hm, hstep⟩⟩
    · exact absurd hnil hne
    · rw [Nat.add_zero] at hnone
      obtain ⟨h₁, hpa, -, hplain⟩ := h.take hfree
      cases check with
      | true => exact absurd ⟨rfl, by rw [hfree]; rfl, hnone⟩ hcheck
      | false =>
        have hkeep := vmmMapFresh_keeps h₁ hd hl (range_page hle₀).2.2 hpa hplain
          (hstep.symm.trans hrun)
        exact ⟨e, σ', frames, pa, hrun, hf, hend, hfree ▸ List.mem_cons_self, hkeep⟩
    · obtain ⟨-, hpa, -, hplain⟩ := h.take hfree
      have hreg : (σ₁.region r) = σ.region r := congrFun hm.same.region r
      have hkeep := vmmMapFresh_keeps hm.spaces (hreg ▸ hd) (hl.of_same hm.same.of_free)
        (range_page hle₀).2.2 (fun hmem => hpa (hm.free_sublist.subset hmem)) (hm.plain pa hpa hplain)
        (hstep.symm.trans hrun)
      exact ⟨e, σ', frames, pa, hrun, hf, hend, hfree ▸ List.mem_cons_self, hkeep⟩

include h hd hl hle in
/-- No page is free, or the only one is given back for want of a page table: the loop
has changed nothing but that. -/
theorem vmmMapFresh_idle
    (hneed : σ.freePages.length < pagesNeeded (σ.hasTable (σ.region r).pgDir) (va / pageSize) n)
    (check : Bool) (flags : ℕ) :
    (σ.freePages = [] → vmmMapFresh check r va flags n 0 σ = some (.noPage 0, σ)) ∧
      (check = true → σ.freePages.length = 1 →
        σ.hasTable (σ.region r).pgDir (va / pageSize / pageEntries) = false →
        ∃ pa, σ.freePages = [pa] ∧
          vmmMapFresh check r va flags n 0 σ = some (.noTable 0 pa, { σ with freePages := [] })) := by
  have hle₀ : va + (0 + n) * pageSize ≤ recursiveAddr := by rwa [Nat.zero_add]
  cases n with
  | zero => exact absurd hneed (Nat.not_lt_zero _)
  | succ n =>
    rcases vmmMapFresh_step check h hd hl (fun _ => addr_lt hle₀) flags with
      ⟨hnil, hrun⟩ | ⟨pa, free, hfree, ⟨rfl, hnone, hstep⟩ | ⟨σ₁, hm, -⟩⟩
    · exact ⟨fun _ => hrun, fun _ hone => absurd hone (by simp [hnil])⟩
    · refine ⟨fun hnil => absurd (hfree.symm.trans hnil) (by simp), fun hcheck _ _ => ⟨pa, hfree, ?_⟩⟩
      rw [hstep, hcheck]
      rfl
    · refine ⟨fun hnil => absurd (hfree.symm.trans hnil) (by simp), fun _ hone habsent => ?_⟩
      rw [hfree] at hone
      obtain rfl : free = [] := List.length_eq_zero_iff.1 (Nat.succ.inj hone)
      rw [Nat.add_zero] at hm
      rcases hm.cases with ⟨hold, -⟩ | ⟨-, t, hnil, -⟩
      · exact absurd (habsent.symm.trans hold) (by simp)
      · exact absurd hnil (by simp)

end Loop

/-! ### The calls that do not look at the result of `vmm_map` -/

/-- What `vmm_alloc`, `vmm_alloc_stack` and `vmm_alloc_aligned` do once they have an
address; `finish` moves `next_free_va`. -/
def mapUnchecked (r va flags n fail : ℕ) (finish : Vmm → Vmm) (σ : Vmm) : Option (ℕ × Vmm) := do
  match ← vmmMapFresh false r va flags n 0 σ with
  | (.noPage i, σ) => do
    let (_, σ) ← vmmUnmapRange r va i σ
    return (fail, σ)
  | (_, σ) => return (va, finish σ)

/-- The last page of the range has no page table. -/
theorem NoTable.not_handedOut (h : Spaces σ dirs) (hno : NoTable σ σ₁ dirs d (va / pageSize + k) pa frames)
    (hle : va + (k + 1) * pageSize ≤ recursiveAddr) (hmem : σ'.mem = σ₁.mem) (hl : Loaded σ' r)
    (hd : (σ'.region r).pgDir = d) : ¬ HandedOut r (k + 1) va σ σ' := by
  rintro ⟨fs, hlen, -, htaken, hresolve⟩
  have hk : k < fs.length := by omega
  have hlt : va + k * pageSize < 2 ^ 32 := by
    simp only [pageSize, recursiveAddr] at *
    omega
  have hword : σ'.word d (va / pageSize + k) = 0 := by
    rw [Vmm.word, hmem]
    exact word_of_absent hno.absent
  have hlast := hresolve k fs[k] (List.getElem?_eq_getElem hk)
  rw [u32_of_lt hlt, vmmResolve_loaded hl hlt, hd, page_div, hword, if_neg (by simp)] at hlast
  have hzero := (Nat.or_eq_zero_iff.1 (Option.some.inj hlast).symm).1
  exact absurd hzero (h.free_page _ (htaken _ (List.getElem_mem hk)).1).1.ne'

section Unchecked

variable (h : Spaces σ dirs) (hd : dirs (σ.region r).pgDir) (hl : Loaded σ r)
  (hle : va + n * pageSize ≤ recursiveAddr) (hflags : flags < pageSize) {finish : Vmm → Vmm} {fail : ℕ}
  (hfinish : ∀ σ, (finish σ).mem = σ.mem ∧ (finish σ).freePages = σ.freePages ∧
    (finish σ).currentPgDir = σ.currentPgDir ∧ ((finish σ).region r).pgDir = (σ.region r).pgDir)

include hl hfinish in
theorem finish_loaded (hs : SameDescriptors σ σ₁) :
    Loaded (finish σ₁) r ∧ ((finish σ₁).region r).pgDir = (σ.region r).pgDir := by
  obtain ⟨-, -, hcur, hdir⟩ := hfinish σ₁
  rw [Loaded, hcur, hdir, hs.region, hs.currentPgDir]
  exact ⟨hl, rfl⟩

include h hd hl hle hflags hfinish in
theorem mapUnchecked_enough
    (hneed : pagesNeeded (σ.hasTable (σ.region r).pgDir) (va / pageSize) n ≤ σ.freePages.length) :
    ∃ σ', mapUnchecked r va flags n fail finish σ = some (va, σ') ∧ HandedOut r n va σ σ' := by
  obtain ⟨σ₁, frames, hrun, hf, rfl⟩ := vmmMapFresh_enough h hd hl hle hneed false flags
  obtain ⟨hl', hd'⟩ := finish_loaded hl hfinish hf.same
  exact ⟨finish σ₁, Option.bind_eq_some_iff.2 ⟨_, hrun, rfl⟩,
    hf.handedOut h hflags hle (hfinish σ₁).1 (hfinish σ₁).2.1 hl' hd'⟩

include h hd hl hle in
theorem mapUnchecked_idle
    (hneed : σ.freePages.length < pagesNeeded (σ.hasTable (σ.region r).pgDir) (va / pageSize) n)
    (hnil : σ.freePages = []) : mapUnchecked r va flags n fail finish σ = some (fail, σ) :=
  Option.bind_eq_some_iff.2 ⟨_, (vmmMapFresh_idle h hd hl hle hneed false flags).1 hnil, rfl⟩

include h hd hl hle hfinish in
/-- A page is lost, or the last page of the range that is handed out is not mapped. -/
theorem mapUnchecked_short
    (hneed : σ.freePages.length < pagesNeeded (σ.hasTable (σ.region r).pgDir) (va / pageSize) n)
    (hne : σ.freePages ≠ []) (hrun : mapUnchecked r va flags n fail finish σ = some (v, σ')) :
    (v = fail ∧ Lost σ σ' dirs ∧ σ'.region = σ.region) ∨ (v = va ∧ ¬ HandedOut r n va σ σ') := by
  obtain ⟨e, σ₁, frames, f, hloop, hf, hend, hmem, hfree, hplain, -⟩ :=
    vmmMapFresh_short h hd hl hle false hneed hne (by simp) flags
  have hundo : ∀ i, i ≤ n → e = .noPage i →
      v = fail ∧ Lost σ σ' dirs ∧ σ'.region = σ.region := by
    rintro i hi rfl
    obtain ⟨status, σ₂, k, hunmap, -, -, -, -, hfree₂, hc⟩ := vmmUnmapRangeFrom_loaded
      hf.spaces.toDirectories (by rwa [hf.same.region] : dirs (σ₁.region r).pgDir)
      (hl.of_same hf.same) (i := 0) (n := i)
      (le_trans (Nat.add_le_add_left (Nat.mul_le_mul_right _ (by omega)) va) hle)
    have hres : mapUnchecked r va flags n fail finish σ = some (fail, σ₂) :=
      Option.bind_eq_some_iff.2 ⟨_, hloop, Option.bind_eq_some_iff.2 ⟨_, hunmap, rfl⟩⟩
    obtain ⟨rfl, rfl⟩ := Prod.mk.inj (Option.some.inj (hrun.symm.trans hres))
    exact ⟨rfl, ⟨f, hmem, hfree₂ ▸ hfree, hc.plain hplain⟩, (hf.same.trans hc.same).region⟩
  rcases hend with ⟨-, -, hcount⟩ | ⟨hlt, -, -, he | ⟨pa, hno, ⟨hfalse, -⟩ | ⟨-, hlt', he⟩ | ⟨-, hlen, rfl⟩⟩⟩
  · omega
  · exact .inl (hundo _ (by omega) he)
  · exact absurd hfalse (by simp)
  · exact .inl (hundo _ (by omega) he)
  · have hres : mapUnchecked r va flags n fail finish σ = some (va, finish σ₁) :=
      Option.bind_eq_some_iff.2 ⟨_, hloop, rfl⟩
    obtain ⟨rfl, rfl⟩ := Prod.mk.inj (Option.some.inj (hrun.symm.trans hres))
    obtain ⟨hl', hd'⟩ := finish_loaded hl hfinish hf.same
    subst hlen
    exact .inr ⟨rfl, hno.not_handedOut h hle (hfinish σ₁).1 hl' hd'⟩

end Unchecked

/-! ### The calls that do -/

/-- The only free page is given back. -/
theorem freePage_last (h : Spaces σ dirs) (hfree : σ.freePages = [pa]) :
    ({ σ with freePages := [] } : Vmm).freePage pa = σ := by
  obtain ⟨hpos, hdvd, -⟩ := h.free_page pa (hfree ▸ List.mem_cons_self)
  rw [Vmm.freePage, if_neg hpos.ne', maskLow_of_dvd hdvd, ← hfree]

theorem not_mem_freePage (hfree : p ∉ σ.freePages) (hne : maskLow pa pageSize ≠ p) :
    p ∉ (σ.freePage pa).freePages := by
  rw [Vmm.freePage]
  split
  · exact hfree
  · exact fun hmem => (List.mem_cons.1 hmem).elim (fun he => hne he.symm) hfree

theorem freePage_same (pa : ℕ) (σ : Vmm) :
    SameDescriptors σ (σ.freePage pa) ∧ (σ.freePage pa).mem = σ.mem := by
  rw [Vmm.freePage]
  split <;> exact ⟨⟨rfl, rfl, rfl, rfl, rfl, rfl, rfl⟩, rfl⟩

section Checked

variable (h : Spaces σ dirs) (hd : dirs (σ.region r).pgDir) (hl : Loaded σ r)
  (hle : va + n * pageSize ≤ recursiveAddr)
  (hneed : σ.freePages.length < pagesNeeded (σ.hasTable (σ.region r).pgDir) (va / pageSize) n)

include h hd hl hle hneed in
/-- A page is lost, at whatever page of the range the loop gives up. -/
theorem vmmMapFresh_checked (hne : σ.freePages ≠ []) (hmore : ¬ (σ.freePages.length = 1 ∧
      σ.hasTable (σ.region r).pgDir (va / pageSize / pageEntries) = false)) (flags : ℕ) :
    ∃ e σ₁ f, vmmMapFresh true r va flags n 0 σ = some (e, σ₁) ∧ Spaces σ₁ dirs ∧
      SameDescriptors σ σ₁ ∧ f ∈ σ.freePages ∧ f ∉ σ₁.freePages ∧ σ₁.Plain dirs f ∧
      ((∃ i ≤ n, e = .noPage i) ∨ ∃ i < n, ∃ pa, maskLow pa pageSize ≠ f ∧ e = .noTable i pa) := by
  obtain ⟨e, σ₁, frames, f, hloop, hf, hend, hmem, hfree, hplain, hother⟩ :=
    vmmMapFresh_short h hd hl hle true hneed hne (fun hc => hmore hc.2) flags
  refine ⟨e, σ₁, f, hloop, hf.spaces, hf.same, hmem, hfree, hplain, ?_⟩
  rcases hend with ⟨-, -, hcount⟩ | ⟨hlt, -, -, he | ⟨pa, -, ⟨-, he⟩ | ⟨hfalse, -⟩ | ⟨hfalse, -⟩⟩⟩
  · omega
  · exact .inl ⟨_, by omega, he⟩
  · exact .inr ⟨_, by omega, pa, hother _ _ he, he⟩
  · exact absurd hfalse (by simp)
  · exact absurd hfalse (by simp)

include h hd hl hle hneed in
/-- `vmm_map_pages` gives everything back when there is nothing to lose. -/
theorem vmmMapPages_idle (hidle : σ.freePages = [] ∨ σ.freePages.length = 1 ∧
      σ.hasTable (σ.region r).pgDir (va / pageSize / pageEntries) = false) :
    vmmMapPages r c va n σ = some (-1, σ) := by
  obtain ⟨hnil, hone⟩ := vmmMapFresh_idle h hd hl hle hneed true (σ.allocClass c).config.flags
  rcases hidle with hempty | ⟨hlen, habsent⟩
  · exact Option.bind_eq_some_iff.2 ⟨_, hnil hempty, rfl⟩
  · obtain ⟨pa, hfree, hloop⟩ := hone rfl hlen habsent
    refine Option.bind_eq_some_iff.2 ⟨_, hloop, Option.bind_eq_some_iff.2 ⟨(0, σ), ?_, rfl⟩⟩
    rw [freePage_last h hfree]
    rfl

include h hd hl hle hneed in
/-- Otherwise `vmm_map_pages` loses a page. -/
theorem vmmMapPages_short (hne : σ.freePages ≠ []) (hmore : ¬ (σ.freePages.length = 1 ∧
      σ.hasTable (σ.region r).pgDir (va / pageSize / pageEntries) = false)) :
    ∃ σ', vmmMapPages r c va n σ = some (-1, σ') ∧ SameDescriptors σ σ' ∧ Lost σ σ' dirs := by
  obtain ⟨e, σ₁, f, hloop, hspaces, hsame, hmem, hfree, hplain, hend⟩ :=
    vmmMapFresh_checked h hd hl hle hneed hne hmore (σ.allocClass c).config.flags
  have hundo : ∀ σ₂ i, i ≤ n → Directories σ₂ dirs → SameDescriptors σ σ₂ → f ∉ σ₂.freePages →
      σ₂.Plain dirs f → ∃ status σ', vmmUnmapRange r va i σ₂ = some (status, σ') ∧
        SameDescriptors σ σ' ∧ Lost σ σ' dirs := fun σ₂ i hi hdirs hs hf₂ hplain₂ => by
    obtain ⟨status, σ', k, hunmap, -, -, -, -, hfree', hc⟩ := vmmUnmapRangeFrom_loaded
      hdirs (by rwa [hs.region] : dirs (σ₂.region r).pgDir) (hl.of_same hs) (i := 0) (n := i)
      (le_trans (Nat.add_le_add_left (Nat.mul_le_mul_right _ (by omega)) va) hle)
    exact ⟨status, σ', hunmap, hs.trans hc.same, f, hmem, hfree' ▸ hf₂, hc.plain hplain₂⟩
  rcases hend with ⟨i, hi, rfl⟩ | ⟨i, hi, pa, hpa, rfl⟩
  · obtain ⟨status, σ', hunmap, hres⟩ := hundo σ₁ i hi hspaces.toDirectories hsame hfree hplain
    exact ⟨σ', Option.bind_eq_some_iff.2 ⟨_, hloop, Option.bind_eq_some_iff.2 ⟨_, hunmap, rfl⟩⟩, hres⟩
  · obtain ⟨hs, hm⟩ := freePage_same pa σ₁
    obtain ⟨status, σ', hunmap, hres⟩ := hundo (σ₁.freePage pa) i (by omega)
      (hspaces.toDirectories.congr fun _ _ => by rw [hm]) (hsame.trans hs) (not_mem_freePage hfree hpa)
      (hplain.congr fun _ _ => by rw [hm])
    exact ⟨σ', Option.bind_eq_some_iff.2 ⟨_, hloop, Option.bind_eq_some_iff.2 ⟨_, hunmap, rfl⟩⟩, hres⟩

end Checked

section Anonymous

variable (h : Spaces σ dirs) (hd : dirs (σ.region r).pgDir) (hl : Loaded σ r)
  (hfind : vmmFindFreeRange r n σ = some va) (hva : va ≠ 0) (hle : va + n * pageSize ≤ recursiveAddr)

include h hd hl hfind hva hle in
theorem vmmMapAnonymous_enough (hflags : flags < pageSize)
    (hneed : pagesNeeded (σ.hasTable (σ.region r).pgDir) (va / pageSize) n ≤ σ.freePages.length) :
    ∃ σ', vmmMapAnonymous r n flags σ = some (va, σ') ∧ HandedOut r n va σ σ' := by
  obtain ⟨σ', frames, hrun, hf, rfl⟩ := vmmMapFresh_enough h hd hl hle hneed true flags
  exact ⟨σ', Option.bind_eq_some_iff.2 ⟨va, hfind, (if_neg hva).trans
      (Option.bind_eq_some_iff.2 ⟨_, hrun, rfl⟩)⟩,
    hf.handedOut h hflags hle rfl rfl (hl.of_same hf.same) (by rw [hf.same.region])⟩

variable (hneed : σ.freePages.length < pagesNeeded (σ.hasTable (σ.region r).pgDir) (va / pageSize) n)

include h hd hl hfind hva hle hneed in
/-- `vmm_map_anonymous` gives everything back when there is nothing to lose. -/
theorem vmmMapAnonymous_idle (hidle : σ.freePages = [] ∨ σ.freePages.length = 1 ∧
      σ.hasTable (σ.region r).pgDir (va / pageSize / pageEntries) = false) :
    vmmMapAnonymous r n flags σ = some (0, σ) := by
  obtain ⟨hnil, hone⟩ := vmmMapFresh_idle h hd hl hle hneed true flags
  rcases hidle with hempty | ⟨hlen, habsent⟩
  · exact Option.bind_eq_some_iff.2 ⟨va, hfind, (if_neg hva).trans
      (Option.bind_eq_some_iff.2 ⟨_, hnil hempty, rfl⟩)⟩
  · obtain ⟨pa, hfree, hloop⟩ := hone rfl hlen habsent
    have hn : n ≠ 0 := fun hn => absurd hneed (by simp [hn, pagesNeeded])
    have hle₁ : va + (0 + (n - 1 + 1)) * pageSize ≤ recursiveAddr := by
      rwa [Nat.zero_add, Nat.sub_add_cancel (Nat.pos_of_ne_zero hn)]
    obtain ⟨hlt, hpage, -⟩ := range_page hle₁
    have hunmap : vmmUnmapEach r va 1 0 { σ with freePages := [] } = some { σ with freePages := [] } := by
      have hdirs : Directories { σ with freePages := [] } dirs := h.toDirectories.congr fun _ _ => rfl
      rcases vmmUnmap_loaded hdirs hd hl hlt with ⟨-, hrun⟩ | ⟨hsome, -⟩
      · exact Option.bind_eq_some_iff.2 ⟨_, hrun, rfl⟩
      · rw [hpage] at hsome
        exact absurd (habsent.symm.trans hsome) (by simp)
    refine Option.bind_eq_some_iff.2 ⟨va, hfind, (if_neg hva).trans
      (Option.bind_eq_some_iff.2 ⟨_, hloop, Option.bind_eq_some_iff.2 ⟨_, hunmap, ?_⟩⟩)⟩
    rw [freePage_last h hfree]
    rfl

include h hd hl hfind hva hle hneed in
/-- Otherwise `vmm_map_anonymous` loses a page. -/
theorem vmmMapAnonymous_short (hne : σ.freePages ≠ []) (hmore : ¬ (σ.freePages.length = 1 ∧
      σ.hasTable (σ.region r).pgDir (va / pageSize / pageEntries) = false)) (flags : ℕ) :
    ∃ σ', vmmMapAnonymous r n flags σ = some (0, σ') ∧ SameDescriptors σ σ' ∧ Lost σ σ' dirs := by
  obtain ⟨e, σ₁, f, hloop, hspaces, hsame, hmem, hfree, hplain, hend⟩ :=
    vmmMapFresh_checked h hd hl hle hneed hne hmore flags
  have hundo : ∀ i, i ≤ n → ∃ σ', vmmUnmapEach r va i 0 σ₁ = some σ' ∧
      SameDescriptors σ σ' ∧ f ∉ σ'.freePages ∧ σ'.Plain dirs f := fun i hi => by
    obtain ⟨σ', hunmap, hfree', hc⟩ := vmmUnmapEach_loaded (n := i) (i := 0) hspaces.toDirectories
      (by rwa [hsame.region] : dirs (σ₁.region r).pgDir) (hl.of_same hsame)
      (le_trans (Nat.add_le_add_left (Nat.mul_le_mul_right _ (by omega)) va) hle)
    exact ⟨σ', hunmap, hsame.trans hc.same, hfree' ▸ hfree, hc.plain hplain⟩
  rcases hend with ⟨i, hi, rfl⟩ | ⟨i, hi, pa, hpa, rfl⟩
  · obtain ⟨σ', hunmap, hs, hf, hp⟩ := hundo i hi
    exact ⟨σ', Option.bind_eq_some_iff.2 ⟨va, hfind, (if_neg hva).trans (Option.bind_eq_some_iff.2
      ⟨_, hloop, Option.bind_eq_some_iff.2 ⟨_, hunmap, rfl⟩⟩)⟩, hs, f, hmem, hf, hp⟩
  · obtain ⟨σ', hunmap, hs, hf, hp⟩ := hundo (i + 1) hi
    obtain ⟨hs', hm⟩ := freePage_same pa σ'
    exact ⟨σ'.freePage pa, Option.bind_eq_some_iff.2 ⟨va, hfind, (if_neg hva).trans
      (Option.bind_eq_some_iff.2 ⟨_, hloop, Option.bind_eq_some_iff.2 ⟨_, hunmap, rfl⟩⟩)⟩,
      hs.trans hs', f, hmem, not_mem_freePage hf hpa, hp.congr fun _ _ => by rw [hm]⟩

end Anonymous

/-! ### Class allocations -/

/-- Nothing is changed but descriptors of classes and areas. -/
structure SamePages (σ σ' : Vmm) : Prop where
  mem : σ'.mem = σ.mem
  freePages : σ'.freePages = σ.freePages
  currentPgDir : σ'.currentPgDir = σ.currentPgDir
  region : σ'.region = σ.region

theorem SamePages.loaded (h : SamePages σ σ') (hl : Loaded σ r) : Loaded σ' r := by
  rw [Loaded, h.currentPgDir, h.region]
  exact hl

theorem SamePages.spaces (h : SamePages σ σ') (hs : Spaces σ dirs) : Spaces σ' dirs :=
  hs.congr (fun _ _ => by rw [h.mem]) h.freePages

theorem SamePages.hasTable (h : SamePages σ σ') : σ'.hasTable d = σ.hasTable d :=
  funext fun i => by rw [Vmm.hasTable, h.mem, Vmm.hasTable]

/-- Everything is as it was, but for descriptors that are not in use. -/
structure Restored (σ σ' : Vmm) : Prop extends SamePages σ σ' where
  allocClass : σ'.allocClass = σ.allocClass
  area : ∀ p, p ∉ σ.objects → σ'.area p = σ.area p

theorem Restored.refl (σ : Vmm) : Restored σ σ := ⟨⟨rfl, rfl, rfl, rfl⟩, rfl, fun _ _ => rfl⟩

theorem Restored.takenBack (h : Restored σ σ') : TakenBack r σ σ' :=
  ⟨fun f hf => .inl (by rwa [h.freePages]), by rw [h.region], h.allocClass, h.area⟩

theorem Restored.rangeUnmapped (h : Restored σ σ') : RangeUnmapped r n va σ' ↔ RangeUnmapped r n va σ := by
  have hword : ∀ va, vmmTableWord r va σ' = vmmTableWord r va σ := fun va => by
    rw [vmmTableWord, Vmm.pde, Vmm.recursivePt, h.mem, h.currentPgDir, h.region]
    rfl
  simp only [RangeUnmapped, vmmIsMapped, hword]

/-- The front does not leave the window. -/
theorem ClassState.front_le_stop (h : ClassState σ c l) :
    classFront σ c ≤ (σ.allocClass c).config.stop := by
  have hstop : ∀ config ∈ classConfigs, config.align = pageSize ∨
      config.align = 0x10000 ∧ 0x10000 ∣ config.stop ∧ config.stop ≤ 2 ^ 31 := by
    simp only [classConfigs, List.mem_cons, List.not_mem_nil, or_false]
    rintro config (rfl | rfl | rfl | rfl) <;> decide
  obtain ⟨-, -, -, hle, -⟩ := h.bounds
  rw [classFront]
  rcases hstop _ h.config with hal | ⟨hal, hdvd, hle'⟩
  · rwa [hal, vmmAlignAddress, if_pos le_rfl]
  · have hlt : (σ.allocClass c).hintPtr + (0x10000 - 1) < 2 ^ 32 := by omega
    rw [hal, vmmAlignAddress, if_neg (by decide), u32_of_lt hlt, and_highBits hlt]
    omega

theorem flags_lt_of_mem {config : ClassConfig} (h : config ∈ classConfigs) : config.flags < pageSize := by
  simp only [classConfigs, List.mem_cons, List.not_mem_nil, or_false] at h
  rcases h with rfl | rfl | rfl | rfl <;> decide

section ClassAlloc

variable (h : Spaces σ dirs) (hd : dirs (σ.region r).pgDir) (hl : Loaded σ r)
  (hclasses : Classes σ r cs ls) (hfresh : Fresh σ cs ls) {type : VmClass}
  (hget : vmmClassGet r type σ = some (some c)) (hc : c ∈ cs)
  (hfind : vmmFindFit c (u32 (n * pageSize)) σ = some (classFront σ c)) (hfront : classFront σ c ≠ 0)

include hget hfind hfront in
/-- Without a descriptor nothing happens. -/
theorem vmmClassAlloc_noObject (ho : σ.objects = []) : vmmClassAlloc r type n σ = some (0, σ) := by
  have hinsert : vmmInsertArea c (classFront σ c) (u32 (n * pageSize)) σ = some (-1, σ) := by
    rw [vmmInsertArea, Vmm.kmalloc, ho]
  exact Option.bind_eq_some_iff.2 ⟨_, hget, Option.bind_eq_some_iff.2 ⟨_, hfind, (if_neg hfront).trans
    (Option.bind_eq_some_iff.2 ⟨_, hinsert, rfl⟩)⟩⟩

include hclasses hfresh hget hc hfind hfront in
/-- The new area is inserted, then `vmm_map_pages` runs. -/
theorem vmmClassAlloc_insert (ho : σ.objects = p :: objects) : ∃ σ₁,
    SamePages σ σ₁ ∧ Appended σ σ₁ c p (u32 (n * pageSize)) (ls c) objects ∧
    (∀ σ₂, vmmMapPages r c (classFront σ c) n σ₁ = some (0, σ₂) → vmmClassAlloc r type n σ =
      some (classFront σ c, σ₂.setHintPtr c (u32 (classFront σ c + u32 (n * pageSize))))) ∧
    ∀ σ₂ σ₃, vmmMapPages r c (classFront σ c) n σ₁ = some (-1, σ₂) →
      vmmRemoveArea c (classFront σ c) σ₂ = some σ₃ → vmmClassAlloc r type n σ = some (0, σ₃) := by
  have hp : p ∈ σ.objects := ho ▸ List.mem_cons_self
  obtain ⟨σ₁, hinsert, hlinks, hr, hobj⟩ :=
    vmmInsertArea_last (hclasses.state c hc) ho (hfresh.not_area p hp c hc) (u32 (n * pageSize))
  refine ⟨σ₁, ⟨hr.mem, hr.freePages, hr.currentPgDir, hr.region⟩,
    hr.appended hlinks hobj (hfresh.not_area p hp c hc), fun σ₂ hmap => ?_, fun σ₂ σ₃ hmap hremove => ?_⟩
  · exact Option.bind_eq_some_iff.2 ⟨_, hget, Option.bind_eq_some_iff.2 ⟨_, hfind,
      (if_neg hfront).trans (Option.bind_eq_some_iff.2 ⟨_, hinsert,
        Option.bind_eq_some_iff.2 ⟨_, hmap, rfl⟩⟩)⟩⟩
  · exact Option.bind_eq_some_iff.2 ⟨_, hget, Option.bind_eq_some_iff.2 ⟨_, hfind,
      (if_neg hfront).trans (Option.bind_eq_some_iff.2 ⟨_, hinsert,
        Option.bind_eq_some_iff.2 ⟨_, hmap, Option.bind_eq_some_iff.2 ⟨_, hremove, rfl⟩⟩⟩)⟩⟩

variable (hle : classFront σ c + n * pageSize ≤ recursiveAddr)

include h hd hl hclasses hfresh hget hc hfind hfront hle in
theorem vmmClassAlloc_enough (ho : σ.objects = p :: objects)
    (hneed : pagesNeeded (σ.hasTable (σ.region r).pgDir) (classFront σ c / pageSize) n ≤
      σ.freePages.length) :
    ∃ σ', vmmClassAlloc r type n σ = some (classFront σ c, σ') ∧
      HandedOut r n (classFront σ c) σ σ' := by
  obtain ⟨σ₁, hs, ha, hdone, -⟩ := vmmClassAlloc_insert hclasses hfresh hget hc hfind hfront ho
  have hflags : (σ₁.allocClass c).config.flags < pageSize := by
    rw [ha.config]
    exact flags_lt_of_mem (hclasses.state c hc).config
  rw [← hs.hasTable, ← hs.freePages, ← hs.region] at hneed
  obtain ⟨σ₂, frames, hrun, hf, rfl⟩ := vmmMapFresh_enough (hs.spaces h) (hs.region ▸ hd) (hs.loaded hl)
    hle hneed true (σ₁.allocClass c).config.flags
  refine ⟨_, hdone σ₂ (Option.bind_eq_some_iff.2 ⟨_, hrun, rfl⟩), ?_⟩
  have hl₂ : Loaded σ₂ r := (hs.loaded hl).of_same hf.same
  have hout : HandedOut r frames.length (classFront σ c) σ₁
      (σ₂.setHintPtr c (u32 (classFront σ c + u32 (frames.length * pageSize)))) :=
    hf.handedOut (hs.spaces h) hflags hle rfl rfl hl₂ (congrArg (fun f => (f r).pgDir) hf.same.region)
  rwa [HandedOut, hs.freePages] at hout

include h hd hl hclasses hfresh hget hc hfind hfront hle in
theorem vmmClassAlloc_idle (ho : σ.objects = p :: objects)
    (hneed : σ.freePages.length <
      pagesNeeded (σ.hasTable (σ.region r).pgDir) (classFront σ c / pageSize) n)
    (hidle : σ.freePages = [] ∨ σ.freePages.length = 1 ∧
      σ.hasTable (σ.region r).pgDir (classFront σ c / pageSize / pageEntries) = false) :
    ∃ σ', vmmClassAlloc r type n σ = some (0, σ') ∧ Restored σ σ' := by
  obtain ⟨σ₁, hs, ha, -, hfail⟩ := vmmClassAlloc_insert hclasses hfresh hget hc hfind hfront ho
  rw [← hs.hasTable, ← hs.freePages, ← hs.region] at hneed hidle
  have hmap := vmmMapPages_idle (c := c) (hs.spaces h) (hs.region ▸ hd) (hs.loaded hl) hle hneed hidle
  obtain ⟨σ₂, hremove, hr, -, hclass, harea⟩ := ha.restored hclasses hc
  refine ⟨σ₂, hfail _ _ hmap hremove, ⟨hr.mem.trans hs.mem, hr.freePages.trans hs.freePages,
    hr.currentPgDir.trans hs.currentPgDir, hr.region.trans hs.region⟩, hclass, fun q hq => harea q ?_⟩
  exact fun he => hq (he ▸ ho ▸ List.mem_cons_self)

include h hd hl hclasses hfresh hget hc hfind hfront hle in
theorem vmmClassAlloc_short (ho : σ.objects = p :: objects)
    (hneed : σ.freePages.length <
      pagesNeeded (σ.hasTable (σ.region r).pgDir) (classFront σ c / pageSize) n)
    (hne : σ.freePages ≠ []) (hmore : ¬ (σ.freePages.length = 1 ∧
      σ.hasTable (σ.region r).pgDir (classFront σ c / pageSize / pageEntries) = false)) :
    ∃ σ', vmmClassAlloc r type n σ = some (0, σ') ∧ σ'.region = σ.region ∧ Lost σ σ' dirs := by
  obtain ⟨σ₁, hs, ha, -, hfail⟩ := vmmClassAlloc_insert hclasses hfresh hget hc hfind hfront ho
  rw [← hs.hasTable, ← hs.region] at hneed hmore
  rw [← hs.freePages] at hneed hmore hne
  obtain ⟨σ₂, hmap, hsame, f, hmem, hfree, hplain⟩ :=
    vmmMapPages_short (c := c) (hs.spaces h) (hs.region ▸ hd) (hs.loaded hl) hle hneed hne hmore
  obtain ⟨σ₃, hremove, hr, -, -, -⟩ := (ha.same hsame).restored hclasses hc
  refine ⟨σ₃, hfail _ _ hmap hremove, hr.region.trans (hsame.region.trans hs.region), f, ?_, ?_, ?_⟩
  · rwa [← hs.freePages]
  · rwa [hr.freePages]
  · exact hplain.congr fun _ _ => by rw [hr.mem]

end ClassAlloc

/-! ### When the allocators are all or nothing -/

namespace AllocCall

/-- The flags fit a word.  The lists of a class are in order, and the request neither
wraps around nor is refused by the validator. -/
def Ready (r : ℕ) (σ : Vmm) : AllocCall → Prop
  | alloc _ flags => flags < pageSize
  | mapAnonymous _ flags => flags < pageSize
  | allocStack _ flags => flags < pageSize
  | allocAligned _ _ flags => flags < pageSize
  | classAlloc type pages => (∃ cs ls, Classes σ r cs ls ∧ Fresh σ cs ls) ∧ pages * pageSize < 2 ^ 32 ∧
    ∀ c, vmmClassGet r type σ = some (some c) → classFront σ c + pages * pageSize < 2 ^ 32 ∧
      (classFront σ c + pages * pageSize ≤ (σ.allocClass c).config.stop →
        (σ.allocClass c).config.valid (classFront σ c) (pages * pageSize) = true)

variable (call : AllocCall)

/-- Enough pages are free for the range at `va` and the page tables that are missing. -/
def Suffices (r va : ℕ) (σ : Vmm) : Prop :=
  pagesNeeded (σ.hasTable (σ.region r).pgDir) (va / pageSize) call.pages ≤ σ.freePages.length ∧
    (call.descriptor = true → σ.objects ≠ [])

/-- No page is free, or only one, which is given back for want of a page table; or there
is no descriptor. -/
def NothingToLose (r va : ℕ) (σ : Vmm) : Prop :=
  σ.freePages = [] ∨ (call.checked = true ∧ σ.freePages.length = 1 ∧
    σ.hasTable (σ.region r).pgDir (va / pageSize / pageEntries) = false) ∨
    (call.descriptor = true ∧ σ.objects = [])

end AllocCall

/-- What a call can do with the address it has. -/
structure Outcomes (call : AllocCall) (r va : ℕ) (σ : Vmm) (dirs : ℕ → Prop) : Prop where
  enough : call.Suffices r va σ →
    ∃ σ', call.run r σ = some (va, σ') ∧ HandedOut r call.pages va σ σ'
  idle : ¬ call.Suffices r va σ → call.NothingToLose r va σ →
    ∃ σ', call.run r σ = some (call.failure, σ') ∧ Restored σ σ'
  short : ¬ call.Suffices r va σ → ¬ call.NothingToLose r va σ → ∀ v σ', call.run r σ = some (v, σ') →
    (v = call.failure ∧ Lost σ σ' dirs ∧ σ'.region = σ.region) ∨
      (v = va ∧ ¬ HandedOut r call.pages va σ σ')

theorem Outcomes.allOrNothing_iff {call : AllocCall} (ho : Outcomes call r va σ dirs)
    (htarget : call.target r σ = some (some va)) (hva : va ≠ call.failure)
    (hd : dirs (σ.region r).pgDir) : AllOrNothing call r σ ↔
      call.Suffices r va σ ∨ (RangeUnmapped r call.pages va σ ∧ call.NothingToLose r va σ) := by
  by_cases hE : call.Suffices r va σ
  · obtain ⟨σ', hrun, hout⟩ := ho.enough hE
    exact iff_of_true ⟨va, σ', hrun, .inl ⟨hva, hout⟩⟩ (.inl hE)
  · by_cases hI : call.NothingToLose r va σ
    · obtain ⟨σ', hrun, hres⟩ := ho.idle hE hI
      constructor
      · rintro ⟨v, σ'', hrun', ⟨hv, -⟩ | ⟨-, hunmapped, -⟩⟩
        all_goals obtain ⟨rfl, rfl⟩ := Prod.mk.inj (Option.some.inj (hrun.symm.trans hrun'))
        · exact absurd rfl hv
        · exact .inr ⟨hres.rangeUnmapped.1 (hunmapped va htarget), hI⟩
      · rintro (h | ⟨hunmapped, -⟩)
        · exact absurd h hE
        · refine ⟨_, σ', hrun, .inr ⟨rfl, fun va' hva' => ?_, hres.takenBack⟩⟩
          obtain rfl : va = va' := Option.some.inj (Option.some.inj (htarget.symm.trans hva'))
          exact hres.rangeUnmapped.2 hunmapped
    · refine iff_of_false ?_ fun h => h.elim hE fun h => hI h.2
      rintro ⟨v, σ', hrun, hcase⟩
      rcases ho.short hE hI v σ' hrun, hcase with
        ⟨⟨rfl, hlost, hreg⟩ | ⟨rfl, hnot⟩, ⟨hv, hout⟩ | ⟨hv, -, htaken⟩⟩
      · exact hv rfl
      · exact hlost.not_takenBack (by rwa [hreg]) htaken
      · exact hnot hout
      · exact hva hv

/-- The calls that do not look at the result of `vmm_map`. -/
theorem outcomes_unchecked {call : AllocCall} (finish : Vmm → Vmm) (h : Spaces σ dirs)
    (hd : dirs (σ.region r).pgDir) (hl : Loaded σ r) (hle : va + call.pages * pageSize ≤ recursiveAddr)
    (hflags : flags < pageSize)
    (hfinish : ∀ σ, (finish σ).mem = σ.mem ∧ (finish σ).freePages = σ.freePages ∧
      (finish σ).currentPgDir = σ.currentPgDir ∧ ((finish σ).region r).pgDir = (σ.region r).pgDir)
    (hchecked : call.checked = false) (hdescriptor : call.descriptor = false)
    (hrun : call.run r σ = mapUnchecked r va flags call.pages call.failure finish σ) :
    Outcomes call r va σ dirs := by
  have hneed : ¬ call.Suffices r va σ → σ.freePages.length <
      pagesNeeded (σ.hasTable (σ.region r).pgDir) (va / pageSize) call.pages := fun hE =>
    Nat.lt_of_not_le fun hle => hE ⟨hle, by simp [hdescriptor]⟩
  constructor
  · intro hE
    rw [hrun]
    exact mapUnchecked_enough h hd hl hle hflags hfinish hE.1
  · rintro hE (hnil | ⟨hc, -⟩ | ⟨hc, -⟩)
    · rw [hrun]
      exact ⟨σ, mapUnchecked_idle h hd hl hle (hneed hE) hnil, .refl σ⟩
    · exact absurd hc (by simp [hchecked])
    · exact absurd hc (by simp [hdescriptor])
  · intro hE hI v σ' hcall
    rw [hrun] at hcall
    exact mapUnchecked_short h hd hl hle hfinish (hneed hE) (fun hnil => hI (.inl hnil)) hcall

theorem outcomes_mapAnonymous (h : Spaces σ dirs) (hd : dirs (σ.region r).pgDir) (hl : Loaded σ r)
    (hfind : vmmFindFreeRange r n σ = some va) (hva : va ≠ 0)
    (hle : va + n * pageSize ≤ recursiveAddr) (hflags : flags < pageSize) :
    Outcomes (.mapAnonymous n flags) r va σ dirs := by
  have hneed : ¬ (AllocCall.mapAnonymous n flags).Suffices r va σ → σ.freePages.length <
      pagesNeeded (σ.hasTable (σ.region r).pgDir) (va / pageSize) n := fun hE =>
    Nat.lt_of_not_le fun hle => hE ⟨hle, by simp [AllocCall.descriptor]⟩
  constructor
  · exact fun hE => vmmMapAnonymous_enough h hd hl hfind hva hle hflags hE.1
  · rintro hE (hnil | ⟨-, hone⟩ | ⟨hc, -⟩)
    · exact ⟨σ, vmmMapAnonymous_idle h hd hl hfind hva hle (hneed hE) (.inl hnil), .refl σ⟩
    · exact ⟨σ, vmmMapAnonymous_idle h hd hl hfind hva hle (hneed hE) (.inr hone), .refl σ⟩
    · exact absurd hc (by simp [AllocCall.descriptor])
  · intro hE hI v σ' hcall
    obtain ⟨σ'', hrun, hs, hlost⟩ := vmmMapAnonymous_short h hd hl hfind hva hle (hneed hE)
      (fun hnil => hI (.inl hnil)) (fun hone => hI (.inr (.inl ⟨rfl, hone⟩))) flags
    obtain ⟨rfl, rfl⟩ := Prod.mk.inj (Option.some.inj (hrun.symm.trans hcall))
    exact .inl ⟨rfl, hlost, hs.region⟩

theorem outcomes_classAlloc (h : Spaces σ dirs) (hd : dirs (σ.region r).pgDir) (hl : Loaded σ r)
    (hclasses : Classes σ r cs ls) (hfresh : Fresh σ cs ls) {type : VmClass}
    (hget : vmmClassGet r type σ = some (some c)) (hc : c ∈ cs)
    (hfind : vmmFindFit c (u32 (n * pageSize)) σ = some (classFront σ c)) (hfront : classFront σ c ≠ 0)
    (hle : classFront σ c + n * pageSize ≤ recursiveAddr) :
    Outcomes (.classAlloc type n) r (classFront σ c) σ dirs := by
  rcases ho : σ.objects with - | ⟨p, objects⟩
  · have hrun := vmmClassAlloc_noObject hget hfind hfront ho
    constructor
    · exact fun hE => absurd ho (hE.2 rfl)
    · exact fun _ _ => ⟨σ, hrun, .refl σ⟩
    · exact fun _ hI => absurd (.inr (.inr ⟨rfl, ho⟩)) hI
  · have hneed : ¬ (AllocCall.classAlloc type n).Suffices r (classFront σ c) σ → σ.freePages.length <
        pagesNeeded (σ.hasTable (σ.region r).pgDir) (classFront σ c / pageSize) n := fun hE =>
      Nat.lt_of_not_le fun hle => hE ⟨hle, fun _ => by simp [ho]⟩
    constructor
    · exact fun hE =>
        vmmClassAlloc_enough h hd hl hclasses hfresh hget hc hfind hfront hle ho hE.1
    · rintro hE (hnil | ⟨-, hone⟩ | ⟨-, hempty⟩)
      · exact vmmClassAlloc_idle h hd hl hclasses hfresh hget hc hfind hfront hle ho (hneed hE) (.inl hnil)
      · exact vmmClassAlloc_idle h hd hl hclasses hfresh hget hc hfind hfront hle ho (hneed hE) (.inr hone)
      · exact absurd (ho.symm.trans hempty) (by simp)
    · intro hE hI v σ' hcall
      obtain ⟨σ'', hrun, hreg, hlost⟩ := vmmClassAlloc_short h hd hl hclasses hfresh hget hc hfind hfront
        hle ho (hneed hE) (fun hnil => hI (.inl hnil)) fun hone => hI (.inr (.inl ⟨rfl, hone⟩))
      obtain ⟨rfl, rfl⟩ := Prod.mk.inj (Option.some.inj (hrun.symm.trans hcall))
      exact .inl ⟨rfl, hlost, hreg⟩

/-- The search for an address does not end. -/
theorem AllocCall.run_of_target {call : AllocCall} (htarget : call.target r σ = none) :
    call.run r σ = none := by
  cases call with
  | alloc pages flags => exact absurd htarget (by simp [target])
  | mapAnonymous pages flags =>
    have hfind : vmmFindFreeRange r pages σ = none := Option.map_eq_none_iff.1 htarget
    exact Option.bind_eq_none_iff.2 fun va hva => absurd (hfind.symm.trans hva) (by simp)
  | allocStack pages flags =>
    rw [target] at htarget
    rw [run, vmmAllocStack]
    split at htarget
    · exact absurd htarget (by simp)
    · next hpages =>
      have hfind := Option.map_eq_none_iff.1 htarget
      exact (if_neg hpages).trans
        (Option.bind_eq_none_iff.2 fun va hva => absurd (hfind.symm.trans hva) (by simp))
  | allocAligned pages alignment flags =>
    have hfind := Option.map_eq_none_iff.1 htarget
    exact Option.bind_eq_none_iff.2 fun va hva => absurd (hfind.symm.trans hva) (by simp)
  | classAlloc type pages =>
    refine Option.bind_eq_none_iff.2 fun o ho => ?_
    have hfind := Option.bind_eq_none_iff.1 htarget o ho
    cases o with
    | none => exact absurd hfind (by simp)
    | some c =>
      exact Option.bind_eq_none_iff.2 fun va hva =>
        absurd ((Option.map_eq_none_iff.1 hfind).symm.trans hva) (by simp)

/-- The call fails before it has an address. -/
theorem AllocCall.run_of_refused {call : AllocCall} (htarget : call.target r σ = some none) :
    call.run r σ = some (call.failure, σ) := by
  cases call with
  | alloc pages flags =>
    have hpages : pages = 0 := by simpa [target] using htarget
    exact if_pos hpages
  | mapAnonymous pages flags =>
    obtain ⟨va, hfind, hva⟩ := Option.map_eq_some_iff.1 htarget
    exact Option.bind_eq_some_iff.2 ⟨va, hfind, if_pos (nonNull_eq_none.1 hva)⟩
  | allocStack pages flags =>
    rw [target] at htarget
    rw [run, vmmAllocStack]
    split at htarget
    · next hpages => exact if_pos hpages
    · next hpages =>
      obtain ⟨va, hfind, hva⟩ := Option.map_eq_some_iff.1 htarget
      exact (if_neg hpages).trans (Option.bind_eq_some_iff.2
        ⟨va, hfind, if_pos (nonNull_eq_none.1 (Option.map_eq_none_iff.1 hva))⟩)
  | allocAligned pages alignment flags =>
    obtain ⟨va, hfind, hva⟩ := Option.map_eq_some_iff.1 htarget
    exact Option.bind_eq_some_iff.2 ⟨va, hfind, if_pos (nonNull_eq_none.1 hva)⟩
  | classAlloc type pages =>
    obtain ⟨o, ho, hfind⟩ := Option.bind_eq_some_iff.1 htarget
    refine Option.bind_eq_some_iff.2 ⟨o, ho, ?_⟩
    cases o with
    | none => rfl
    | some c =>
      obtain ⟨va, hfind, hva⟩ := Option.map_eq_some_iff.1 hfind
      exact Option.bind_eq_some_iff.2 ⟨va, hfind, if_pos (nonNull_eq_none.1 hva)⟩

theorem finish_setNextFreeVa (va : ℕ) (σ : Vmm) : (σ.setNextFreeVa r va).mem = σ.mem ∧
    (σ.setNextFreeVa r va).freePages = σ.freePages ∧
    (σ.setNextFreeVa r va).currentPgDir = σ.currentPgDir ∧
    ((σ.setNextFreeVa r va).region r).pgDir = (σ.region r).pgDir :=
  ⟨rfl, rfl, rfl, pgDir_setNextFreeVa⟩

/-- A class allocation takes place at the front of its class. -/
theorem AllocCall.classAlloc_target (hclasses : Classes σ r cs ls) {type : VmClass} {pages : ℕ}
    (hwrap : pages * pageSize < 2 ^ 32)
    (hfits : ∀ c, vmmClassGet r type σ = some (some c) → classFront σ c + pages * pageSize < 2 ^ 32 ∧
      (classFront σ c + pages * pageSize ≤ (σ.allocClass c).config.stop →
        (σ.allocClass c).config.valid (classFront σ c) (pages * pageSize) = true))
    (htarget : (classAlloc type pages).target r σ = some (some va)) :
    ∃ c ∈ cs, vmmClassGet r type σ = some (some c) ∧ classFront σ c = va ∧
      vmmFindFit c (u32 (pages * pageSize)) σ = some (classFront σ c) ∧ classFront σ c ≠ 0 ∧
      classFront σ c + pages * pageSize ≤ (σ.allocClass c).config.stop := by
  obtain ⟨o, hget, hfind⟩ := Option.bind_eq_some_iff.1 htarget
  cases o with
  | none => exact absurd hfind (by simp)
  | some c =>
    obtain ⟨hc, -⟩ := hclasses.of_get hget
    obtain ⟨va', hfound, hva⟩ := Option.map_eq_some_iff.1 hfind
    obtain ⟨rfl, hva⟩ := nonNull_eq_some.1 hva
    obtain ⟨hlt, hvalid⟩ := hfits c hget
    have hstate := hclasses.state c hc
    have hsize := hfound
    rw [u32_of_lt hwrap] at hsize
    rcases Nat.lt_or_ge (σ.allocClass c).config.stop (classFront σ c + pages * pageSize) with hfull | hfit
    · have hpos : 0 < pages * pageSize := by
        have hfront := hstate.front_le_stop
        omega
      exact absurd (Option.some.inj (hsize.symm.trans (vmmFindFit_full hstate hpos hlt hfull))) hva
    · obtain rfl := Option.some.inj (hsize.symm.trans (vmmFindFit_fits hstate hlt hfit (hvalid hfit)))
      exact ⟨c, hc, hget, rfl, hfound, hva, hfit⟩

/-- `next_free_va` is moved up to `top`. -/
def Vmm.raiseNext (r top : ℕ) (σ : Vmm) : Vmm :=
  if (σ.region r).nextFreeVa < top then σ.setNextFreeVa r top else σ

theorem finish_raiseNext (top : ℕ) (σ : Vmm) : (σ.raiseNext r top).mem = σ.mem ∧
    (σ.raiseNext r top).freePages = σ.freePages ∧
    (σ.raiseNext r top).currentPgDir = σ.currentPgDir ∧
    ((σ.raiseNext r top).region r).pgDir = (σ.region r).pgDir := by
  rw [Vmm.raiseNext]
  split
  · exact finish_setNextFreeVa _ σ
  · exact ⟨rfl, rfl, rfl, rfl⟩

theorem AllocCall.alloc_target (htarget : (alloc n flags).target r σ = some (some va)) :
    n ≠ 0 ∧ vmmBump r σ = va ∧ (alloc n flags).run r σ =
      mapUnchecked r va flags n minusOne (·.setNextFreeVa r (u32 (va + n * pageSize))) σ := by
  have hpages : n ≠ 0 := fun h0 => by simp [target, h0] at htarget
  obtain rfl : vmmBump r σ = va := by simpa [target, hpages] using htarget
  exact ⟨hpages, rfl, if_neg hpages⟩

theorem AllocCall.allocStack_target (htarget : (allocStack n flags).target r σ = some (some va)) :
    ∃ base, vmmFindFreeRange r (u32 (n + 2)) σ = some base ∧ base ≠ 0 ∧ u32 (base + pageSize) = va ∧
      (allocStack n flags).run r σ =
        mapUnchecked r va flags n 0 (raiseNext r (u32 (base + u32 (n + 2) * pageSize))) σ := by
  have hpages : n ≠ 0 := fun h0 => by simp [target, h0] at htarget
  rw [target, if_neg hpages] at htarget
  obtain ⟨base, hfind, hva⟩ := Option.map_eq_some_iff.1 htarget
  obtain ⟨base', hbase, rfl⟩ := Option.map_eq_some_iff.1 hva
  obtain ⟨rfl, hbase⟩ := nonNull_eq_some.1 hbase
  exact ⟨base, hfind, hbase, rfl,
    (if_neg hpages).trans ((congrArg (Option.bind · _) hfind).trans (if_neg hbase))⟩

theorem AllocCall.allocAligned_target {alignment : ℕ}
    (htarget : (allocAligned n alignment flags).target r σ = some (some va)) :
    vmmFindFreeRangeAligned r n (if alignment < pageSize then pageSize else alignment) σ = some va ∧
      va ≠ 0 ∧ (allocAligned n alignment flags).run r σ =
        mapUnchecked r va flags n 0 (raiseNext r (u32 (va + n * pageSize))) σ := by
  obtain ⟨va', hfind, hva⟩ := Option.map_eq_some_iff.1 htarget
  obtain ⟨rfl, hva⟩ := nonNull_eq_some.1 hva
  exact ⟨hfind, hva, (congrArg (Option.bind · _) hfind).trans (if_neg hva)⟩

/-- Every call does one of three things with its address. -/
theorem AllocCall.outcomes {call : AllocCall} (h : Spaces σ dirs) (hd : dirs (σ.region r).pgDir)
    (hl : Loaded σ r) (hready : call.Ready r σ) (hle : va + call.pages * pageSize ≤ recursiveAddr)
    (htarget : call.target r σ = some (some va)) :
    va ≠ call.failure ∧ Outcomes call r va σ dirs := by
  cases call with
  | alloc pages flags =>
    obtain ⟨hpages, -, hrun⟩ := alloc_target htarget
    refine ⟨?_, outcomes_unchecked _ h hd hl hle hready (finish_setNextFreeVa _) rfl rfl hrun⟩
    exact ne_of_lt (lt_of_le_of_lt ((Nat.le_add_right _ _).trans hle)
      (by decide : recursiveAddr < minusOne))
  | mapAnonymous pages flags =>
    obtain ⟨va', hfind, hva⟩ := Option.map_eq_some_iff.1 htarget
    obtain ⟨rfl, hva⟩ := nonNull_eq_some.1 hva
    exact ⟨hva, outcomes_mapAnonymous h hd hl hfind hva hle hready⟩
  | allocStack pages flags =>
    obtain ⟨base, hfind, hbase, rfl, hrun⟩ := allocStack_target htarget
    obtain ⟨-, hrange⟩ := vmmFindFreeRange_spec h.toDirectories hd hl hfind hbase
    refine ⟨?_, outcomes_unchecked _ h hd hl hle hready (finish_raiseNext _) rfl rfl hrun⟩
    rw [u32_of_lt hrange.first_lt]
    exact Nat.ne_of_gt (Nat.add_pos_right _ (by decide))
  | allocAligned pages alignment flags =>
    obtain ⟨-, hva, hrun⟩ := allocAligned_target htarget
    exact ⟨hva, outcomes_unchecked _ h hd hl hle hready (finish_raiseNext _) rfl rfl hrun⟩
  | classAlloc type pages =>
    obtain ⟨⟨cs, ls, hclasses, hfresh⟩, hwrap, hfits⟩ := hready
    obtain ⟨c, hc, hget, rfl, hfind, hva, -⟩ := classAlloc_target hclasses hwrap hfits htarget
    exact ⟨hva, outcomes_classAlloc h hd hl hclasses hfresh hget hc hfind hva hle⟩

/-- The condition of `all_or_nothing_iff`: the search for an address ends, and when it
has one, enough pages are free or there is nothing to lose. -/
def AllocCall.Safe (call : AllocCall) (r : ℕ) (σ : Vmm) : Prop :=
  ∃ target, call.target r σ = some target ∧ ∀ va, target = some va →
    call.Suffices r va σ ∨ (RangeUnmapped r call.pages va σ ∧ call.NothingToLose r va σ)

theorem AllocCall.safe_iff {call : AllocCall} (htarget : call.target r σ = some (some va)) :
    call.Safe r σ ↔
      call.Suffices r va σ ∨ (RangeUnmapped r call.pages va σ ∧ call.NothingToLose r va σ) := by
  constructor
  · rintro ⟨target, htarget', h⟩
    exact h va (Option.some.inj (htarget'.symm.trans htarget))
  · exact fun h => ⟨some va, htarget, fun va' he => Option.some.inj he ▸ h⟩

/-- **Allocations are all or nothing** exactly when the pages that are free suffice or
there is nothing to lose. -/
theorem all_or_nothing_iff (call : AllocCall) (h : Spaces σ dirs) (hd : dirs (σ.region r).pgDir)
    (hl : Loaded σ r) (hready : call.Ready r σ)
    (hbelow : ∀ va, call.target r σ = some (some va) → va + call.pages * pageSize ≤ recursiveAddr) :
    AllOrNothing call r σ ↔ call.Safe r σ := by
  cases htarget : call.target r σ with
  | none =>
    refine iff_of_false ?_ ?_
    · rintro ⟨v, σ', hrun, -⟩
      exact absurd ((AllocCall.run_of_target htarget).symm.trans hrun) (by simp)
    · rintro ⟨target, htarget', -⟩
      exact absurd (htarget.symm.trans htarget') (by simp)
  | some target =>
    cases target with
    | none =>
      refine iff_of_true ?_ ⟨none, htarget, fun va hva => absurd hva (by simp)⟩
      exact ⟨_, σ, AllocCall.run_of_refused htarget, .inr ⟨rfl, fun va hva =>
        absurd (htarget.symm.trans hva) (by simp), (Restored.refl σ).takenBack⟩⟩
    | some va =>
      obtain ⟨hva, hout⟩ := AllocCall.outcomes h hd hl hready (hbelow va htarget) htarget
      rw [AllocCall.safe_iff htarget]
      exact hout.allOrNothing_iff htarget hva hd

/-- Region `1`, which is current and has no page tables, over the free pages `free`. -/
def loneRegion (free : List ℕ) : Vmm :=
  vmmSwitch 1 (vmmRegionNew (clearVmm (0x1000 :: free) [1])).2

theorem spaces_loneRegion (free : List ℕ) (hfree : FreeOk (0x1000 :: free)) :
    Spaces (loneRegion free) (· = 0x1000) ∧ ((loneRegion free).region 1).pgDir = 0x1000 := by
  obtain ⟨-, hc⟩ := vmmRegionNew_created (σ := clearVmm (0x1000 :: free) [1]) hfree rfl rfl
  exact ⟨(hc.spaces_single hfree).switch, hc.pgDir⟩

/-- Two pages and a page table. -/
theorem all_or_nothing_iff_three :
    AllOrNothing (.alloc 2 pageRw) 1 (loneRegion [0x2000, 0x3000, 0x4000]) := by
  obtain ⟨h, hd⟩ := spaces_loneRegion [0x2000, 0x3000, 0x4000] (by decide)
  refine (all_or_nothing_iff (.alloc 2 pageRw) h hd rfl (by decide : pageRw < pageSize) ?_).2
    ⟨some userSpaceStart, rfl, fun va hva => .inl ⟨?_, by simp [AllocCall.descriptor]⟩⟩
  · intro va hva
    obtain rfl : userSpaceStart = va := Option.some.inj (Option.some.inj hva)
    decide
  · obtain rfl : userSpaceStart = va := Option.some.inj hva
    decide

/-- Two pages, and no page for the page table: the page that was to be mapped first is
lost. -/
theorem not_all_or_nothing : ¬ ∀ (σ : Vmm) (dirs : ℕ → Prop) (r : ℕ) (call : AllocCall), Spaces σ dirs →
    dirs (σ.region r).pgDir → Loaded σ r → call.Ready r σ → AllOrNothing call r σ := by
  intro hall
  obtain ⟨h, hd⟩ := spaces_loneRegion [0x2000, 0x3000] (by decide)
  have hready : (AllocCall.alloc 2 pageRw).Ready 1 (loneRegion [0x2000, 0x3000]) :=
    (by decide : pageRw < pageSize)
  have htarget : (AllocCall.alloc 2 pageRw).target 1 (loneRegion [0x2000, 0x3000]) =
      some (some userSpaceStart) := rfl
  obtain ⟨hva, hout⟩ := AllocCall.outcomes h hd rfl hready
    (by decide : userSpaceStart + 2 * pageSize ≤ recursiveAddr) htarget
  rcases (hout.allOrNothing_iff htarget hva hd).1 (hall _ _ 1 _ h hd rfl hready) with ⟨hE, -⟩ | ⟨-, hI⟩
  · exact absurd hE (by decide)
  · rcases hI with hnil | ⟨hc, -⟩ | ⟨hc, -⟩
    · exact absurd hnil (by decide)
    · exact absurd hc (by decide)
    · exact absurd hc (by decide)

end Flopperating
