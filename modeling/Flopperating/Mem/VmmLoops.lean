/-
# What the loops over pages do

The loops of `vmm_unmap_range`, `vmm_free` and the allocators, on the loaded
region, for ranges below the recursive window.

* `Cleared`: the pages of a range are unmapped, nothing else has changed.
* `FreshRun`: the pages of a range are mapped to pages that were free, and
  nothing else has changed but for page tables that were missing.

`pagesNeeded` is what a range takes from the physical allocator: its pages and the
tables that are missing for them.  The loop of the allocators maps the whole
range exactly when that many pages are free (`vmmMapFresh_loaded`).
-/

import Flopperating.Mem.VmmRegions

namespace Flopperating

open TwoLevel

variable {σ σ' σ₁ : Vmm} {dirs : ℕ → Prop} {d i k n p q r t va pa w flags : ℕ} {frames : List ℕ}

/-- The free pages are no descriptors. -/
theorem SameDescriptors.of_free {free : List ℕ}
    (h : SameDescriptors { σ with freePages := free } σ') : SameDescriptors σ σ' :=
  ⟨h.1, h.2, h.3, h.4, h.5, h.6, h.7⟩

/-! ### Unmapping -/

/-- The pages `p` to `p + n` of directory `d` are unmapped, and nothing else has
changed in any address space. -/
structure Cleared (σ σ' : Vmm) (dirs : ℕ → Prop) (d p n : ℕ) : Prop where
  same : SameDescriptors σ σ'
  dir : ∀ d', dirs d' → σ'.mem d' = σ.mem d'
  word : ∀ d' q, dirs d' → q < windowPage →
    σ'.word d' q = if d' = d ∧ p ≤ q ∧ q < p + n then 0 else σ.word d' q

namespace Cleared

theorem zero : Cleared σ σ dirs d p 0 :=
  ⟨.refl σ, fun _ _ => rfl, fun _ _ _ _ => (if_neg (by omega)).symm⟩

/-- One page, then the rest. -/
theorem cons (hw : Wrote σ σ₁ dirs d p 0) (h : Cleared σ₁ σ' dirs d (p + 1) n) :
    Cleared σ σ' dirs d p (n + 1) where
  same := hw.same.trans h.same
  dir d' hd' := (h.dir d' hd').trans (hw.dir d' hd')
  word d' q hd' hq := by
    rw [h.word d' q hd' hq, hw.word d' q hd' hq, ← ite_or]
    exact if_congr (by omega) rfl rfl

/-- A page that was not mapped, then the rest. -/
theorem cons_absent (hdir : dirs d) (h0 : σ.hasTable d (p / pageEntries) = false)
    (h : Cleared σ σ' dirs d (p + 1) n) : Cleared σ σ' dirs d p (n + 1) where
  same := h.same
  dir := h.dir
  word d' q hd' hq := by
    rw [h.word d' q hd' hq]
    by_cases hp : d' = d ∧ q = p
    · obtain ⟨rfl, rfl⟩ := hp
      rw [word_of_absent h0, ite_self, ite_self]
    · exact if_congr (by omega) rfl rfl

theorem of_free {free : List ℕ} (h : Cleared { σ with freePages := free } σ' dirs d p n) :
    Cleared σ σ' dirs d p n := ⟨h.same.of_free, h.dir, h.word⟩

theorem hasTable (h : Cleared σ σ' dirs d p n) (hd : dirs d) (i : ℕ) :
    σ'.hasTable d i = σ.hasTable d i := by
  rw [Vmm.hasTable, h.dir d hd, Vmm.hasTable]

theorem directories (hc : Cleared σ σ' dirs d p n) (h : Directories σ dirs) :
    Directories σ' dirs := h.congr hc.dir

theorem spaces (hc : Cleared σ σ' dirs d p n) (h : Spaces σ dirs)
    (hfree : σ'.freePages = σ.freePages) : Spaces σ' dirs := h.congr hc.dir hfree

theorem plain (hc : Cleared σ σ' dirs d p n) (ht : σ.Plain dirs t) : σ'.Plain dirs t :=
  ht.congr hc.dir

end Cleared

/-- Page `i` of a range, below the recursive window. -/
theorem addr_page (hlt : va + i * pageSize < recursiveAddr) :
    u32 (va + i * pageSize) < recursiveAddr ∧
      u32 (va + i * pageSize) / pageSize = va / pageSize + i := by
  rw [u32_of_lt (hlt.trans (by decide)), page_div]
  exact ⟨hlt, rfl⟩

theorem addr_lt (hle : va + (i + (n + 1)) * pageSize ≤ recursiveAddr) :
    va + i * pageSize < recursiveAddr := by
  simp only [pageSize, recursiveAddr] at *
  omega

/-- Step `i` of a loop over a range below the recursive window. -/
theorem range_page (hle : va + (i + (n + 1)) * pageSize ≤ recursiveAddr) :
    u32 (va + i * pageSize) < recursiveAddr ∧
      u32 (va + i * pageSize) / pageSize = va / pageSize + i ∧
      va + (i + 1 + n) * pageSize ≤ recursiveAddr := by
  obtain ⟨hlt, hpage⟩ := addr_page (addr_lt hle)
  rw [Nat.add_right_comm i 1 n]
  exact ⟨hlt, hpage, hle⟩

/-- The pages of a range below the recursive window. -/
theorem page_lt_of_range (hle : va + (i + n) * pageSize ≤ recursiveAddr)
    (hq : q < va / pageSize + i + n) : q < windowPage := by
  simp only [pageSize, recursiveAddr, windowPage, recursivePde, pageEntries] at *
  omega

section Unmap

variable (h : Directories σ dirs) (hd : dirs (σ.region r).pgDir) (hl : Loaded σ r)
  (hle : va + (i + n) * pageSize ≤ recursiveAddr)

include h hd hl hle in
/-- **`vmm_unmap_range`** unmaps its pages up to the first whose page table is
missing. -/
theorem vmmUnmapRangeFrom_loaded : ∃ status σ' k,
    vmmUnmapRangeFrom r va n i σ = some (status, σ') ∧ k ≤ n ∧ (status = 0 ↔ k = n) ∧
      (∀ j < k, σ.hasTable (σ.region r).pgDir ((va / pageSize + i + j) / pageEntries) = true) ∧
      (k < n → σ.hasTable (σ.region r).pgDir ((va / pageSize + i + k) / pageEntries) = false) ∧
      σ'.freePages = σ.freePages ∧ Cleared σ σ' dirs (σ.region r).pgDir (va / pageSize + i) k := by
  induction n generalizing i σ with
  | zero => exact ⟨0, σ, 0, rfl, le_rfl, by simp, by simp, by simp, rfl, .zero⟩
  | succ n ih =>
    obtain ⟨hlt, hpage, hle'⟩ := range_page hle
    rcases vmmUnmap_loaded h hd hl hlt with ⟨hnone, hrun⟩ | ⟨hsome, σ₁, hrun, hw⟩
    · rw [hpage] at hnone
      exact ⟨-1, σ, 0, Option.bind_eq_some_iff.2 ⟨_, hrun, rfl⟩, Nat.zero_le _, by simp, by simp,
        fun _ => hnone, rfl, .zero⟩
    · rw [hpage] at hsome hw
      have hreg := congrFun hw.same.region r
      have htable : ∀ k, σ₁.hasTable (σ.region r).pgDir k = σ.hasTable (σ.region r).pgDir k :=
        fun k => by rw [Vmm.hasTable, hw.dir _ hd, Vmm.hasTable]
      obtain ⟨status, σ', k, hrun', hk, hstatus, hall, htab, hfree, hc⟩ :=
        ih (hw.directories h) (hreg ▸ hd) (hl.of_same hw.same) hle'
      simp only [hreg, htable] at hall htab hc
      have hpq : ∀ j, va / pageSize + (i + 1) + j = va / pageSize + i + (j + 1) := fun j => by omega
      refine ⟨status, σ', k + 1, Option.bind_eq_some_iff.2 ⟨_, hrun, hrun'⟩, by omega, by omega,
        fun j hj => ?_, fun hlt => ?_, hfree.trans hw.free, .cons hw hc⟩
      · cases j with
        | zero => exact hsome
        | succ j => exact hpq j ▸ hall j (Nat.lt_of_succ_lt_succ hj)
      · exact hpq k ▸ htab (Nat.lt_of_succ_lt_succ hlt)

include h hd hl hle in
/-- Unmapping each page of a range. -/
theorem vmmUnmapEach_loaded : ∃ σ', vmmUnmapEach r va n i σ = some σ' ∧
    σ'.freePages = σ.freePages ∧ Cleared σ σ' dirs (σ.region r).pgDir (va / pageSize + i) n := by
  induction n generalizing i σ with
  | zero => exact ⟨σ, rfl, rfl, .zero⟩
  | succ n ih =>
    obtain ⟨hlt, hpage, hle'⟩ := range_page hle
    rcases vmmUnmap_loaded h hd hl hlt with ⟨hnone, hrun⟩ | ⟨-, σ₁, hrun, hw⟩
    · rw [hpage] at hnone
      obtain ⟨σ', hrun', hfree, hc⟩ := ih h hd hl hle'
      exact ⟨σ', Option.bind_eq_some_iff.2 ⟨_, hrun, hrun'⟩, hfree, .cons_absent hd hnone hc⟩
    · rw [hpage] at hw
      have hreg := congrFun hw.same.region r
      obtain ⟨σ', hrun', hfree, hc⟩ := ih (hw.directories h) (hreg ▸ hd) (hl.of_same hw.same) hle'
      rw [hreg] at hc
      exact ⟨σ', Option.bind_eq_some_iff.2 ⟨_, hrun, hrun'⟩, hfree.trans hw.free, .cons hw hc⟩

/-- The pages that `vmm_free` gives back for the pages `p` to `p + n`, the last first;
`off` is the offset of the address in its page. -/
def freedPages (word : ℕ → ℕ) (off p n : ℕ) : List ℕ :=
  ((List.range' p n).filterMap fun q =>
    if present (word q) ∧ (maskLow (word q) pageSize ||| off) ≠ 0
    then some (maskLow (word q) pageSize) else none).reverse

theorem freedPages_congr {word word' : ℕ → ℕ} {off : ℕ}
    (h : ∀ q, p ≤ q → q < p + n → word' q = word q) :
    freedPages word' off p n = freedPages word off p n := by
  refine congrArg List.reverse (List.filterMap_congr fun q hq => ?_)
  obtain ⟨hpq, hqn⟩ := List.mem_range'_1.1 hq
  rw [h q hpq hqn]

/-- What one turn of the loop of `vmm_free` gives back. -/
theorem freedPages_succ (word : ℕ → ℕ) {off : ℕ} (hoff : off < pageSize) (free : List ℕ) :
    freedPages word off p (n + 1) ++ free = freedPages word off (p + 1) n ++
      (let pa := if present (word p) then maskLow (word p) pageSize ||| off else 0
       if pa ≠ 0 then maskLow pa pageSize :: free else free) := by
  rw [freedPages, List.range'_succ, List.filterMap_cons]
  rcases hp : present (word p) with - | -
  · simp [freedPages]
  · rcases eq_or_ne (maskLow (word p) pageSize ||| off) 0 with h0 | h0
    · simp [freedPages, h0]
    · simp [freedPages, h0, maskLow_or, maskLow_of_lt hoff]

theorem freePage_eq (pa : ℕ) (σ : Vmm) : (if pa ≠ 0 then σ.freePage pa else σ) =
    { σ with freePages := if pa ≠ 0 then maskLow pa pageSize :: σ.freePages else σ.freePages } := by
  rw [Vmm.freePage]
  split_ifs <;> rfl

include h hd hl hle in
/-- **`vmm_free`** gives back what its pages were mapped to and unmaps them. -/
theorem vmmFreeFrom_loaded : ∃ σ', vmmFreeFrom r va n i σ = some σ' ∧
    Cleared σ σ' dirs (σ.region r).pgDir (va / pageSize + i) n ∧
    σ'.freePages = freedPages (σ.word (σ.region r).pgDir) (va % pageSize) (va / pageSize + i) n ++
      σ.freePages := by
  induction n generalizing i σ with
  | zero => exact ⟨σ, rfl, .zero, rfl⟩
  | succ n ih =>
    obtain ⟨hlt, hpage, hle'⟩ := range_page hle
    have hoff : u32 (va + i * pageSize) % pageSize = va % pageSize := by
      simp only [u32, pageSize]
      omega
    have hres := vmmResolve_loaded hl (hlt.trans (by decide))
    rw [hpage, hoff] at hres
    obtain ⟨pa, hpa⟩ : ∃ pa, pa = if present (σ.word (σ.region r).pgDir (va / pageSize + i))
        then maskLow (σ.word (σ.region r).pgDir (va / pageSize + i)) pageSize ||| va % pageSize
        else 0 := ⟨_, rfl⟩
    have hsucc := freedPages_succ (σ.word (σ.region r).pgDir) (p := va / pageSize + i)
      (n := n) (Nat.mod_lt va (by decide : 0 < pageSize)) σ.freePages
    simp only [← hpa] at hres hsucc
    have hstep : vmmFreeFrom r va (n + 1) i σ =
        (vmmUnmap r (u32 (va + i * pageSize)) { σ with freePages :=
          (if pa ≠ 0 then maskLow pa pageSize :: σ.freePages else σ.freePages) }).bind fun o =>
            vmmFreeFrom r va n (i + 1) o.2 := by
      rw [vmmFreeFrom, hres, ← freePage_eq]
      rfl
    rw [hstep, hsucc]
    generalize (if pa ≠ 0 then maskLow pa pageSize :: σ.freePages else σ.freePages) = free
    rcases vmmUnmap_loaded (σ := { σ with freePages := free })
        (h.congr fun _ _ => rfl) hd hl hlt with ⟨hnone, hrun⟩ | ⟨-, σ₁, hrun, hw⟩
    · rw [hpage] at hnone
      obtain ⟨σ', hrun', hc, hfree⟩ := ih (σ := { σ with freePages := free })
        (h.congr fun _ _ => rfl) hd hl hle'
      rw [hrun]
      exact ⟨σ', hrun', .cons_absent hd hnone hc.of_free, hfree⟩
    · rw [hpage] at hw
      have hreg := congrFun hw.same.region r
      obtain ⟨σ', hrun', hc, hfree⟩ := ih (hw.directories (h.congr fun _ _ => rfl)) (hreg ▸ hd)
        (hl.of_same hw.same.of_free) hle'
      rw [hreg] at hc hfree
      rw [hrun]
      refine ⟨σ', hrun', (Cleared.cons hw hc).of_free, ?_⟩
      rw [hfree, hw.free]
      refine congrArg (· ++ _) (freedPages_congr fun q hq hqn => ?_)
      rw [hw.word _ q hd (page_lt_of_range hle' (by omega)), if_neg (by omega)]
      rfl

end Unmap

/-! ### Mapping new pages -/

/-- The pages that mapping `n` pages from `p` on takes, the ones for page tables
included, when `table` says which tables there are. -/
def pagesNeeded (table : ℕ → Bool) (p : ℕ) : ℕ → ℕ
  | 0 => 0
  | n + 1 => 1 + (if table (p / pageEntries) then 0 else 1) +
      pagesNeeded (Function.update table (p / pageEntries) true) (p + 1) n

/-- The pages `p, p + 1, ...` of directory `d` are mapped to `frames`, which were
free, and nothing else has changed in any address space but for page tables. -/
structure FreshRun (σ σ' : Vmm) (dirs : ℕ → Prop) (d p flags : ℕ) (frames : List ℕ) : Prop where
  spaces : Spaces σ' dirs
  same : SameDescriptors σ σ'
  dir : ∀ d', dirs d' → d' ≠ d → σ'.mem d' = σ.mem d'
  other : ∀ d' q, dirs d' → d' ≠ d → q < windowPage → σ'.word d' q = σ.word d' q
  word : ∀ q, q < windowPage → ¬ (p ≤ q ∧ q < p + frames.length) → σ'.word d q = σ.word d q
  maps : ∀ j f, frames[j]? = some f → σ'.word d (p + j) = pageEntry f flags
  here : ∀ j, j < frames.length → σ'.hasTable d ((p + j) / pageEntries) = true
  tables : ∀ k, σ.hasTable d k = true → σ'.hasTable d k = true
  nodup : frames.Nodup
  taken : ∀ f ∈ frames, f ∈ σ.freePages ∧ f ∉ σ'.freePages ∧ σ'.Plain dirs f
  free : σ'.freePages.Sublist σ.freePages
  plain : ∀ u, u ∉ σ.freePages → σ.Plain dirs u → σ'.Plain dirs u

/-- No page table could be had for page `q`; `pa` was taken for it. -/
structure NoTable (σ σ' : Vmm) (dirs : ℕ → Prop) (d q pa : ℕ) (frames : List ℕ) : Prop where
  absent : σ'.hasTable d (q / pageEntries) = false
  taken : pa ∈ σ.freePages
  fresh : pa ∉ frames
  plain : σ'.Plain dirs pa

/-- How the loop ends that has mapped `frames` at the pages from `p` on, of `n`. -/
def LoopEnds (checked : Bool) (σ σ' : Vmm) (dirs : ℕ → Prop) (d p i n : ℕ) (frames : List ℕ)
    (e : LoopEnd) : Prop :=
  (e = .done ∧ frames.length = n ∧
    σ.freePages.length = pagesNeeded (σ.hasTable d) p n + σ'.freePages.length) ∨
  (frames.length < n ∧ σ'.freePages = [] ∧ σ.freePages.length < pagesNeeded (σ.hasTable d) p n ∧
    (e = .noPage (i + frames.length) ∨
      ∃ pa, NoTable σ σ' dirs d (p + frames.length) pa frames ∧
        ((checked = true ∧ e = .noTable (i + frames.length) pa) ∨
        (checked = false ∧ frames.length + 1 < n ∧ e = .noPage (i + frames.length + 1)) ∨
        (checked = false ∧ frames.length + 1 = n ∧ e = .done))))

/-- Taking the first free page. -/
theorem Spaces.take (h : Spaces σ dirs) {free : List ℕ} (hfree : σ.freePages = pa :: free) :
    Spaces { σ with freePages := free } dirs ∧ pa ∉ free ∧ pa ≠ 0 ∧ σ.Plain dirs pa := by
  have hnd := List.nodup_cons.1 (hfree ▸ h.free_nodup)
  have hmem : ∀ t ∈ free, t ∈ σ.freePages := fun t ht => hfree ▸ List.mem_cons_of_mem _ ht
  have hpa : pa ∈ σ.freePages := hfree ▸ List.mem_cons_self
  exact ⟨⟨h.toDirectories.congr fun _ _ => rfl, hnd.2, fun t ht => h.free_page t (hmem t ht),
    fun t ht => h.free_plain t (hmem t ht)⟩, hnd.1, (h.free_page pa hpa).1.ne', h.free_plain pa hpa⟩

theorem FreshRun.nil (h : Spaces σ dirs) : FreshRun σ σ dirs d p flags [] :=
  ⟨h, .refl σ, fun _ _ _ => rfl, fun _ _ _ _ _ => rfl, fun _ _ _ => rfl, by simp, by simp,
    fun _ => id, List.nodup_nil, by simp, .refl _, fun _ _ => id⟩

/-- One new page, then the rest. -/
theorem FreshRun.cons (h : Spaces σ dirs) (hd : dirs d) {free : List ℕ}
    (hp : p + frames.length < windowPage) (hfree : σ.freePages = pa :: free)
    (hm : Mapped { σ with freePages := free } σ₁ dirs d p (pageEntry pa flags))
    (hf : FreshRun σ₁ σ' dirs d (p + 1) flags frames) :
    FreshRun σ σ' dirs d p flags (pa :: frames) := by
  obtain ⟨-, hpa, -, hplain⟩ := h.take hfree
  have hsub : σ₁.freePages.Sublist free := hm.free_sublist
  have hpa₁ : pa ∉ σ₁.freePages := fun hmem => hpa (hsub.subset hmem)
  have hkeep : ∀ u, u ∉ free → σ.Plain dirs u → σ'.Plain dirs u := fun u hu hpu =>
    hf.plain u (fun hmem => hu (hsub.subset hmem)) (hm.plain u hu hpu)
  have hword : ∀ q, q < windowPage → ¬ (p ≤ q ∧ q < p + (frames.length + 1)) →
      σ'.word d q = σ.word d q := fun q hq hne => by
    rw [hf.word q hq (by omega), hm.word d q hd hq, if_neg (by omega)]
    rfl
  constructor
  · exact hf.spaces
  · exact hm.same.of_free.trans hf.same
  · intro d' hd' hne
    rw [hf.dir d' hd' hne]
    exact funext fun k => hm.dir d' k hd' fun hk => hne hk.1
  · intro d' q hd' hne hq
    rw [hf.other d' q hd' hne hq, hm.word d' q hd' hq, if_neg fun hk => hne hk.1]
    rfl
  · exact hword
  · intro j f hj
    cases j with
    | zero =>
      obtain rfl : pa = f := Option.some.inj hj
      rw [Nat.add_zero, hf.word p (by omega) (by omega), hm.word d p hd (by omega), if_pos ⟨rfl, rfl⟩]
    | succ j =>
      rw [Nat.add_comm j 1, ← Nat.add_assoc]
      exact hf.maps j f hj
  · intro j hj
    cases j with
    | zero => exact hf.tables _ hm.here
    | succ j =>
      rw [Nat.add_comm j 1, ← Nat.add_assoc]
      exact hf.here j (Nat.lt_of_succ_lt_succ hj)
  · intro k hk
    refine hf.tables k ?_
    rw [hm.hasTable hd]
    split
    · rfl
    · exact hk
  · exact List.nodup_cons.2 ⟨fun hmem => hpa₁ (hf.taken pa hmem).1, hf.nodup⟩
  · intro f hmem
    rcases List.mem_cons.1 hmem with rfl | hmem
    · exact ⟨hfree ▸ List.mem_cons_self, fun hmem => hpa₁ (hf.free.subset hmem), hkeep _ hpa hplain⟩
    · obtain ⟨h₁, h₂, h₃⟩ := hf.taken f hmem
      exact ⟨hfree ▸ List.mem_cons_of_mem _ (hsub.subset h₁), h₂, h₃⟩
  · rw [hfree]
    exact (hf.free.trans hsub).trans (List.sublist_cons_self pa free)
  · exact fun u hu hpu => hkeep u (fun hmem => hu (hfree ▸ List.mem_cons_of_mem _ hmem)) hpu

/-- The account of one page that is mapped. -/
theorem pagesNeeded_mapped (hd : dirs d) {free : List ℕ} (hfree : σ.freePages = pa :: free)
    (hm : Mapped { σ with freePages := free } σ₁ dirs d p w) :
    σ.freePages.length + pagesNeeded (σ₁.hasTable d) (p + 1) n =
      pagesNeeded (σ.hasTable d) p (n + 1) + σ₁.freePages.length := by
  have htab : σ₁.hasTable d = Function.update (σ.hasTable d) (p / pageEntries) true := by
    funext k
    rw [hm.hasTable hd, Function.update_apply]
    rfl
  rw [pagesNeeded, ← htab, hfree, List.length_cons]
  rcases hm.cases with ⟨hold, hf, -⟩ | ⟨hold, t, hf, -⟩
  · rw [show σ.hasTable d (p / pageEntries) = true from hold, if_pos rfl,
      show σ₁.freePages = free from hf]
    omega
  · rw [show σ.hasTable d (p / pageEntries) = false from hold, if_neg (by simp),
      show free = t :: σ₁.freePages from hf, List.length_cons]
    omega

/-- One page of the loop of the allocators: none is free, or it was the last one and
the table is missing, or the page is mapped. -/
theorem vmmMapFresh_step (checked : Bool) (h : Spaces σ dirs) (hd : dirs (σ.region r).pgDir)
    (hl : Loaded σ r) (hlt : σ.freePages ≠ [] → va + i * pageSize < recursiveAddr) (flags : ℕ) :
    (σ.freePages = [] ∧ vmmMapFresh checked r va flags (n + 1) i σ = some (.noPage i, σ)) ∨
    ∃ pa free, σ.freePages = pa :: free ∧
      ((free = [] ∧ σ.hasTable (σ.region r).pgDir ((va / pageSize + i) / pageEntries) = false ∧
        vmmMapFresh checked r va flags (n + 1) i σ =
          if checked then some (.noTable i pa, { σ with freePages := [] })
          else vmmMapFresh checked r va flags n (i + 1) { σ with freePages := [] }) ∨
      ∃ σ₁, Mapped { σ with freePages := free } σ₁ dirs (σ.region r).pgDir (va / pageSize + i)
          (pageEntry pa flags) ∧
        vmmMapFresh checked r va flags (n + 1) i σ =
          vmmMapFresh checked r va flags n (i + 1) σ₁) := by
  rcases hfree : σ.freePages with - | ⟨pa, free⟩
  · refine .inl ⟨rfl, ?_⟩
    rw [vmmMapFresh, Vmm.allocPage, hfree]
    rfl
  · obtain ⟨h₁, -, hpa0, -⟩ := h.take hfree
    obtain ⟨hlt, hpage⟩ := addr_page (hlt (by simp [hfree]))
    have hstep : vmmMapFresh checked r va flags (n + 1) i σ =
        (vmmMap r (u32 (va + i * pageSize)) pa flags { σ with freePages := free }).bind fun o =>
          if checked && o.1 < 0 then some (.noTable i pa, o.2)
          else vmmMapFresh checked r va flags n (i + 1) o.2 := by
      rw [vmmMapFresh, Vmm.allocPage, hfree]
      simp only [hpa0, if_false]
      rfl
    refine .inr ⟨pa, free, rfl, ?_⟩
    rcases vmmMap_loaded h₁ hd hl hlt pa flags with ⟨hnone, hempty, hrun⟩ | ⟨σ₁, hrun, hm⟩
    · rw [hpage] at hnone
      obtain rfl : free = [] := hempty
      refine .inl ⟨rfl, hnone, ?_⟩
      rw [hstep, hrun]
      cases checked <;> rfl
    · rw [hpage] at hm
      refine .inr ⟨σ₁, hm, ?_⟩
      rw [hstep, hrun]
      simp

theorem pagesNeeded_lt_succ (table : ℕ → Bool) (p n : ℕ) :
    pagesNeeded table p n < pagesNeeded table p (n + 1) := by
  induction n generalizing table p with
  | zero =>
    rw [pagesNeeded, pagesNeeded]
    omega
  | succ n ih => exact Nat.add_lt_add_left (ih _ _) _

theorem pagesNeeded_mono (table : ℕ → Bool) (p : ℕ) : Monotone (pagesNeeded table p) :=
  monotone_nat_of_le_succ fun n => (pagesNeeded_lt_succ table p n).le

/-- The pages of the range at `va` that the loop comes to before the free pages run out lie
below the recursive window. -/
def TriedBelow (σ : Vmm) (d va i n : ℕ) : Prop :=
  ∀ k < n, pagesNeeded (σ.hasTable d) (va / pageSize + i) k < σ.freePages.length →
    va + (i + (k + 1)) * pageSize ≤ recursiveAddr

theorem triedBelow_of_le (hle : va + (i + n) * pageSize ≤ recursiveAddr) : TriedBelow σ d va i n :=
  fun k hk _ => le_trans (Nat.add_le_add_left (Nat.mul_le_mul_right _ (by omega)) va) hle

theorem TriedBelow.first (h : TriedBelow σ d va i (n + 1)) (hne : σ.freePages ≠ []) :
    va + i * pageSize < recursiveAddr :=
  addr_lt (h 0 (Nat.succ_pos n) (List.length_pos_of_ne_nil hne))

/-- The pages after the first one, which has been mapped. -/
theorem TriedBelow.rest (h : TriedBelow σ d va i (n + 1)) (hd : dirs d) {free : List ℕ}
    (hfree : σ.freePages = pa :: free)
    (hm : Mapped { σ with freePages := free } σ₁ dirs d (va / pageSize + i) w) :
    TriedBelow σ₁ d va (i + 1) n := by
  intro k hk htried
  have hacc := pagesNeeded_mapped (n := k) hd hfree hm
  have hle := h (k + 1) (Nat.succ_lt_succ hk) (by
    rw [← Nat.add_assoc] at htried
    omega)
  rwa [Nat.add_assoc i 1, Nat.add_comm 1]

/-- What is mapped lies below the window. -/
theorem TriedBelow.mapped (h : TriedBelow σ d va i n) (hk : k ≤ n)
    (hneed : pagesNeeded (σ.hasTable d) (va / pageSize + i) k ≤ σ.freePages.length) (h0 : k ≠ 0) :
    va + (i + k) * pageSize ≤ recursiveAddr := by
  obtain ⟨k, rfl⟩ := Nat.exists_eq_succ_of_ne_zero h0
  exact h k hk ((pagesNeeded_lt_succ _ _ k).trans_le hneed)

/-- **The loop of the allocators on the loaded region**: the pages that it maps are
mapped to pages that were free, and it maps the whole range exactly when enough
pages are free. -/
theorem vmmMapFresh_tried (checked : Bool) (h : Spaces σ dirs) (hd : dirs (σ.region r).pgDir)
    (hl : Loaded σ r) (hbelow : TriedBelow σ (σ.region r).pgDir va i n) (flags : ℕ) :
    ∃ e σ' frames, vmmMapFresh checked r va flags n i σ = some (e, σ') ∧
      FreshRun σ σ' dirs (σ.region r).pgDir (va / pageSize + i) flags frames ∧
      LoopEnds checked σ σ' dirs (σ.region r).pgDir (va / pageSize + i) i n frames e ∧
      pagesNeeded (σ.hasTable (σ.region r).pgDir) (va / pageSize + i) frames.length ≤
        σ.freePages.length ∧
      (e ≠ .noPage (i + frames.length) → frames.length < n →
        pagesNeeded (σ.hasTable (σ.region r).pgDir) (va / pageSize + i) frames.length <
          σ.freePages.length) := by
  induction n generalizing i σ with
  | zero =>
    exact ⟨.done, σ, [], rfl, .nil h, .inl ⟨rfl, rfl, by simp [pagesNeeded]⟩, Nat.zero_le _,
      fun _ h0 => absurd h0 (Nat.not_lt_zero _)⟩
  | succ n ih =>
    rcases vmmMapFresh_step checked h hd hl hbelow.first flags with
      ⟨hfree, hrun⟩ | ⟨pa, free, hfree, ⟨rfl, hnone, hstep⟩ | ⟨σ₁, hm, hstep⟩⟩
    · refine ⟨.noPage i, σ, [], hrun, .nil h, .inr ⟨Nat.succ_pos n, hfree, ?_, .inl rfl⟩,
        Nat.zero_le _, fun hne => absurd rfl hne⟩
      rw [hfree, pagesNeeded]
      exact Nat.add_pos_left (Nat.add_pos_left Nat.one_pos _) _
    · obtain ⟨h₁, -, -, hplain⟩ := h.take hfree
      have hno : NoTable σ { σ with freePages := [] } dirs (σ.region r).pgDir
          (va / pageSize + i + 0) pa [] := ⟨hnone, hfree ▸ List.mem_cons_self, by simp, hplain⟩
      have hlen : σ.freePages.length <
          pagesNeeded (σ.hasTable (σ.region r).pgDir) (va / pageSize + i) (n + 1) := by
        rw [hfree, pagesNeeded, hnone]
        simp
        omega
      have hnil : FreshRun σ { σ with freePages := [] } dirs (σ.region r).pgDir
          (va / pageSize + i) flags [] :=
        ⟨h₁, ⟨rfl, rfl, rfl, rfl, rfl, rfl, rfl⟩, fun _ _ _ => rfl, fun _ _ _ _ _ => rfl,
          fun _ _ _ => rfl, by simp, by simp,
          fun _ => id, List.nodup_nil, by simp, List.nil_sublist _, fun _ _ => id⟩
      have hone : 0 < σ.freePages.length := by simp [hfree]
      cases checked with
      | true => exact ⟨_, _, [], hstep, hnil, .inr ⟨Nat.succ_pos n, rfl, hlen, .inr ⟨pa, hno,
          .inl ⟨rfl, rfl⟩⟩⟩, Nat.zero_le _, fun _ _ => hone⟩
      | false =>
        cases n with
        | zero => exact ⟨_, _, [], hstep, hnil, .inr ⟨Nat.one_pos, rfl, hlen, .inr ⟨pa, hno,
            .inr (.inr ⟨rfl, rfl, rfl⟩)⟩⟩, Nat.zero_le _, fun _ _ => hone⟩
        | succ n => exact ⟨_, _, [], hstep, hnil, .inr ⟨Nat.succ_pos _, rfl, hlen, .inr ⟨pa, hno,
            .inr (.inl ⟨rfl, Nat.succ_lt_succ (Nat.succ_pos n), rfl⟩)⟩⟩, Nat.zero_le _,
            fun _ _ => hone⟩
    · obtain ⟨hfresh, hpa, -, -⟩ := h.take hfree
      have hreg : (σ₁.region r) = σ.region r := congrFun hm.same.region r
      have hacc : ∀ k, σ.freePages.length + pagesNeeded (σ₁.hasTable (σ.region r).pgDir)
          (va / pageSize + (i + 1)) k = pagesNeeded (σ.hasTable (σ.region r).pgDir)
            (va / pageSize + i) (k + 1) + σ₁.freePages.length :=
        fun k => pagesNeeded_mapped hd hfree hm
      obtain ⟨e, σ', frames, hrun, hf, hend, hneed, hmore⟩ :=
        ih hm.spaces (hreg ▸ hd) (hl.of_same (hm.same.of_free)) (hreg ▸ hbelow.rest hd hfree hm)
      rw [hreg] at hf hend hneed hmore
      have hlen : frames.length ≤ n := by
        rcases hend with ⟨-, hlen, -⟩ | ⟨hlen, -⟩ <;> omega
      have hall : pagesNeeded (σ.hasTable (σ.region r).pgDir) (va / pageSize + i)
          (pa :: frames).length ≤ σ.freePages.length := by
        have := hacc frames.length
        rw [List.length_cons]
        omega
      have hp : va / pageSize + i + frames.length < windowPage :=
        page_lt_of_range (hbelow.mapped (Nat.succ_le_succ hlen) hall (by simp))
          (Nat.lt_succ_self _)
      refine ⟨e, σ', pa :: frames, hstep.trans hrun, .cons h hd hp hfree hm hf, ?_, hall,
        fun he hlt => ?_⟩
      · have hacc := hacc n
        have hi : i + 1 + frames.length = i + (pa :: frames).length := by
          rw [List.length_cons]
          omega
        have hpq : va / pageSize + (i + 1) + frames.length =
            va / pageSize + i + (pa :: frames).length := by
          rw [List.length_cons]
          omega
        rcases hend with ⟨rfl, hlen, hcount⟩ | ⟨hlt, hnil, hcount, hcase⟩
        · refine .inl ⟨rfl, by rw [List.length_cons, hlen], ?_⟩
          omega
        · refine .inr ⟨by simpa using hlt, hnil, by omega, ?_⟩
          rw [hi, hpq] at hcase
          refine hcase.imp id ?_
          rintro ⟨pa', hno, hcase⟩
          refine ⟨pa', ⟨hno.absent, ?_, ?_, hno.plain⟩, ?_⟩
          · rw [hfree]
            exact List.mem_cons_of_mem _ (hm.free_sublist.subset hno.taken)
          · refine fun hmem => (List.mem_cons.1 hmem).elim ?_ hno.fresh
            rintro rfl
            exact hpa (hm.free_sublist.subset hno.taken)
          · simpa using hcase
      · have hlast := hmore (fun h => he (h.trans (congrArg _ (by simp; omega))))
          (by simpa using hlt)
        have := hacc frames.length
        rw [List.length_cons]
        omega

/-- The same for a range below the recursive window. -/
theorem vmmMapFresh_loaded (checked : Bool) (h : Spaces σ dirs) (hd : dirs (σ.region r).pgDir)
    (hl : Loaded σ r) (hle : va + (i + n) * pageSize ≤ recursiveAddr) (flags : ℕ) :
    ∃ e σ' frames, vmmMapFresh checked r va flags n i σ = some (e, σ') ∧
      FreshRun σ σ' dirs (σ.region r).pgDir (va / pageSize + i) flags frames ∧
      LoopEnds checked σ σ' dirs (σ.region r).pgDir (va / pageSize + i) i n frames e := by
  obtain ⟨e, σ', frames, hrun, hf, hend, -⟩ :=
    vmmMapFresh_tried checked h hd hl (triedBelow_of_le hle) flags
  exact ⟨e, σ', frames, hrun, hf, hend⟩

/-- Unmapping what the loop has mapped, and perhaps the page for which it found no
page table. -/
theorem vmmUnmapRange_fresh (hf : FreshRun σ σ₁ dirs (σ.region r).pgDir (va / pageSize) flags frames)
    (hd : dirs (σ.region r).pgDir) (hl : Loaded σ r) (hle : i ≠ 0 → va + i * pageSize ≤ recursiveAddr)
    (hi : i = frames.length ∨ i = frames.length + 1 ∧
      σ₁.hasTable (σ.region r).pgDir ((va / pageSize + frames.length) / pageEntries) = false) :
    ∃ status σ', vmmUnmapRange r va i σ₁ = some (status, σ') ∧ σ'.freePages = σ₁.freePages ∧
      Cleared σ₁ σ' dirs (σ.region r).pgDir (va / pageSize) frames.length := by
  have hreg := congrFun hf.same.region r
  rcases eq_or_ne i 0 with rfl | h0
  · obtain hnil : frames.length = 0 := by omega
    exact ⟨0, σ₁, rfl, rfl, hnil ▸ .zero⟩
  obtain ⟨status, σ', k, hrun, hk, -, hall, hnone, hfree, hc⟩ := vmmUnmapRangeFrom_loaded
    hf.spaces.toDirectories (hreg ▸ hd) (hl.of_same hf.same)
    (by rw [Nat.zero_add]; exact hle h0 : va + (0 + i) * pageSize ≤ recursiveAddr)
  rw [hreg, Nat.add_zero] at hall hnone hc
  have hge : frames.length ≤ k := Nat.le_of_not_lt fun hlt => by
    have htrue := hf.here k hlt
    rw [hnone (by omega)] at htrue
    exact absurd htrue (by simp)
  have hle : k ≤ frames.length := by
    rcases hi with rfl | ⟨rfl, habs⟩
    · exact hk
    · refine Nat.le_of_not_lt fun hlt => ?_
      rw [hall _ hlt] at habs
      exact absurd habs (by simp)
  obtain rfl := Nat.le_antisymm hle hge
  exact ⟨status, σ', hrun, hfree, hc⟩

/-- Every page of the range is mapped, or the last one is not, for want of a page
table. -/
def AllMapped (σ σ' : Vmm) (dirs : ℕ → Prop) (d p n : ℕ) (frames : List ℕ) : Prop :=
  (frames.length = n ∧
    σ.freePages.length = pagesNeeded (σ.hasTable d) p n + σ'.freePages.length) ∨
  (frames.length + 1 = n ∧ σ'.freePages = [] ∧
    σ.freePages.length < pagesNeeded (σ.hasTable d) p n ∧
    ∃ pa, NoTable σ σ' dirs d (p + frames.length) pa frames)

/-- No page is free, and what was mapped is unmapped again. -/
structure GivenUp (σ σ' : Vmm) (dirs : ℕ → Prop) (d p flags n : ℕ) (frames : List ℕ) : Prop where
  /-- the state in which no page is free -/
  fresh : ∃ σ₁, FreshRun σ σ₁ dirs d p flags frames ∧ Cleared σ₁ σ' dirs d p frames.length
  short : frames.length < n
  free : σ'.freePages = []
  needed : σ.freePages.length < pagesNeeded (σ.hasTable d) p n

/-- **`vmm_alloc`, `vmm_alloc_stack` and `vmm_alloc_aligned`** on the loaded region:
the loop, and `vmm_unmap_range` when it finds no free page. -/
theorem vmmMapFresh_unchecked (h : Spaces σ dirs) (hd : dirs (σ.region r).pgDir) (hl : Loaded σ r)
    (hbelow : TriedBelow σ (σ.region r).pgDir va 0 n) (flags : ℕ) :
    ∃ frames : List ℕ, pagesNeeded (σ.hasTable (σ.region r).pgDir) (va / pageSize) frames.length ≤
        σ.freePages.length ∧
      ((∃ σ', vmmMapFresh false r va flags n 0 σ = some (.done, σ') ∧
        FreshRun σ σ' dirs (σ.region r).pgDir (va / pageSize) flags frames ∧
        AllMapped σ σ' dirs (σ.region r).pgDir (va / pageSize) n frames) ∨
      ∃ i σ₁ status σ', vmmMapFresh false r va flags n 0 σ = some (.noPage i, σ₁) ∧
        vmmUnmapRange r va i σ₁ = some (status, σ') ∧
        GivenUp σ σ' dirs (σ.region r).pgDir (va / pageSize) flags n frames) := by
  obtain ⟨e, σ₁, frames, hrun, hf, hend, hneed, hmore⟩ :=
    vmmMapFresh_tried false h hd hl hbelow flags
  rw [Nat.add_zero] at hf hend hneed hmore
  refine ⟨frames, hneed, ?_⟩
  rcases hend with ⟨rfl, hlen, hcount⟩ | ⟨hlt, hnil, hcount, hcase⟩
  · exact .inl ⟨σ₁, hrun, hf, .inl ⟨hlen, hcount⟩⟩
  · -- what is left is to unmap the pages before page `i`
    have hundo : ∀ i, e = .noPage i → (i ≠ 0 → va + i * pageSize ≤ recursiveAddr) →
        (i = frames.length ∨ i = frames.length + 1 ∧
        σ₁.hasTable (σ.region r).pgDir ((va / pageSize + frames.length) / pageEntries) = false) →
        ∃ i σ₁ status σ', vmmMapFresh false r va flags n 0 σ = some (.noPage i, σ₁) ∧
          vmmUnmapRange r va i σ₁ = some (status, σ') ∧
          GivenUp σ σ' dirs (σ.region r).pgDir (va / pageSize) flags n frames := by
      rintro i rfl hi hcase
      obtain ⟨status, σ', hundo, hfree, hc⟩ := vmmUnmapRange_fresh hf hd hl hi hcase
      exact ⟨i, σ₁, status, σ', hrun, hundo, ⟨σ₁, hf, hc⟩, hlt, hfree.trans hnil, hcount⟩
    rcases hcase with he | ⟨pa, hno, ⟨hfalse, -⟩ | ⟨-, hlt', he⟩ | ⟨-, hlen, rfl⟩⟩
    · refine .inr (hundo _ he (fun h0 => ?_) (.inl (Nat.zero_add _)))
      exact hbelow.mapped hlt.le (by rwa [Nat.add_zero]) (by omega)
    · exact absurd hfalse (by simp)
    · refine .inr (hundo _ he (fun _ => ?_) (.inr ⟨by omega, hno.absent⟩))
      rw [Nat.add_assoc]
      exact hbelow frames.length hlt (hmore (by rw [he]; simp) hlt)
    · exact .inl ⟨σ₁, hrun, hf, .inr ⟨hlen, hnil, hcount, pa, hno⟩⟩

/-- **`vmm_alloc`** on the loaded region. -/
theorem vmmAlloc_loaded (h : Spaces σ dirs) (hd : dirs (σ.region r).pgDir) (hl : Loaded σ r)
    (hle : vmmBump r σ + n * pageSize ≤ recursiveAddr) (hn : n ≠ 0) (flags : ℕ) :
    (∃ σ' frames, vmmAlloc r n flags σ = some (vmmBump r σ,
        σ'.setNextFreeVa r (u32 (vmmBump r σ + n * pageSize))) ∧
      FreshRun σ σ' dirs (σ.region r).pgDir (vmmBump r σ / pageSize) flags frames ∧
      AllMapped σ σ' dirs (σ.region r).pgDir (vmmBump r σ / pageSize) n frames) ∨
    ∃ σ' frames, vmmAlloc r n flags σ = some (minusOne, σ') ∧
      GivenUp σ σ' dirs (σ.region r).pgDir (vmmBump r σ / pageSize) flags n frames := by
  rw [vmmAlloc, if_neg hn]
  have hbelow : TriedBelow σ (σ.region r).pgDir (vmmBump r σ) 0 n :=
    triedBelow_of_le (by rwa [Nat.zero_add])
  obtain ⟨frames, -, ⟨σ', hrun, hf, hall⟩ | ⟨i, σ₁, status, σ', hrun, hundo, hgiven⟩⟩ :=
    vmmMapFresh_unchecked h hd hl hbelow flags
  · exact .inl ⟨σ', frames, Option.bind_eq_some_iff.2 ⟨_, hrun, rfl⟩, hf, hall⟩
  · exact .inr ⟨σ', frames, Option.bind_eq_some_iff.2 ⟨_, hrun,
      Option.bind_eq_some_iff.2 ⟨_, hundo, rfl⟩⟩, hgiven⟩

end Flopperating
