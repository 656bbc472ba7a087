/-
# The pages of a region that a request changes

The loops of `vmm_map_range` and `vmm_map_shared` are loops of `vmm_map` over a list of
addresses: they stop at the first one for which there is no page table and no page for
one, and undo nothing (`mapEach_loaded`).  `tablesNeeded` is what a list takes from the
physical allocator, so it also says how far the loop comes.

The last part is about the other users of a region: whatever one of the allocators does,
it changes no page but those of its range that it comes to before the free pages run out
(`AllocCall.around`).
-/

import Flopperating.Mem.PagerConfined
import Flopperating.Mem.VmmApart

namespace Flopperating

open Vmm

/-- The page tables that are missing for the pages at `addrs`. -/
def tablesNeeded (table : ℕ → Bool) : List ℕ → ℕ
  | [] => 0
  | a :: addrs => (if table (a / pageSize / pageEntries) then 0 else 1) +
      tablesNeeded (Function.update table (a / pageSize / pageEntries) true) addrs

/-- The addresses of `n` pages from `va` on, without the first `i`. -/
def rangeAddrs (va i n : ℕ) : List ℕ := (List.range' i n).map fun j => va + j * pageSize

/-- The addresses of `vmm_map_shared`, in the order in which it maps them. -/
def sharedAddrs (vaA vaB i n : ℕ) : List ℕ :=
  (List.range' i n).flatMap fun j => [vaA + j * pageSize, vaB + j * pageSize]

/-- The same, with the frame beside each. -/
def rangeMaps (va pa i n : ℕ) : List (ℕ × ℕ) :=
  (List.range' i n).map fun j => (va + j * pageSize, pa + j * pageSize)

def sharedMaps (vaA vaB pa i n : ℕ) : List (ℕ × ℕ) := (List.range' i n).flatMap fun j =>
  [(vaA + j * pageSize, pa + j * pageSize), (vaB + j * pageSize, pa + j * pageSize)]

/-- The addresses that a loop over `addrs` comes to lie below the recursive window. -/
def MapsBelow (σ : Vmm) (d : ℕ) (addrs : List ℕ) : Prop :=
  ∀ k a, addrs[k]? = some a → tablesNeeded (σ.hasTable d) (addrs.take k) ≤ σ.freePages.length →
    a < recursiveAddr

/-- The page is that of one of the addresses. -/
def PageOf (addrs : List ℕ) (q : ℕ) : Prop := ∃ a ∈ addrs, a / pageSize = q

/-- The pages `W` are mapped, and the others are as they were. -/
structure Touched (σ σ' : Vmm) (dirs : ℕ → Prop) (d : ℕ) (W : ℕ → Prop) : Prop where
  dirs : Directories σ' dirs
  other : ∀ q, q < windowPage → ¬ W q → σ'.word d q = σ.word d q
  here : ∀ q, W q → present (σ'.word d q) = true

/-- `vmm_map` at each address, with the frame beside it, up to the first that fails. -/
def mapEach (r flags : ℕ) : List (ℕ × ℕ) → Vmm → Option (ℤ × Vmm)
  | [], σ => some (0, σ)
  | (va, pa) :: pages, σ => do
    let (status, σ) ← vmmMap r (u32 va) (u32 pa) flags σ
    if status < 0 then return (-1, σ)
    mapEach r flags pages σ

variable {σ σ' σ₁ : Vmm} {dirs : ℕ → Prop} {a b c d i k m n p q r v va vaA vaB pa w flags : ℕ}
  {addrs : List ℕ} {pages : List (ℕ × ℕ)} {W : ℕ → Prop} {status : ℤ} {call : AllocCall}

/-! ### Loops of `vmm_map` -/

theorem tablesNeeded_take_le (table : ℕ → Bool) (addrs : List ℕ) (k : ℕ) :
    tablesNeeded table (addrs.take k) ≤ tablesNeeded table addrs := by
  induction addrs generalizing table k with
  | nil => simp
  | cons a addrs ih =>
    cases k with
    | zero => exact Nat.zero_le _
    | succ k => exact Nat.add_le_add_left (ih _ k) _

/-- The account of one page that is mapped. -/
theorem tablesNeeded_mapped (hd : dirs d) (hm : Mapped σ σ₁ dirs d (a / pageSize) w) :
    σ.freePages.length + tablesNeeded (σ₁.hasTable d) addrs =
      tablesNeeded (σ.hasTable d) (a :: addrs) + σ₁.freePages.length := by
  have htab : σ₁.hasTable d =
      Function.update (σ.hasTable d) (a / pageSize / pageEntries) true := by
    funext k
    rw [hm.hasTable hd, Function.update_apply]
  rw [tablesNeeded, ← htab]
  rcases hm.cases with ⟨hold, hfree, -⟩ | ⟨hold, t, hfree, -⟩
  · rw [hold, if_pos rfl, hfree]
    omega
  · rw [hold, if_neg (by simp), hfree, List.length_cons]
    omega

theorem Touched.refl (h : Directories σ dirs) : Touched σ σ dirs d (PageOf []) :=
  ⟨h, fun _ _ _ => rfl, fun q hq => absurd hq (by simp [PageOf])⟩

/-- One page, then the others. -/
theorem Touched.cons (hd : dirs d) (ha : a / pageSize < windowPage)
    (hm : Mapped σ σ₁ dirs d (a / pageSize) (pageEntry pa flags))
    (ht : Touched σ₁ σ' dirs d (PageOf addrs)) : Touched σ σ' dirs d (PageOf (a :: addrs)) where
  dirs := ht.dirs
  other q hq hout := by
    have hne : q ≠ a / pageSize := fun he => hout ⟨a, List.mem_cons_self, he.symm⟩
    rw [ht.other q hq fun ⟨x, hx, hxq⟩ => hout ⟨x, List.mem_cons_of_mem a hx, hxq⟩,
      hm.word d q hd hq, if_neg fun hk => hne hk.2]
  here q hq := by
    by_cases hin : PageOf addrs q
    · exact ht.here q hin
    · obtain ⟨x, hx, rfl⟩ := hq
      rcases List.mem_cons.1 hx with rfl | hx
      · rw [ht.other _ ha hin, hm.word d _ hd ha, if_pos ⟨rfl, rfl⟩, present_pageEntry]
      · exact absurd ⟨x, hx, rfl⟩ hin

theorem Touched.congr (h : Touched σ σ₁ dirs d W) (hmem : σ'.mem = σ₁.mem) :
    Touched σ σ' dirs d W where
  dirs := h.dirs.congr fun _ _ => by rw [hmem]
  other q hq hout := by rw [Vmm.word, hmem]; exact h.other q hq hout
  here q hq := by rw [Vmm.word, hmem]; exact h.here q hq

theorem Filled.touched (h : Filled σ σ' dirs d p n) :
    Touched σ σ' dirs d fun q => p ≤ q ∧ q < p + n :=
  ⟨h.dirs, h.other, fun q hq => h.here q hq.1 hq.2⟩

/-- **A loop of `vmm_map` on the loaded region** maps its pages up to the first for which
there is no page table. -/
theorem mapEach_loaded (h : Spaces σ dirs) (hd : dirs (σ.region r).pgDir) (hl : Loaded σ r)
    (hbelow : MapsBelow σ (σ.region r).pgDir (pages.map Prod.fst)) :
    ∃ status σ' k, mapEach r flags pages σ = some (status, σ') ∧ SameDescriptors σ σ' ∧
      Touched σ σ' dirs (σ.region r).pgDir (PageOf ((pages.map Prod.fst).take k)) ∧
      tablesNeeded (σ.hasTable (σ.region r).pgDir) ((pages.map Prod.fst).take k) ≤
        σ.freePages.length ∧
      (status = 0 ∧ k = pages.length ∨ status = -1 ∧ k < pages.length ∧ σ.freePages.length <
        tablesNeeded (σ.hasTable (σ.region r).pgDir) ((pages.map Prod.fst).take (k + 1))) := by
  induction pages generalizing σ with
  | nil => exact ⟨0, σ, 0, rfl, .refl σ, .refl h.toDirectories, Nat.zero_le _, .inl ⟨rfl, rfl⟩⟩
  | cons x pages ih =>
    obtain ⟨va, pa⟩ := x
    have hmap : ((va, pa) :: pages).map Prod.fst = va :: pages.map Prod.fst := rfl
    have hva : va < recursiveAddr := hbelow 0 va rfl (Nat.zero_le _)
    have hu : u32 va = va := u32_of_lt (hva.trans (by decide))
    rcases vmmMap_loaded h hd hl hva (u32 pa) flags with ⟨hnone, hfree, hrun⟩ | ⟨σ₁, hrun, hm⟩
    · rw [← hu] at hrun
      refine ⟨-1, σ, 0, Option.bind_eq_some_iff.2 ⟨_, hrun, rfl⟩, .refl σ, .refl h.toDirectories,
        Nat.zero_le _, .inr ⟨rfl, Nat.succ_pos _, ?_⟩⟩
      simp [tablesNeeded, hnone, hfree]
    · have hreg := congrFun hm.same.region r
      have hacc : ∀ l, σ.freePages.length + tablesNeeded (σ₁.hasTable (σ.region r).pgDir) l =
          tablesNeeded (σ.hasTable (σ.region r).pgDir) (va :: l) + σ₁.freePages.length :=
        fun l => tablesNeeded_mapped hd hm
      have hbelow' : MapsBelow σ₁ (σ₁.region r).pgDir (pages.map Prod.fst) := by
        intro k a hk htried
        refine hbelow (k + 1) a hk ?_
        rw [hreg] at htried
        have := hacc ((pages.map Prod.fst).take k)
        rw [hmap, List.take_succ_cons]
        omega
      obtain ⟨status, σ', k, hrest, hs, ht, hneed, hend⟩ :=
        ih hm.spaces (hreg ▸ hd) (hl.of_same hm.same) hbelow'
      rw [hreg] at ht hneed hend
      rw [← hu] at hrun
      have hneed' := hacc ((pages.map Prod.fst).take k)
      have hnext := hacc ((pages.map Prod.fst).take (k + 1))
      refine ⟨status, σ', k + 1, Option.bind_eq_some_iff.2 ⟨_, hrun, hrest⟩, hm.same.trans hs, ?_,
        ?_, ?_⟩
      · rw [hmap, List.take_succ_cons]
        exact ht.cons hd (page_lt_windowPage hva) hm
      · rw [hmap, List.take_succ_cons]
        omega
      · rw [hmap, List.take_succ_cons, List.length_cons]
        omega

theorem allocPage_region (σ : Vmm) : σ.allocPage.2.region = σ.region := by
  rw [Vmm.allocPage]
  split <;> rfl

/-- `vmm_map` of one of two regions with one directory. -/
theorem vmmMap_alias (hb : (σ.region b).pgDir = (σ.region a).pgDir) :
    vmmMap b va pa flags σ = vmmMap a va pa flags σ := by
  simp only [vmmMap, vmmMapTable, Vmm.pde, allocPage_region, hb]

theorem rangeMaps_addrs : (rangeMaps va pa i n).map Prod.fst = rangeAddrs va i n := List.map_map

theorem sharedMaps_addrs : (sharedMaps vaA vaB pa i n).map Prod.fst = sharedAddrs vaA vaB i n :=
  List.map_flatMap

theorem vmmMapRangeFrom_eq :
    vmmMapRangeFrom r va pa flags n i σ = mapEach r flags (rangeMaps va pa i n) σ := by
  induction n generalizing i σ with
  | zero => rfl
  | succ n ih =>
    rw [rangeMaps, List.range'_succ, List.map_cons, mapEach, vmmMapRangeFrom, ← rangeMaps]
    simp only [ih]

theorem vmmMapSharedFrom_eq (hb : (σ.region b).pgDir = (σ.region a).pgDir) :
    vmmMapSharedFrom a b vaA vaB pa flags n i σ =
      mapEach a flags (sharedMaps vaA vaB pa i n) σ := by
  induction n generalizing i σ with
  | zero => rfl
  | succ n ih =>
    rw [sharedMaps, List.range'_succ, List.flatMap_cons, List.cons_append, List.cons_append,
      List.nil_append, ← sharedMaps, mapEach, vmmMapSharedFrom]
    refine Option.bind_congr fun o ho => ?_
    have hreg := (vmmMap_same ho).region
    dsimp only
    split
    · rfl
    · have hb' : (o.2.region b).pgDir = (o.2.region a).pgDir := by rw [hreg]; exact hb
      rw [mapEach, vmmMap_alias hb']
      refine Option.bind_congr fun o' ho' => ?_
      have hreg' := (vmmMap_same ho').region
      dsimp only
      split
      · rfl
      · exact ih (by rw [hreg']; exact hb')

/-! ### Mapping again what is mapped -/

/-- A page that is mapped is unmapped and mapped again: its word is written. -/
theorem remap_wrote (h : Spaces σ dirs) (hd : dirs (σ.region r).pgDir) (hl : Loaded σ r)
    (hva : va < recursiveAddr) (hp : present (σ.word (σ.region r).pgDir (va / pageSize)) = true) :
    ∃ σ₁ σ₂, vmmUnmap r va σ = some (0, σ₁) ∧ vmmMap r va pa flags σ₁ = some (0, σ₂) ∧
      Wrote σ σ₂ dirs (σ.region r).pgDir (va / pageSize) (pageEntry pa flags) := by
  have htab := hasTable_of_present hp
  rcases vmmUnmap_loaded h.toDirectories hd hl hva with ⟨hnone, -⟩ | ⟨-, σ₁, hunmap, hw⟩
  · exact absurd (hnone.symm.trans htab) (by simp)
  · have hreg := congrFun hw.same.region r
    have htable : ∀ k, σ₁.hasTable (σ.region r).pgDir k = σ.hasTable (σ.region r).pgDir k :=
      fun k => by rw [Vmm.hasTable, hw.dir _ hd, Vmm.hasTable]
    rcases vmmMap_loaded (hw.spaces h) (hreg ▸ hd) (hl.of_same hw.same) hva pa flags with
      ⟨hnone, -⟩ | ⟨σ₂, hmap, hm⟩
    · rw [hreg, htable, htab] at hnone
      exact absurd hnone (by simp)
    · rw [hreg] at hm
      obtain ⟨-, hfree, hlink⟩ := hm.cases.resolve_right fun hno =>
        absurd (hno.1.symm.trans ((htable _).trans htab)) (by simp)
      refine ⟨σ₁, σ₂, hunmap, hmap, hw.same.trans hm.same, hfree.trans hw.free, fun d' hd' => ?_,
        fun d' q hd' hq => ?_⟩
      · refine funext fun k => ?_
        by_cases hk : d' = (σ.region r).pgDir ∧ k = va / pageSize / pageEntries
        · rw [hk.1, hk.2, hlink, hw.dir _ hd]
        · rw [hm.dir d' k hd' hk, hw.dir d' hd']
      · rw [hm.word d' q hd' hq, hw.word d' q hd' hq]
        split <;> rfl

/-- The loop of `MAP_PHYSICAL` over pages that are mapped, with `m` more after them. -/
theorem vmmPagerRemapFrom_present (h : Spaces σ dirs) (hd : dirs (σ.region r).pgDir)
    (hl : Loaded σ r) (hle : va + (i + n) * pageSize ≤ recursiveAddr)
    (hp : ∀ q, va / pageSize + i ≤ q → q < va / pageSize + i + n →
      present (σ.word (σ.region r).pgDir q) = true) (m : ℕ) :
    ∃ σ₁, vmmPagerRemapFrom r va pa flags (n + m) i σ =
        vmmPagerRemapFrom r va pa flags m (i + n) σ₁ ∧ Spaces σ₁ dirs ∧ SameDescriptors σ σ₁ ∧
      σ₁.freePages = σ.freePages ∧ σ₁.mem (σ.region r).pgDir = σ.mem (σ.region r).pgDir ∧
      Filled σ σ₁ dirs (σ.region r).pgDir (va / pageSize + i) n := by
  induction n generalizing i σ with
  | zero =>
    refine ⟨σ, by rw [Nat.zero_add, Nat.add_zero], h, .refl σ, rfl, rfl, h.toDirectories,
      fun _ _ _ => rfl, fun q hlo hhi => absurd hhi (by omega)⟩
  | succ n ih =>
    obtain ⟨hlt, hpage, hle'⟩ := range_page hle
    have hfirst := hp (va / pageSize + i) le_rfl (by omega)
    rw [← hpage] at hfirst
    obtain ⟨σ₁, σ₂, hunmap, hmap, hw⟩ : ∃ σ₁ σ₂, _ ∧ vmmMap r (u32 (va + i * pageSize))
        (u32 (pa + i * pageSize)) flags σ₁ = some (0, σ₂) ∧ Wrote σ σ₂ dirs _ _ _ :=
      remap_wrote h hd hl hlt hfirst
    rw [hpage] at hw
    have hreg := congrFun hw.same.region r
    have hin : ∀ q, va / pageSize + i ≤ q → q < va / pageSize + i + (n + 1) → q < windowPage :=
      fun q _ hq => page_lt_of_range hle hq
    have hword : ∀ q, q < windowPage → σ₂.word (σ.region r).pgDir q =
        if q = va / pageSize + i then pageEntry (u32 (pa + i * pageSize)) flags
        else σ.word (σ.region r).pgDir q := fun q hq => by
      rw [hw.word _ q hd hq]
      exact if_congr (and_iff_right rfl) rfl rfl
    have hp' : ∀ q, va / pageSize + (i + 1) ≤ q → q < va / pageSize + (i + 1) + n →
        present (σ₂.word (σ₂.region r).pgDir q) = true := fun q hlo hhi => by
      rw [hreg, hword q (hin q (by omega) (by omega)), if_neg (by omega)]
      exact hp q (by omega) (by omega)
    obtain ⟨σ₃, hrest, hspaces, hs, hfree, hmem, hfilled⟩ :=
      ih (hw.spaces h) (hreg ▸ hd) (hl.of_same hw.same) hle' hp'
    rw [hreg] at hmem hfilled
    refine ⟨σ₃, ?_, hspaces, hw.same.trans hs, hfree.trans hw.free,
      hmem.trans (hw.dir _ hd), hfilled.dirs, fun q hq hout => ?_, fun q hlo hhi => ?_⟩
    · rw [Nat.add_right_comm n 1 m, vmmPagerRemapFrom, hunmap]
      dsimp only [Option.bind_eq_bind, Option.bind_some]
      rw [hmap]
      dsimp only [Option.bind_some]
      rw [if_neg (by simp), hrest, Nat.add_right_comm i 1 n, Nat.add_assoc i n 1]
    · rw [hfilled.other q hq (by omega), hword q hq, if_neg (by omega)]
    · rcases Nat.lt_or_ge (va / pageSize + i) q with hlt' | hge
      · exact hfilled.here q (by omega) (by omega)
      · rw [hfilled.other q (hin q hlo hhi) (by omega), hword q (hin q hlo hhi), if_pos (by omega),
          present_pageEntry]

/-! ### The other users of a region -/

/-- The pages `p` to `p + m` of the region may have changed, the others are as they were. -/
structure Around (σ σ' : Vmm) (dirs : ℕ → Prop) (r p m : ℕ) : Prop where
  dirs : Directories σ' dirs
  currentPgDir : σ'.currentPgDir = σ.currentPgDir
  pgDir : (σ'.region r).pgDir = (σ.region r).pgDir
  other : ∀ q, q < windowPage → ¬ (p ≤ q ∧ q < p + m) →
    σ'.word (σ.region r).pgDir q = σ.word (σ.region r).pgDir q

theorem Around.refl (h : Directories σ dirs) : Around σ σ dirs r p m :=
  ⟨h, rfl, rfl, fun _ _ _ => rfl⟩

theorem Filled.around (h : Filled σ σ' dirs (σ.region r).pgDir p m) (hs : SameDescriptors σ σ') :
    Around σ σ' dirs r p m := ⟨h.dirs, hs.currentPgDir, hs.pgDir r, h.other⟩

theorem Emptied.around (h : Emptied σ σ' dirs (σ.region r).pgDir p m) (hs : SameDescriptors σ σ') :
    Around σ σ' dirs r p m := ⟨h.dirs, hs.currentPgDir, hs.pgDir r, h.other⟩

/-- Memory is as it was, and so are the directories that the region and CR3 name. -/
theorem Around.congr (h : Around σ σ₁ dirs r p m) (hmem : σ'.mem = σ₁.mem)
    (hcur : σ'.currentPgDir = σ₁.currentPgDir) (hdir : (σ'.region r).pgDir = (σ₁.region r).pgDir) :
    Around σ σ' dirs r p m where
  dirs := h.dirs.congr fun _ _ => by rw [hmem]
  currentPgDir := hcur.trans h.currentPgDir
  pgDir := hdir.trans h.pgDir
  other q hq hout := by rw [Vmm.word, hmem]; exact h.other q hq hout

theorem SamePages.around (hs : SamePages σ σ₁) (h : Around σ₁ σ' dirs r p m) :
    Around σ σ' dirs r p m where
  dirs := h.dirs
  currentPgDir := h.currentPgDir.trans hs.currentPgDir
  pgDir := h.pgDir.trans (by rw [hs.region])
  other q hq hout := by
    have hword := h.other q hq hout
    rw [hs.region] at hword
    rw [hword, Vmm.word, hs.mem, Vmm.word]

theorem mapUnchecked_around (h : Spaces σ dirs) (hd : dirs (σ.region r).pgDir) (hl : Loaded σ r)
    (hbelow : TriedBelow σ (σ.region r).pgDir va 0 n) {finish : Vmm → Vmm} {fail : ℕ}
    (hfinish : ∀ σ, (finish σ).mem = σ.mem ∧ (finish σ).freePages = σ.freePages ∧
      (finish σ).currentPgDir = σ.currentPgDir ∧ ((finish σ).region r).pgDir = (σ.region r).pgDir)
    (hrun : mapUnchecked r va flags n fail finish σ = some (v, σ')) :
    ∃ m ≤ n, pagesNeeded (σ.hasTable (σ.region r).pgDir) (va / pageSize) m ≤ σ.freePages.length ∧
      Around σ σ' dirs r (va / pageSize) m := by
  obtain ⟨m, hmn, hneed, ⟨-, ⟨σ₁, rfl, hs, hfilled⟩, -⟩ | ⟨-, -, hs, hemptied⟩⟩ :=
    mapUnchecked_tried h hd hl hbelow hrun
  · obtain ⟨hmem, -, hcur, hdir⟩ := hfinish σ₁
    exact ⟨m, hmn, hneed, (hfilled.around hs).congr hmem hcur hdir⟩
  · exact ⟨m, hmn, hneed, hemptied.around hs⟩

theorem kmalloc_samePages (σ : Vmm) : SamePages σ σ.kmalloc.2 := by
  rw [Vmm.kmalloc]
  split <;> exact ⟨rfl, rfl, rfl, rfl⟩

theorem SamePages.trans {σ'' : Vmm} (h : SamePages σ σ') (h' : SamePages σ' σ'') : SamePages σ σ'' :=
  ⟨h'.mem.trans h.mem, h'.freePages.trans h.freePages, h'.currentPgDir.trans h.currentPgDir,
    h'.region.trans h.region⟩

theorem samePages_setArea (x : Area) (σ : Vmm) : SamePages σ (σ.setArea p x) := ⟨rfl, rfl, rfl, rfl⟩

theorem samePages_setClass (x : AllocClass) (σ : Vmm) : SamePages σ (σ.setClass c x) :=
  ⟨rfl, rfl, rfl, rfl⟩

theorem vmmInsertArea_samePages {start size : ℕ}
    (hrun : vmmInsertArea c start size σ = some (status, σ')) : SamePages σ σ' := by
  have hmalloc := kmalloc_samePages σ
  unfold vmmInsertArea at hrun
  split at hrun
  · next σ₁ hk =>
    rw [hk] at hmalloc
    obtain ⟨-, rfl⟩ := Prod.mk.inj (Option.some.inj hrun)
    exact hmalloc
  · next newArea σ₁ hk =>
    rw [hk] at hmalloc
    have harea := hmalloc.trans (samePages_setArea (p := newArea) ⟨start, size, none, none⟩ σ₁)
    dsimp only at hrun
    split at hrun
    · obtain ⟨-, rfl⟩ := Prod.mk.inj (Option.some.inj hrun)
      exact harea.trans (samePages_setClass _ _)
    · split at hrun
      · obtain ⟨-, rfl⟩ := Prod.mk.inj (Option.some.inj hrun)
        exact ((harea.trans (samePages_setArea _ _)).trans (samePages_setArea _ _)).trans
          (samePages_setClass _ _)
      · obtain ⟨iter, -, hrun⟩ := Option.bind_eq_some_iff.1 hrun
        obtain ⟨-, rfl⟩ := Prod.mk.inj (Option.some.inj hrun)
        split
        · exact ((harea.trans (samePages_setArea _ _)).trans (samePages_setArea _ _)).trans
            (samePages_setArea _ _)
        · exact (((harea.trans (samePages_setArea _ _)).trans (samePages_setArea _ _)).trans
            (samePages_setArea _ _)).trans (samePages_setArea _ _)

theorem vmmRemoveArea_samePages {start : ℕ} (hrun : vmmRemoveArea c start σ = some σ') :
    SamePages σ σ' := by
  obtain ⟨o, -, hrun⟩ := Option.bind_eq_some_iff.1 hrun
  cases o with
  | none =>
    obtain rfl := Option.some.inj hrun
    exact ⟨rfl, rfl, rfl, rfl⟩
  | some iter =>
    obtain rfl := Option.some.inj hrun
    split <;> split <;> exact ⟨rfl, rfl, rfl, rfl⟩

/-- `vmm_class_alloc` changes pages in `vmm_map_pages` only. -/
theorem vmmClassAlloc_around (h : Spaces σ dirs) (hd : dirs (σ.region r).pgDir) (hl : Loaded σ r)
    {type : VmClass} (hget : vmmClassGet r type σ = some (some c))
    (hfind : vmmFindFit c (u32 (n * pageSize)) σ = some va) (hva : va ≠ 0)
    (hbelow : TriedBelow σ (σ.region r).pgDir va 0 n)
    (hrun : vmmClassAlloc r type n σ = some (v, σ')) :
    ∃ m ≤ n, pagesNeeded (σ.hasTable (σ.region r).pgDir) (va / pageSize) m ≤ σ.freePages.length ∧
      Around σ σ' dirs r (va / pageSize) m := by
  have hcall := (congrArg (Option.bind · _) hget).symm.trans hrun
  have hcall := (congrArg (Option.bind · _) hfind).symm.trans hcall
  dsimp only [Option.bind_some] at hcall
  rw [if_neg hva] at hcall
  obtain ⟨⟨status, σ₁⟩, hinsert, hcall⟩ := Option.bind_eq_some_iff.1 hcall
  have hs := vmmInsertArea_samePages hinsert
  dsimp only at hcall
  split at hcall
  · obtain ⟨-, rfl⟩ := Prod.mk.inj (Option.some.inj hcall)
    exact ⟨0, Nat.zero_le n, Nat.zero_le _, hs.around (.refl (hs.spaces h).toDirectories)⟩
  · have hbelow₁ : TriedBelow σ₁ (σ₁.region r).pgDir va 0 n := by
      rw [TriedBelow, hs.hasTable, hs.freePages, hs.region]
      exact hbelow
    obtain ⟨status₂, σ₂, hmap, hs₂, m, hmn, hneed, hcase⟩ :=
      vmmMapPages_tried (hs.spaces h) (hs.region ▸ hd) (hs.loaded hl) hbelow₁ c
    rw [hs.hasTable, hs.freePages, hs.region] at hneed
    have haround : Around σ σ₂ dirs r (va / pageSize) m :=
      hs.around (hcase.elim (fun hc => hc.2.2.around hs₂) fun hc => hc.2.around hs₂)
    have hcall := (congrArg (Option.bind · _) hmap).symm.trans hcall
    dsimp only [Option.bind_some] at hcall
    refine ⟨m, hmn, hneed, ?_⟩
    split at hcall
    · obtain ⟨σ₃, hremove, hcall⟩ := Option.bind_eq_some_iff.1 hcall
      obtain ⟨-, rfl⟩ := Prod.mk.inj (Option.some.inj hcall)
      have hs₃ := vmmRemoveArea_samePages hremove
      exact haround.congr hs₃.mem hs₃.currentPgDir (by rw [hs₃.region])
    · obtain ⟨-, rfl⟩ := Prod.mk.inj (Option.some.inj hcall)
      exact haround.congr rfl rfl rfl

/-- **An allocation by another user** changes no page but those of its range that it comes to
before the free pages run out. -/
theorem AllocCall.around (h : Spaces σ dirs) (hd : dirs (σ.region r).pgDir) (hl : Loaded σ r)
    (htarget : call.target r σ = some (some va))
    (hbelow : TriedBelow σ (σ.region r).pgDir va 0 call.pages) (hrun : call.run r σ = some (v, σ')) :
    ∃ m ≤ call.pages,
      pagesNeeded (σ.hasTable (σ.region r).pgDir) (va / pageSize) m ≤ σ.freePages.length ∧
      Around σ σ' dirs r (va / pageSize) m := by
  cases call with
  | alloc n flags =>
    obtain ⟨-, -, hcall⟩ := alloc_target htarget
    exact mapUnchecked_around h hd hl hbelow (finish_setNextFreeVa _) (hcall.symm.trans hrun)
  | mapAnonymous n flags =>
    obtain ⟨va', hfind, hva⟩ := Option.map_eq_some_iff.1 htarget
    obtain ⟨rfl, hva⟩ := nonNull_eq_some.1 hva
    obtain ⟨w, σ'', hcall, hs, m, hmn, hneed, hcase⟩ :=
      vmmMapAnonymous_tried h hd hl hbelow hfind hva flags
    obtain ⟨-, rfl⟩ := Prod.mk.inj (Option.some.inj (hrun.symm.trans hcall))
    exact ⟨m, hmn, hneed, hcase.elim (fun hc => hc.2.2.around hs) fun hc => hc.2.2.around hs⟩
  | allocStack n flags =>
    obtain ⟨base, -, -, rfl, hcall⟩ := allocStack_target htarget
    exact mapUnchecked_around h hd hl hbelow (finish_raiseNext _) (hcall.symm.trans hrun)
  | allocAligned n alignment flags =>
    obtain ⟨-, -, hcall⟩ := allocAligned_target htarget
    exact mapUnchecked_around h hd hl hbelow (finish_raiseNext _) (hcall.symm.trans hrun)
  | classAlloc type n =>
    obtain ⟨o, hget, hfind⟩ := Option.bind_eq_some_iff.1 htarget
    cases o with
    | none => exact absurd hfind (by simp)
    | some c =>
      obtain ⟨va', hfound, hva⟩ := Option.map_eq_some_iff.1 hfind
      obtain ⟨rfl, hva⟩ := nonNull_eq_some.1 hva
      exact vmmClassAlloc_around h hd hl hget hfound hva hbelow hrun

end Flopperating
