/-
# Growing a mapping

The loop of `sys_mmap` and of an expanding `sys_mremap`: a new page for every page of the
range, and a rollback when there is none.  Which pages it hands out depends on the free
pages and on the page tables there are (`framesTaken`); so does how it ends
(`sysGrowFrom_spec`).
-/

import Flopperating.Sys.MemoryLoops

namespace Flopperating

open Vmm TwoLevel

variable {σ σ' σ₁ : Vmm} {dirs : ℕ → Prop} {d i j k m n p q r t va pa w start flags off : ℕ} {frames free : List ℕ}
  {data : ℕ → ℕ → ℕ}

/-- The pages that the loop maps, from the free ones, at `p, p + 1, ...`: a page for data and,
where there is none, one for the page table. -/
def framesTaken (table : ℕ → Bool) (p : ℕ) : ℕ → List ℕ → List ℕ
  | 0, _ => []
  | _ + 1, [] => []
  | n + 1, pa :: free =>
    if table (p / pageEntries) then pa :: framesTaken table (p + 1) n free
    else if free = [] then []
    else pa :: framesTaken (Function.update table (p / pageEntries) true) (p + 1) n free.tail

theorem le_pagesNeeded (table : ℕ → Bool) (p n : ℕ) : n ≤ pagesNeeded table p n := by
  induction n generalizing table p with
  | zero => exact Nat.zero_le _
  | succ n ih =>
    have := ih (Function.update table (p / pageEntries) true) (p + 1)
    rw [pagesNeeded]
    omega

theorem framesTaken_length (table : ℕ → Bool) (p n : ℕ) (free : List ℕ) :
    (framesTaken table p n free).length ≤ min n free.length := by
  induction n generalizing table p free with
  | zero => exact Nat.zero_le _
  | succ n ih =>
    rcases free with - | ⟨pa, free⟩
    · exact Nat.zero_le _
    · rw [framesTaken, List.length_cons]
      split
      · have := ih table (p + 1) free
        rw [List.length_cons]
        omega
      · split
        · exact Nat.zero_le _
        · have := ih (Function.update table (p / pageEntries) true) (p + 1) free.tail
          rw [List.length_tail] at this
          rw [List.length_cons]
          omega

/-! ### New pages -/

/-- What a page that is no directory and no table holds is not seen. -/
theorem word_plain (hplain : σ.Plain dirs pa) (hd : dirs d) (hq : q < windowPage) (x : ℕ → ℕ) :
    ({ σ with mem := Function.update σ.mem pa x } : Vmm).word d q = σ.word d q := by
  refine entry_congr (fun a ha => ?_) hd (div_lt_of_window hq)
  exact Function.update_of_ne (fun he : a = pa => ha (he ▸ hplain)) _ _

theorem dir_plain (hplain : σ.Plain dirs pa) (hd : dirs d) (x : ℕ → ℕ) :
    ({ σ with mem := Function.update σ.mem pa x } : Vmm).mem d = σ.mem d :=
  Function.update_of_ne (fun he : d = pa => hplain.1 (he ▸ hd)) _ _

/-- A page is taken and filled. -/
theorem Spaces.fill (h : Spaces σ dirs) (hplain : σ.Plain dirs pa) (x : ℕ → ℕ) :
    Spaces { σ with mem := Function.update σ.mem pa x } dirs :=
  h.congr (fun _ ha => dir_plain hplain ha x) rfl

/-- `vmm_map` after the page was filled. -/
theorem Mapped.of_fill {x : ℕ → ℕ} (hplain : σ.Plain dirs pa) (hd : dirs d)
    (h : Mapped { σ with mem := Function.update σ.mem pa x } σ' dirs d p w) : Mapped σ σ' dirs d p w where
  spaces := h.spaces
  same := ⟨h.same.1, h.same.2, h.same.3, h.same.4, h.same.5, h.same.6, h.same.7⟩
  dir d' i hd' hne := (h.dir d' i hd' hne).trans (congrFun (dir_plain hplain hd' x) i)
  here := h.here
  cases := by
    rw [Vmm.hasTable, ← congrFun (dir_plain hplain hd x) (p / pageEntries)]
    exact h.cases
  plain u hu hpu := h.plain u hu (hpu.congr fun _ ha => dir_plain hplain ha x)
  word d' q hd' hq := by
    rw [h.word d' q hd' hq]
    split
    · rfl
    · exact word_plain hplain hd' hq x

/-- The pages `p, p + 1, ...` of directory `d` are mapped to `frames`, and only page tables
that were missing for them have been made. -/
structure Grown (σ σ' : Vmm) (dirs : ℕ → Prop) (d p flags : ℕ) (frames : List ℕ) : Prop
    extends FreshRun σ σ' dirs d p flags frames where
  entry : ∀ k, (σ.hasTable d k = true ∨ ∀ j < frames.length, (p + j) / pageEntries ≠ k) →
    σ'.mem d k = σ.mem d k

theorem Grown.nil (h : Spaces σ dirs) : Grown σ σ dirs d p flags [] :=
  ⟨.nil h, fun _ _ => rfl⟩

/-- A page was taken and filled, and not mapped. -/
theorem Grown.of_fill (h : Spaces σ dirs) (hd : dirs d) (hfree : σ.freePages = pa :: free) (x : ℕ → ℕ) :
    Grown σ { σ with freePages := free, mem := Function.update σ.mem pa x } dirs d p flags [] := by
  obtain ⟨htake, -, -, hplain⟩ := h.take hfree
  have hspaces : Spaces { σ with freePages := free, mem := Function.update σ.mem pa x } dirs := htake.fill hplain x
  refine ⟨⟨hspaces, ⟨rfl, rfl, rfl, rfl, rfl, rfl, rfl⟩, fun _ hd' _ => dir_plain hplain hd' x,
    fun _ _ hd' _ hq => word_plain hplain hd' hq x, fun _ hq _ => word_plain hplain hd hq x, by simp, by simp,
    fun k hk => ?_, List.nodup_nil, by simp, ?_, fun u _ hpu => hpu.congr fun _ ha => dir_plain hplain ha x⟩,
    fun k _ => congrFun (dir_plain hplain hd x) k⟩
  · rw [Vmm.hasTable]
    exact (congrArg present (congrFun (dir_plain hplain hd x) k)).trans hk
  · rw [hfree]
    exact List.sublist_cons_self pa free

theorem Grown.cons (h : Spaces σ dirs) (hd : dirs d) (hp : p + frames.length < windowPage)
    (hfree : σ.freePages = pa :: free)
    (hm : Mapped { σ with freePages := free } σ₁ dirs d p (pageEntry pa flags))
    (hg : Grown σ₁ σ' dirs d (p + 1) flags frames) : Grown σ σ' dirs d p flags (pa :: frames) where
  toFreshRun := .cons h hd hp hfree hm hg.toFreshRun
  entry k hk := by
    have hone : σ₁.mem d k = σ.mem d k := by
      rcases eq_or_ne k (p / pageEntries) with rfl | hne
      · have htable := hk.resolve_right fun hnone => hnone 0 (by simp) (by rw [Nat.add_zero])
        rcases hm.cases with ⟨-, -, hsame⟩ | ⟨hnone, -⟩
        · exact hsame
        · exact absurd (htable.symm.trans hnone) (by simp)
      · exact hm.dir d k hd fun hk => hne hk.2
    refine (hg.entry k ?_).trans hone
    rcases hk with htable | hnone
    · exact .inl (by rw [Vmm.hasTable, hone]; exact htable)
    · refine .inr fun j hj => ?_
      rw [Nat.add_assoc, Nat.add_comm 1 j]
      exact hnone (j + 1) (by rw [List.length_cons]; omega)

/-! ### The loop -/

/-- How the loop ends that has mapped `frames` from page `i` on, of `n`: everything is
mapped, or a page is missing for data, or one for a page table, after a page was taken. -/
inductive GrowEnds (σ σ' : Vmm) (r start d p i n : ℕ) (frames : List ℕ) : Option (ℤ × Vmm) → Prop
  | done : frames.length = n → GrowEnds σ σ' r start d p i n frames (some (0, σ'))
  | noPage : frames.length < n → σ'.freePages = [] →
      σ.freePages.length = pagesNeeded (σ.hasTable d) p frames.length →
      GrowEnds σ σ' r start d p i n frames ((sysFreeFrom r start (i + frames.length) 0 σ').map fun σ => (-1, σ))
  | lastTable : frames.length + 1 = n → σ'.hasTable d ((p + frames.length) / pageEntries) = false →
      σ.freePages.length = pagesNeeded (σ.hasTable d) p frames.length + 1 →
      GrowEnds σ σ' r start d p i n frames (some (0, σ'))
  | noTable : frames.length + 1 < n → σ'.freePages = [] →
      σ'.hasTable d ((p + frames.length) / pageEntries) = false →
      σ.freePages.length = pagesNeeded (σ.hasTable d) p frames.length + 1 →
      GrowEnds σ σ' r start d p i n frames ((sysFreeFrom r start (i + frames.length + 1) 0 σ').map fun σ => (-1, σ))

theorem rollback_eq (hfit : start + i * pageSize < 2 ^ 32) :
    sysMmapInternalRb r start (u32 (start + i * pageSize)) σ = sysFreeFrom r start i 0 σ := by
  have hpages : pagesBetween start (start + i * pageSize) = i := by
    rw [pagesBetween, Nat.add_sub_cancel_left]
    simp only [pageSize]
    omega
  rw [sysMmapInternalRb, u32_of_lt hfit, hpages]

/-- One round of the loop, after a page was taken and filled: it was the last one and the
table is missing, or the page is mapped. -/
theorem vmmMap_round (h : Spaces σ dirs) (hd : dirs (σ.region r).pgDir) (hl : Loaded σ r)
    (hbelow : va / pageSize < windowPage) (hfree : σ.freePages = pa :: free) (x : ℕ → ℕ) (flags : ℕ) :
    (free = [] ∧ σ.hasTable (σ.region r).pgDir (va / pageSize / pageEntries) = false ∧
      vmmMap r va pa flags { σ with freePages := free, mem := Function.update σ.mem pa x } =
        some (-1, { σ with freePages := [], mem := Function.update σ.mem pa x })) ∨
    ∃ σ₁, Mapped { σ with freePages := free } σ₁ dirs (σ.region r).pgDir (va / pageSize) (pageEntry pa flags) ∧
      vmmMap r va pa flags { σ with freePages := free, mem := Function.update σ.mem pa x } = some (0, σ₁) := by
  obtain ⟨h₁, -, -, hplain⟩ := h.take hfree
  rcases vmmMap_loaded (σ := { σ with freePages := free, mem := Function.update σ.mem pa x })
      (h₁.fill hplain x) hd hl (lt_recursiveAddr_of_page hbelow) pa flags with
    ⟨hnone, hempty, hrun⟩ | ⟨σ₁, hrun, hm⟩
  · obtain rfl : free = [] := hempty
    exact .inl ⟨rfl, (congrArg present (congrFun (dir_plain hplain hd x) _)).symm.trans hnone, hrun⟩
  · exact .inr ⟨σ₁, .of_fill (σ := { σ with freePages := free }) hplain hd hm, hrun⟩

/-- One round of the loop. -/
theorem sysGrowFrom_step (data : ℕ → ℕ → ℕ) (flags : ℕ) (h : Spaces σ dirs) (hd : dirs (σ.region r).pgDir)
    (hl : Loaded σ r) (hfit : start + (i + (n + 1)) * pageSize < 2 ^ 32)
    (hbelow : σ.freePages ≠ [] → start / pageSize + i < windowPage) :
    (σ.freePages = [] ∧ sysGrowFrom data r start flags (n + 1) i σ =
      (sysFreeFrom r start i 0 σ).map fun σ => (-1, σ)) ∨
    ∃ pa free, σ.freePages = pa :: free ∧
      ((free = [] ∧ σ.hasTable (σ.region r).pgDir ((start / pageSize + i) / pageEntries) = false ∧
        sysGrowFrom data r start flags (n + 1) i σ = sysGrowFrom data r start flags n (i + 1)
          { σ with freePages := [], mem := Function.update σ.mem pa (data i) }) ∨
      ∃ σ₁, Mapped { σ with freePages := free } σ₁ dirs (σ.region r).pgDir (start / pageSize + i)
          (pageEntry pa flags) ∧
        sysGrowFrom data r start flags (n + 1) i σ = sysGrowFrom data r start flags n (i + 1) σ₁) := by
  obtain ⟨hva, hlt, hpage, -, -⟩ := range_fits hfit
  rcases hfree : σ.freePages with - | ⟨pa, free⟩
  · refine .inl ⟨rfl, ?_⟩
    rw [sysGrowFrom, Vmm.allocPage, hfree]
    simp only [if_true]
    rw [rollback_eq hlt]
  · obtain ⟨-, -, hpa0, -⟩ := h.take hfree
    have hbelow := hbelow (by rw [hfree]; exact List.cons_ne_nil _ _)
    have hstep : sysGrowFrom data r start flags (n + 1) i σ =
        (vmmMap r (start + i * pageSize) pa flags
          { σ with freePages := free, mem := Function.update σ.mem pa (data i) }).bind fun o =>
            sysGrowFrom data r start flags n (i + 1) o.2 := by
      rw [sysGrowFrom, Vmm.allocPage, hfree, hva]
      simp only [hpa0, if_false]
    refine .inr ⟨pa, free, rfl, ?_⟩
    rw [hstep, ← hpage]
    refine (vmmMap_round h hd hl (by rw [hpage]; exact hbelow) hfree (data i) flags).imp ?_ ?_
    · rintro ⟨hnil, hnone, hrun⟩
      exact ⟨hnil, hnone, by rw [hrun]; rfl⟩
    · rintro ⟨σ₁, hm, hrun⟩
      exact ⟨σ₁, hm, by rw [hrun]; rfl⟩

/-- The pages that are left for the other rounds. -/
theorem framesTaken_mapped (hd : dirs d) (hfree : σ.freePages = pa :: free)
    (hm : Mapped { σ with freePages := free } σ₁ dirs d p w) : framesTaken (σ.hasTable d) p (n + 1) σ.freePages =
      pa :: framesTaken (σ₁.hasTable d) (p + 1) n σ₁.freePages := by
  have htab : σ₁.hasTable d = Function.update (σ.hasTable d) (p / pageEntries) true := by
    funext k
    rw [hm.hasTable hd, Function.update_apply]
    rfl
  rw [hfree, framesTaken, htab]
  rcases hm.cases with ⟨hold, hf, -⟩ | ⟨hold, t, hf, -⟩
  · have hold : σ.hasTable d (p / pageEntries) = true := hold
    have hf : σ₁.freePages = free := hf
    rw [if_pos hold, hf, ← hold, Function.update_eq_self]
  · have hold : σ.hasTable d (p / pageEntries) = false := hold
    have hf : free = t :: σ₁.freePages := hf
    rw [if_neg (by rw [hold]; simp), hf, if_neg (List.cons_ne_nil _ _), List.tail_cons]

/-- **The loop on the loaded region**, below the window. -/
theorem sysGrowFrom_spec (data : ℕ → ℕ → ℕ) (flags : ℕ) (h : Spaces σ dirs) (hd : dirs (σ.region r).pgDir) (hl : Loaded σ r)
    (hfit : start + (i + n) * pageSize < 2 ^ 32)
    (hbelow : start / pageSize + i + min n σ.freePages.length ≤ windowPage) :
    ∃ σ', Grown σ σ' dirs (σ.region r).pgDir (start / pageSize + i) flags
        (framesTaken (σ.hasTable (σ.region r).pgDir) (start / pageSize + i) n σ.freePages) ∧
      GrowEnds σ σ' r start (σ.region r).pgDir (start / pageSize + i) i n
        (framesTaken (σ.hasTable (σ.region r).pgDir) (start / pageSize + i) n σ.freePages)
        (sysGrowFrom data r start flags n i σ) := by
  induction n generalizing i σ with
  | zero => exact ⟨σ, .nil h, .done rfl⟩
  | succ n ih =>
    obtain ⟨-, -, -, -, hfit'⟩ := range_fits hfit
    have hpos : σ.freePages ≠ [] → start / pageSize + i < windowPage := fun hne => by
      have := List.length_pos_iff.2 hne
      omega
    rcases sysGrowFrom_step data flags h hd hl hfit hpos with
      ⟨hfree, hrun⟩ | ⟨pa, free, hfree, ⟨rfl, hnone, hrun⟩ | ⟨σ₁, hm, hrun⟩⟩
    · rw [hrun, hfree, framesTaken]
      exact ⟨σ, .nil h, .noPage (Nat.succ_pos n) hfree (by rw [hfree]; rfl)⟩
    · have hg : Grown σ _ dirs (σ.region r).pgDir (start / pageSize + i) flags [] :=
        .of_fill h hd hfree (data i)
      rw [hrun, hfree, framesTaken, if_neg (by rw [hnone]; simp), if_pos rfl]
      refine ⟨_, hg, ?_⟩
      have hnone' : ({ σ with freePages := [], mem := Function.update σ.mem pa (data i) } : Vmm).hasTable
          (σ.region r).pgDir ((start / pageSize + i) / pageEntries) = false := by
        rw [Vmm.hasTable]
        exact (congrArg present (hg.entry _ (.inr (by simp)))).trans hnone
      rcases n with - | n
      · exact .lastTable rfl hnone' (by rw [hfree]; rfl)
      · rcases sysGrowFrom_step data flags
            (σ := { σ with freePages := [], mem := Function.update σ.mem pa (data i) }) hg.spaces hd hl hfit'
            (fun hne => absurd rfl hne) with ⟨-, hrun'⟩ | ⟨pa', free', hcons, -⟩
        · rw [hrun']
          exact .noTable (by simp) rfl hnone' (by rw [hfree]; rfl)
        · exact absurd hcons (by simp)
    · obtain ⟨htake, -, -, -⟩ := h.take hfree
      have hreg : σ₁.region r = σ.region r := congrFun hm.same.region r
      have hl₁ : Loaded σ₁ r := hl.of_same hm.same.of_free
      have hsub : σ₁.freePages.length ≤ free.length := hm.free_sublist.length_le
      have hlen : σ.freePages.length = free.length + 1 := by rw [hfree, List.length_cons]
      obtain ⟨σ', hg, hends⟩ := ih (σ := σ₁) hm.spaces (by rw [hreg]; exact hd) hl₁ hfit' (by omega)
      rw [hreg, ← Nat.add_assoc] at hg hends
      rw [hrun, framesTaken_mapped hd hfree hm]
      have htaken := framesTaken_length (σ₁.hasTable (σ.region r).pgDir) (start / pageSize + i + 1) n σ₁.freePages
      generalize framesTaken (σ₁.hasTable (σ.region r).pgDir) (start / pageSize + i + 1) n σ₁.freePages = frames
        at hg hends htaken
      refine ⟨σ', .cons h hd (by omega) hfree hm hg, ?_⟩
      have hindex : i + 1 + frames.length = i + (pa :: frames).length := by
        rw [List.length_cons]
        omega
      have hpage : start / pageSize + i + 1 + frames.length = start / pageSize + i + (pa :: frames).length := by
        rw [List.length_cons]
        omega
      have hacc := pagesNeeded_mapped (n := frames.length) hd hfree hm
      generalize sysGrowFrom data r start flags n (i + 1) σ₁ = res at hends
      cases hends with
      | done hall => exact .done (by rw [List.length_cons, hall])
      | noPage hshort hnil hcount =>
        rw [hindex]
        exact .noPage (Nat.succ_lt_succ hshort) hnil (by rw [List.length_cons]; omega)
      | lastTable hlast hnone hcount =>
        rw [hpage] at hnone
        exact .lastTable (by rw [List.length_cons, hlast]) hnone (by rw [List.length_cons]; omega)
      | noTable hshort hnil hnone hcount =>
        rw [hpage] at hnone
        rw [hindex]
        exact .noTable (Nat.succ_lt_succ hshort) hnil hnone (by rw [List.length_cons]; omega)

/-! ### The rollback -/

theorem maskLow_pageEntry_or (pa flags : ℕ) :
    maskLow (pageEntry pa flags) pageSize = maskLow pa pageSize ||| maskLow flags pageSize := by
  rw [pageEntry, maskLow_or, maskLow_or, maskLow_maskLow, maskLow_of_lt (x := pagePresent) (by decide), Nat.or_zero]

theorem maskLow_pageEntry_pos (hpa : 0 < pa ∧ pageSize ∣ pa) (flags : ℕ) : 0 < maskLow (pageEntry pa flags) pageSize := by
  rw [maskLow_pageEntry_or, maskLow_of_dvd hpa.2]
  exact hpa.1.trans_le Nat.left_le_or

/-- A page that the loop has mapped resolves. -/
theorem resolves_of_mapped (hword : σ.word d q = pageEntry pa flags) (hpa : 0 < pa ∧ pageSize ∣ pa) (off : ℕ) :
    Resolves σ d off q := by
  rw [Resolves, hword]
  exact ⟨present_pageEntry pa flags, ((maskLow_pageEntry_pos hpa flags).trans_le Nat.left_le_or).ne'⟩

theorem freedPages_of_mapped {word : ℕ → ℕ} (hframes : ∀ f ∈ frames, 0 < f ∧ pageSize ∣ f)
    (hword : ∀ j f, frames[j]? = some f → word (p + j) = pageEntry f flags) (off : ℕ) :
    freedPages word off p frames.length =
      (frames.map fun f => maskLow (pageEntry f flags) pageSize).reverse := by
  rw [freedPages]
  refine congrArg List.reverse ?_
  induction frames generalizing p with
  | nil => rfl
  | cons f frames ih =>
    have hf := hword 0 f rfl
    have hpos : maskLow (pageEntry f flags) pageSize ||| off ≠ 0 :=
      ((maskLow_pageEntry_pos (hframes f List.mem_cons_self) flags).trans_le Nat.left_le_or).ne'
    rw [Nat.add_zero] at hf
    rw [List.length_cons, List.range'_succ, List.filterMap_cons, hf, if_pos ⟨present_pageEntry f flags, hpos⟩,
      List.map_cons, ih (fun g hg => hframes g (List.mem_cons_of_mem _ hg)) fun j g hg => ?_]
    rw [Nat.add_assoc, Nat.add_comm 1 j]
    exact hword (j + 1) g hg

/-- What the loop mapped is unmapped and freed; the page tables stay. -/
structure RolledBack (σ σ' : Vmm) (dirs : ℕ → Prop) (d p flags : ℕ) (frames : List ℕ) : Prop where
  word : ∀ q, q < windowPage → σ'.word d q = if p ≤ q ∧ q < p + frames.length then 0 else σ.word d q
  directories : Directories σ' dirs
  here : ∀ j < frames.length, σ'.hasTable d ((p + j) / pageEntries) = true
  entry : ∀ k, (σ.hasTable d k = true ∨ ∀ j < frames.length, (p + j) / pageEntries ≠ k) →
    σ'.mem d k = σ.mem d k
  free : σ'.freePages = (frames.map fun f => maskLow (pageEntry f flags) pageSize).reverse

/-- The rollback after `frames` have been mapped, and perhaps a page was not. -/
theorem Grown.rollback (h : Spaces σ dirs) (hd : dirs (σ.region r).pgDir) (hl : Loaded σ r)
    (hg : Grown σ σ₁ dirs (σ.region r).pgDir (start / pageSize) flags frames) (hnil : σ₁.freePages = [])
    (hfit : start + j * pageSize < 2 ^ 32) (hbelow : start / pageSize + j ≤ windowPage)
    (hj : j = frames.length ∨ j = frames.length + 1 ∧
      σ₁.hasTable (σ.region r).pgDir ((start / pageSize + frames.length) / pageEntries) = false) :
    ∃ σ', sysFreeFrom r start j 0 σ₁ = some σ' ∧
      RolledBack σ σ' dirs (σ.region r).pgDir (start / pageSize) flags frames := by
  have hreg := congrFun hg.same.region r
  have hfit' : start + (0 + j) * pageSize < 2 ^ 32 := by
    rw [Nat.zero_add]
    exact hfit
  obtain ⟨σ', hrun, hfreed⟩ := sysFreeFrom_spec (σ := σ₁) (r := r) (i := 0) (n := j) hg.spaces.toDirectories
    (by rw [hreg]; exact hd) (hl.of_same hg.same) hfit' fun q _ hq hge => absurd hge (by omega)
  rw [hreg, Nat.add_zero] at hfreed
  have hframes : ∀ f ∈ frames, 0 < f ∧ pageSize ∣ f := fun f hf => by
    obtain ⟨hpos, hdvd, -⟩ := h.free_page f (hg.taken f hf).1
    exact ⟨hpos, hdvd⟩
  -- the page that was not mapped is not there
  have hlast : j = frames.length + 1 → σ₁.word (σ.region r).pgDir (start / pageSize + frames.length) = 0 := by
    rintro rfl
    rcases hj with he | ⟨-, hnone⟩
    · omega
    · exact word_of_absent hnone
  refine ⟨σ', hrun, fun q hq => ?_, hg.spaces.toDirectories.congr hfreed.dir, fun k hk => ?_, fun k hk => ?_, ?_⟩
  · rw [hfreed.word q hq]
    rcases em (start / pageSize ≤ q ∧ q < start / pageSize + frames.length) with hin | hout
    · obtain ⟨k, rfl⟩ := Nat.exists_eq_add_of_le hin.1
      have hk : k < frames.length := by omega
      have hmap := hg.maps k frames[k] (List.getElem?_eq_getElem hk)
      rw [if_pos hin, if_pos ⟨hin.1, by omega, resolves_of_mapped hmap (hframes _ (List.getElem_mem hk)) _⟩]
    · rw [if_neg hout, hg.word q hq hout]
      split
      · next hres =>
        have hj' : j = frames.length + 1 ∧ q = start / pageSize + frames.length := by omega
        obtain ⟨-, -, hpres, -⟩ := hres
        rw [hj'.2, hlast hj'.1, present_zero] at hpres
        exact absurd hpres (by simp)
      · rfl
  · rw [Vmm.hasTable, hfreed.dir _ hd]
    exact hg.here k hk
  · rw [hfreed.dir _ hd]
    exact hg.entry k hk
  · have hmain : freedPages (σ₁.word (σ.region r).pgDir) (start % pageSize) (start / pageSize) frames.length =
        (frames.map fun f => maskLow (pageEntry f flags) pageSize).reverse :=
      freedPages_of_mapped hframes hg.maps _
    rw [hfreed.free, hnil, List.append_nil, ← hmain]
    rcases hj with rfl | ⟨hj', -⟩
    · rfl
    · have hzero := hlast hj'
      rw [hj', freedPages, freedPages, List.range'_concat, List.filterMap_append, Nat.one_mul, List.filterMap_cons,
        hzero, if_neg (by simp), List.filterMap_nil, List.append_nil]

/-- The loop ends without a failure. -/
def GrowSucceeds (table : ℕ → Bool) (p n : ℕ) (free : List ℕ) : Prop :=
  (framesTaken table p n free).length = n ∨ (framesTaken table p n free).length + 1 = n ∧
    free.length = pagesNeeded table p (framesTaken table p n free).length + 1

/-- **Growing on the loaded region**, below the window: everything is mapped, or all but the
last page, which lacks its table, or nothing is mapped in the end. -/
theorem sysGrow_cases (data : ℕ → ℕ → ℕ) (flags : ℕ) (h : Spaces σ dirs) (hd : dirs (σ.region r).pgDir)
    (hl : Loaded σ r) (hfit : start + n * pageSize < 2 ^ 32)
    (hbelow : start / pageSize + min n σ.freePages.length ≤ windowPage) :
    (GrowSucceeds (σ.hasTable (σ.region r).pgDir) (start / pageSize) n σ.freePages ∧
      ∃ σ', sysGrowFrom data r start flags n 0 σ = some (0, σ') ∧
        Grown σ σ' dirs (σ.region r).pgDir (start / pageSize) flags
          (framesTaken (σ.hasTable (σ.region r).pgDir) (start / pageSize) n σ.freePages) ∧
        ((framesTaken (σ.hasTable (σ.region r).pgDir) (start / pageSize) n σ.freePages).length < n →
          σ'.hasTable (σ.region r).pgDir ((start / pageSize +
            (framesTaken (σ.hasTable (σ.region r).pgDir) (start / pageSize) n σ.freePages).length) / pageEntries) =
              false)) ∨
    (¬ GrowSucceeds (σ.hasTable (σ.region r).pgDir) (start / pageSize) n σ.freePages ∧
      ∃ σ', sysGrowFrom data r start flags n 0 σ = some (-1, σ') ∧
        RolledBack σ σ' dirs (σ.region r).pgDir (start / pageSize) flags
          (framesTaken (σ.hasTable (σ.region r).pgDir) (start / pageSize) n σ.freePages)) := by
  obtain ⟨σ₁, hg, hends⟩ := sysGrowFrom_spec data flags (i := 0) h hd hl (fits_zero hfit) hbelow
  rw [Nat.add_zero] at hg hends
  have hlen := framesTaken_length (σ.hasTable (σ.region r).pgDir) (start / pageSize) n σ.freePages
  rw [GrowSucceeds]
  generalize framesTaken (σ.hasTable (σ.region r).pgDir) (start / pageSize) n σ.freePages = frames at *
  generalize sysGrowFrom data r start flags n 0 σ = res at *
  have hfit_of : ∀ j, j ≤ n → start + j * pageSize < 2 ^ 32 := fun j hj =>
    lt_of_le_of_lt (Nat.add_le_add_left (Nat.mul_le_mul_right _ hj) _) hfit
  cases hends with
  | done hall => exact .inl ⟨.inl hall, σ₁, rfl, hg, fun hlt => absurd hlt (by omega)⟩
  | noPage hshort hnil hcount =>
    obtain ⟨σ', hrun, hback⟩ := hg.rollback h hd hl hnil (hfit_of frames.length (by omega)) (by omega) (.inl rfl)
    rw [Nat.zero_add, hrun]
    exact .inr ⟨by omega, σ', rfl, hback⟩
  | lastTable hlast hnone hcount => exact .inl ⟨.inr ⟨hlast, hcount⟩, σ₁, rfl, hg, fun _ => hnone⟩
  | noTable hshort hnil hnone hcount =>
    have hneeded := le_pagesNeeded (σ.hasTable (σ.region r).pgDir) (start / pageSize) frames.length
    obtain ⟨σ', hrun, hback⟩ := hg.rollback h hd hl hnil (hfit_of (frames.length + 1) (by omega)) (by omega)
      (.inr ⟨rfl, hnone⟩)
    rw [Nat.zero_add, hrun]
    exact .inr ⟨by omega, σ', rfl, hback⟩

end Flopperating
