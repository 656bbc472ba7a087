/-
# What the operations on single pages do

An address space is a directory.  `Directories` is the invariant of a set of them:
every directory links itself at `RECURSIVE_PDE`, and directories and page tables
are pages of their own; `Spaces` says besides that none of them is free.
`Vmm.word` is the word for a page in an address space, `0` where there is no table.

Whichever directory is loaded, `vmm_map` changes at most one word of the
directories, a page table that is new (`Extended`).  When the region is the
loaded one (`Loaded`), `vmm_map`, `vmm_unmap` and `vmm_protect` write the word of
one page of it and leave all others, of every address space (`Mapped`, `Wrote`).
-/

import Flopperating.Mem.Vmm

namespace Flopperating

open TwoLevel

/-- The pages below the recursive window. -/
abbrev windowPage : ℕ := recursivePde * pageEntries

/-- The indices of a directory that are for page tables. -/
abbrev tableSlot (i : ℕ) : Prop := i < recursivePde

/-- Nothing is changed but memory and the free pages. -/
structure SameDescriptors (σ σ' : Vmm) : Prop where
  currentPgDir : σ'.currentPgDir = σ.currentPgDir
  currentRegion : σ'.currentRegion = σ.currentRegion
  objects : σ'.objects = σ.objects
  region : σ'.region = σ.region
  regionList : σ'.regionList = σ.regionList
  allocClass : σ'.allocClass = σ.allocClass
  area : σ'.area = σ.area

theorem SameDescriptors.refl (σ : Vmm) : SameDescriptors σ σ := ⟨rfl, rfl, rfl, rfl, rfl, rfl, rfl⟩

theorem SameDescriptors.trans {σ σ' σ'' : Vmm} (h : SameDescriptors σ σ')
    (h' : SameDescriptors σ' σ'') : SameDescriptors σ σ'' :=
  ⟨h'.1.trans h.1, h'.2.trans h.2, h'.3.trans h.3, h'.4.trans h.4, h'.5.trans h.5,
    h'.6.trans h.6, h'.7.trans h.7⟩

/-- The region's directory is the one in CR3. -/
def Loaded (σ : Vmm) (r : ℕ) : Prop := σ.currentPgDir = (σ.region r).pgDir

instance instDecidableLoaded (σ : Vmm) (r : ℕ) : Decidable (Loaded σ r) :=
  inferInstanceAs (Decidable (_ = _))

theorem Loaded.of_same {σ σ' : Vmm} {r : ℕ} (h : Loaded σ r) (hs : SameDescriptors σ σ') :
    Loaded σ' r := by
  rw [Loaded, hs.currentPgDir, hs.region]
  exact h

namespace Vmm

/-- The word for page `p` in the address space of directory `d`. -/
def word (σ : Vmm) (d p : ℕ) : ℕ :=
  entry tableLink 0 σ.mem d (p / pageEntries) (p % pageEntries)

/-- There is a page table at index `i` of directory `d`. -/
def hasTable (σ : Vmm) (d i : ℕ) : Bool := present (σ.mem d i)

/-- The page is no directory and no page table. -/
def Plain (σ : Vmm) (dirs : ℕ → Prop) (t : ℕ) : Prop := Unused tableLink σ.mem dirs tableSlot t

end Vmm

/-- The directories `dirs` are address spaces apart from each other. -/
structure Directories (σ : Vmm) (dirs : ℕ → Prop) : Prop where
  separate : Separate tableLink σ.mem dirs tableSlot
  self : ∀ d, dirs d → tableLink (σ.mem d recursivePde) = some d

/-- Besides, the free pages are pages of memory and used for none of them. -/
structure Spaces (σ : Vmm) (dirs : ℕ → Prop) : Prop extends Directories σ dirs where
  free_nodup : σ.freePages.Nodup
  free_page : ∀ t ∈ σ.freePages, 0 < t ∧ pageSize ∣ t ∧ t < 2 ^ 32
  free_plain : ∀ t ∈ σ.freePages, σ.Plain dirs t

variable {σ σ' σ'' : Vmm} {dirs : ℕ → Prop} {d d' i j p q r t u va pa w flags : ℕ}

@[simp] theorem region_setRegion {v : Region} : (σ.setRegion r v).region r = v :=
  Function.update_self ..

@[simp] theorem pgDir_setNextFreeVa : ((σ.setNextFreeVa r va).region i).pgDir = (σ.region i).pgDir := by
  change (Function.update σ.region r _ i).pgDir = _
  rcases eq_or_ne i r with rfl | hi
  · rw [Function.update_self]
  · rw [Function.update_of_ne hi]

/-! ### Reading -/

theorem word_of_link (h : tableLink (σ.mem d (p / pageEntries)) = some t) :
    σ.word d p = σ.mem t (p % pageEntries) := entry_of_link h

theorem word_of_absent (h : σ.hasTable d (p / pageEntries) = false) : σ.word d p = 0 :=
  entry_of_none (tableLink_eq_none.2 h)

theorem hasTable_of_present (h : present (σ.word d p) = true) :
    σ.hasTable d (p / pageEntries) = true := by
  rcases hb : σ.hasTable d (p / pageEntries) with - | -
  · rw [word_of_absent hb, present_zero] at h
    exact absurd h (by simp)
  · rfl

/-- The window shows the directory itself. -/
theorem word_window (h : Directories σ dirs) (hd : dirs d) (hp : p / pageEntries = recursivePde) :
    σ.word d p = σ.mem d (p % pageEntries) :=
  word_of_link (by rw [hp]; exact h.self d hd)

section Loaded

variable (hl : Loaded σ r)

include hl in
theorem recursivePt_loaded : σ.recursivePt i = tableLink (σ.pde r i) := by
  rw [Vmm.recursivePt, hl]
  rfl

include hl in
/-- The window of the loaded region shows its own tables. -/
theorem vmmTableWord_loaded (hva : va < 2 ^ 32) :
    vmmTableWord r va σ = some (σ.word (σ.region r).pgDir (va / pageSize)) := by
  rw [vmmTableWord, recursivePt_loaded hl, pdIndex_eq hva]
  split
  · next h => rw [tableLink_of_present h, word_of_link (tableLink_of_present h)]; rfl
  · next h => rw [word_of_absent (Bool.not_eq_true _ ▸ h)]

include hl in
theorem vmmResolve_loaded (hva : va < 2 ^ 32) :
    vmmResolve r va σ = some (if present (σ.word (σ.region r).pgDir (va / pageSize)) then
      maskLow (σ.word (σ.region r).pgDir (va / pageSize)) pageSize ||| va % pageSize else 0) := by
  rw [vmmResolve, vmmTableWord_loaded hl hva, Option.map_some]

include hl in
theorem vmmPageUsed_loaded (hva : va < 2 ^ 32) :
    vmmPageUsed r va σ = some (present (σ.word (σ.region r).pgDir (va / pageSize))) := by
  rw [vmmPageUsed, vmmTableWord_loaded hl hva, Option.map_some]

end Loaded

/-! ### Writing to pages that are no directories -/

/-- Only the words of the directories matter. -/
theorem Directories.congr (h : Directories σ dirs) (hdir : ∀ a, dirs a → σ'.mem a = σ.mem a) :
    Directories σ' dirs where
  separate := h.separate.congr hdir
  self a ha := by rw [hdir a ha]; exact h.self a ha

theorem Spaces.congr (h : Spaces σ dirs) (hdir : ∀ a, dirs a → σ'.mem a = σ.mem a)
    (hfree : σ'.freePages = σ.freePages) : Spaces σ' dirs where
  toDirectories := h.toDirectories.congr hdir
  free_nodup := by rw [hfree]; exact h.free_nodup
  free_page := by rw [hfree]; exact h.free_page
  free_plain t ht := (h.free_plain t (hfree ▸ ht)).congr hdir

theorem Directories.not_dir (h : Directories σ dirs) (hd : dirs d) (hi : tableSlot i)
    (hl : tableLink (σ.mem d i) = some t) {a : ℕ} (ha : dirs a) : a ≠ t := fun he =>
  h.separate.not_root hd hi hl (he ▸ ha)

/-- The word for page `p` of directory `d` is `w` now, and nothing else has
changed in any address space. -/
structure Wrote (σ σ' : Vmm) (dirs : ℕ → Prop) (d p w : ℕ) : Prop where
  same : SameDescriptors σ σ'
  free : σ'.freePages = σ.freePages
  dir : ∀ d', dirs d' → σ'.mem d' = σ.mem d'
  word : ∀ d' q, dirs d' → q < windowPage →
    σ'.word d' q = if d' = d ∧ q = p then w else σ.word d' q

theorem div_lt_of_window (hq : q < windowPage) : tableSlot (q / pageEntries) :=
  Nat.div_lt_of_lt_mul (by rwa [Nat.mul_comm])

theorem page_eq_iff : q / pageEntries = p / pageEntries ∧ q % pageEntries = p % pageEntries ↔ q = p := by
  simp only [pageEntries]
  omega

/-- Writing to a page table. -/
theorem Directories.wrote (h : Directories σ dirs) (hd : dirs d) (hp : p < windowPage)
    (hl : tableLink (σ.mem d (p / pageEntries)) = some t) :
    Wrote σ (σ.setWord t (p % pageEntries) w) dirs d p w := by
  have hslot := div_lt_of_window hp
  have hdir : ∀ a, dirs a → (σ.setWord t (p % pageEntries) w).mem a = σ.mem a := fun a ha =>
    write_root (h.separate.not_root hd hslot hl) ha
  refine ⟨⟨rfl, rfl, rfl, rfl, rfl, rfl, rfl⟩, rfl, hdir, fun d' q hd' hq => ?_⟩
  rw [Vmm.word, Vmm.setWord, entry_write h.separate hd hslot hl hd' (div_lt_of_window hq)]
  exact if_congr (and_congr_right fun _ => page_eq_iff) rfl rfl

theorem Wrote.spaces (hw : Wrote σ σ' dirs d p w) (h : Spaces σ dirs) : Spaces σ' dirs :=
  h.congr hw.dir hw.free

theorem Wrote.directories (hw : Wrote σ σ' dirs d p w) (h : Directories σ dirs) :
    Directories σ' dirs := h.congr hw.dir

theorem Wrote.plain (h : Wrote σ σ' dirs d p w) (ht : σ.Plain dirs t) : σ'.Plain dirs t :=
  ht.congr h.dir

/-! ### Linking page tables -/

/-- There is a page table at index `i` of directory `d` now, and the words of the
directories are otherwise as before. -/
structure Extended (σ σ' : Vmm) (dirs : ℕ → Prop) (d i : ℕ) : Prop where
  spaces : Spaces σ' dirs
  same : SameDescriptors σ σ'
  dir : ∀ d' k, dirs d' → ¬ (d' = d ∧ k = i) → σ'.mem d' k = σ.mem d' k
  here : σ'.hasTable d i = true
  /-- the table was there, or takes the first free page -/
  cases : (σ.hasTable d i = true ∧ σ'.freePages = σ.freePages ∧ σ'.mem d i = σ.mem d i) ∨
    (σ.hasTable d i = false ∧
      ∃ t, σ.freePages = t :: σ'.freePages ∧ σ'.mem d i = pageEntry t (pageRw ||| pageUser))
  plain : ∀ u, u ∉ σ.freePages → σ.Plain dirs u → σ'.Plain dirs u

theorem Extended.refl (h : Spaces σ dirs) (hi : σ.hasTable d i = true) : Extended σ σ dirs d i :=
  ⟨h, .refl σ, fun _ _ _ _ => rfl, hi, .inl ⟨hi, rfl, rfl⟩, fun _ _ hu => hu⟩

/-- Pages that are no directories may change besides. -/
theorem Extended.congr (h : Extended σ σ' dirs d i) (hd : dirs d) (hsame : SameDescriptors σ' σ'')
    (hdir : ∀ a, dirs a → σ''.mem a = σ'.mem a) (hfree : σ''.freePages = σ'.freePages) :
    Extended σ σ'' dirs d i where
  spaces := h.spaces.congr hdir hfree
  same := h.same.trans hsame
  dir d' k hd' hk := by rw [hdir d' hd']; exact h.dir d' k hd' hk
  here := by rw [Vmm.hasTable, hdir d hd]; exact h.here
  cases := by rw [hfree, hdir d hd]; exact h.cases
  plain u hu hpu := (h.plain u hu hpu).congr hdir

theorem Extended.hasTable (h : Extended σ σ' dirs d i) (hd : dirs d) :
    σ'.hasTable d j = if j = i then true else σ.hasTable d j := by
  split
  · next hj => rw [hj, h.here]
  · next hj => rw [Vmm.hasTable, h.dir d j hd fun hk => hj hk.2, Vmm.hasTable]

/-- The pages that are still free. -/
theorem Extended.free_sublist (h : Extended σ σ' dirs d i) : σ'.freePages.Sublist σ.freePages := by
  rcases h.cases with ⟨-, hf, -⟩ | ⟨-, t, hf, -⟩
  · rw [hf]
  · rw [hf]
    exact List.sublist_cons_self t _

/-- Linking the first free page, whatever it holds. -/
theorem Spaces.extended (h : Spaces σ dirs) (hd : dirs d) (hi : tableSlot i)
    (hnone : σ.hasTable d i = false) {free : List ℕ} (hfree : σ.freePages = t :: free) :
    Extended σ ({ σ with freePages := free }.setWord d i (pageEntry t (pageRw ||| pageUser)))
      dirs d i := by
  have htmem : t ∈ σ.freePages := by rw [hfree]; exact List.mem_cons_self
  have hplain := h.free_plain t htmem
  have hlink : tableLink (pageEntry t (pageRw ||| pageUser)) = some t :=
    tableLink_pageEntry (h.free_page t htmem).2.1 (by decide)
  have hnd := hfree ▸ h.free_nodup
  -- what the directories link does not depend on what the new table holds
  have hcongr : ∀ a, dirs a → write σ.mem d i (pageEntry t (pageRw ||| pageUser)) a =
      fill (write σ.mem d i (pageEntry t (pageRw ||| pageUser))) t 0 a := fun a ha =>
    (install_root hplain ha).symm
  have hkeep : ∀ u, u ≠ t → σ.Plain dirs u →
      Unused tableLink (write σ.mem d i (pageEntry t (pageRw ||| pageUser))) dirs tableSlot u :=
    fun u hu hpu => (Unused.install hplain hlink hpu hu).congr hcongr
  have hdir : ∀ d' k, dirs d' → ¬ (d' = d ∧ k = i) →
      write σ.mem d i (pageEntry t (pageRw ||| pageUser)) d' k = σ.mem d' k := fun d' k _ hk =>
    write_apply.trans (if_neg hk)
  refine ⟨⟨⟨?_, ?_⟩, ?_, ?_, ?_⟩, ⟨rfl, rfl, rfl, rfl, rfl, rfl, rfl⟩, hdir, ?_, ?_, ?_⟩
  · exact (h.separate.install hd hplain hlink).congr hcongr
  · intro a ha
    change tableLink (write σ.mem d i (pageEntry t (pageRw ||| pageUser)) a recursivePde) = some a
    rw [hdir a recursivePde ha fun hk => Nat.ne_of_gt hi hk.2]
    exact h.self a ha
  · exact (List.nodup_cons.1 hnd).2
  · exact fun u hu => h.free_page u (hfree ▸ List.mem_cons_of_mem _ hu)
  · exact fun u hu => hkeep u (ne_of_mem_of_not_mem hu (List.nodup_cons.1 hnd).1)
      (h.free_plain u (hfree ▸ List.mem_cons_of_mem _ hu))
  · exact (congrArg present write_self).trans (present_pageEntry _ _)
  · exact .inr ⟨hnone, t, hfree, write_self⟩
  · exact fun u hu hpu => hkeep u (fun he => hu (he ▸ htmem)) hpu

/-! ### The operations, whichever directory is loaded -/

section Anywhere

variable (h : Spaces σ dirs) (hd : dirs (σ.region r).pgDir) (hcur : dirs σ.currentPgDir)

include h hd hcur in
/-- `vmm_map` changes no word of a directory but the one for a page table it
makes; when no page is free for that, nothing happens. -/
theorem vmmMapTable_extends (hi : tableSlot i) {status : ℤ}
    (hrun : vmmMapTable r i σ = some (status, σ')) :
    (status = -1 ∧ σ' = σ ∧ σ.hasTable (σ.region r).pgDir i = false ∧ σ.freePages = []) ∨
      status = 0 ∧ Extended σ σ' dirs (σ.region r).pgDir i := by
  rw [vmmMapTable] at hrun
  split at hrun
  · next hp =>
    obtain ⟨rfl, rfl⟩ := Prod.mk.inj (Option.some.inj hrun)
    exact .inr ⟨rfl, .refl h hp⟩
  · next hp =>
    have hnone : σ.hasTable (σ.region r).pgDir i = false := Bool.not_eq_true _ ▸ hp
    rcases hfree : σ.freePages with - | ⟨t, free⟩
    · simp only [Vmm.allocPage, hfree, if_true] at hrun
      obtain ⟨rfl, rfl⟩ := Prod.mk.inj (Option.some.inj hrun)
      exact .inl ⟨rfl, rfl, hnone, rfl⟩
    · have ht0 : t ≠ 0 := (h.free_page t (hfree ▸ List.mem_cons_self)).1.ne'
      simp only [Vmm.allocPage, hfree, ht0, if_false] at hrun
      have hext := h.extended hd hi hnone hfree
      obtain ⟨pt, hpt, hrun⟩ := Option.bind_eq_some_iff.1 hrun
      obtain ⟨rfl, rfl⟩ := Prod.mk.inj (Option.some.inj hrun)
      refine .inr ⟨rfl, hext.congr hd ⟨rfl, rfl, rfl, rfl, rfl, rfl, rfl⟩ (fun a ha => ?_) rfl⟩
      exact fill_of_ne (hext.spaces.not_dir hcur hi hpt ha)

include h hd hcur in
theorem vmmMap_extends (hva : va < recursiveAddr) {status : ℤ}
    (hrun : vmmMap r va pa flags σ = some (status, σ')) :
    (status = -1 ∧ σ' = σ ∧ σ.hasTable (σ.region r).pgDir (va / pageSize / pageEntries) = false ∧
      σ.freePages = []) ∨
      status = 0 ∧ Extended σ σ' dirs (σ.region r).pgDir (va / pageSize / pageEntries) := by
  have hslot := pdIndex_lt_recursivePde hva
  rw [← pdIndex_eq (hva.trans (by decide))]
  obtain ⟨⟨status₁, σ₁⟩, hrun₁, hrun₂⟩ := Option.bind_eq_some_iff.1 hrun
  rcases vmmMapTable_extends h hd hcur hslot hrun₁ with ⟨rfl, rfl, hnone, hfree⟩ | ⟨rfl, hext⟩
  · obtain ⟨rfl, rfl⟩ := Prod.mk.inj (Option.some.inj hrun₂)
    exact .inl ⟨rfl, rfl, hnone, hfree⟩
  · obtain ⟨pt, hpt, hrun₃⟩ := Option.bind_eq_some_iff.1 hrun₂
    obtain ⟨rfl, rfl⟩ := Prod.mk.inj (Option.some.inj hrun₃)
    have hcur₁ : dirs σ₁.currentPgDir := by rw [hext.same.currentPgDir]; exact hcur
    refine .inr ⟨rfl, hext.congr hd ⟨rfl, rfl, rfl, rfl, rfl, rfl, rfl⟩ (fun a ha => ?_) rfl⟩
    exact write_of_ne_page (hext.spaces.not_dir hcur₁ hslot hpt ha)

end Anywhere

theorem vmmUnmap_freePages {status : ℤ} (hrun : vmmUnmap r va σ = some (status, σ')) : σ'.freePages = σ.freePages := by
  unfold vmmUnmap at hrun
  split at hrun
  · obtain ⟨t, -, hrun⟩ := Option.bind_eq_some_iff.1 hrun
    obtain ⟨-, rfl⟩ := Prod.mk.inj (Option.some.inj hrun)
    rfl
  · obtain ⟨-, rfl⟩ := Prod.mk.inj (Option.some.inj hrun)
    rfl

/-- `vmm_unmap` changes no directory. -/
theorem vmmUnmap_dirs (h : Directories σ dirs) (hcur : dirs σ.currentPgDir) (hva : va < recursiveAddr) {status : ℤ}
    (hrun : vmmUnmap r va σ = some (status, σ')) :
    SameDescriptors σ σ' ∧ σ'.freePages = σ.freePages ∧ ∀ a, dirs a → σ'.mem a = σ.mem a := by
  rw [vmmUnmap] at hrun
  split at hrun
  · obtain ⟨pt, hpt, hrun⟩ := Option.bind_eq_some_iff.1 hrun
    obtain ⟨rfl, rfl⟩ := Prod.mk.inj (Option.some.inj hrun)
    exact ⟨⟨rfl, rfl, rfl, rfl, rfl, rfl, rfl⟩, rfl, fun a ha =>
      write_of_ne_page (h.not_dir hcur (pdIndex_lt_recursivePde hva) hpt ha)⟩
  · obtain ⟨rfl, rfl⟩ := Prod.mk.inj (Option.some.inj hrun)
    exact ⟨.refl σ, rfl, fun _ _ => rfl⟩

/-! ### The operations on the loaded region -/

/-- `vmm_map` has found or made the page table and written the word. -/
structure Mapped (σ σ' : Vmm) (dirs : ℕ → Prop) (d p w : ℕ) : Prop
    extends Extended σ σ' dirs d (p / pageEntries) where
  word : ∀ d' q, dirs d' → q < windowPage →
    σ'.word d' q = if d' = d ∧ q = p then w else σ.word d' q

theorem page_lt_windowPage (hva : va < recursiveAddr) : va / pageSize < windowPage := by
  simp only [recursiveAddr, windowPage, recursivePde, pageEntries, pageSize] at *
  omega

section Operations

variable (h : Spaces σ dirs) (hd : dirs (σ.region r).pgDir) (hl : Loaded σ r)

include h hd hl in
/-- The page table for an address of the loaded region: it is there afterwards
and the words of all pages are as before, or no page is free. -/
theorem vmmMapTable_loaded (hi : tableSlot i) :
    vmmMapTable r i σ = some (-1, σ) ∨
    ∃ σ', vmmMapTable r i σ = some (0, σ') ∧
      ∀ d' q, dirs d' → q < windowPage → σ'.word d' q = σ.word d' q := by
  rw [vmmMapTable]
  split
  · exact .inr ⟨σ, rfl, fun _ _ _ _ => rfl⟩
  · next hp =>
    rcases hfree : σ.freePages with - | ⟨t, free⟩
    · left
      simp [Vmm.allocPage, hfree]
    · right
      have htmem : t ∈ σ.freePages := by rw [hfree]; exact List.mem_cons_self
      have hlink : tableLink (pageEntry t (pageRw ||| pageUser)) = some t :=
        tableLink_pageEntry (h.free_page t htmem).2.1 (by decide)
      have hpt : ({ σ with freePages := free }.setWord (σ.region r).pgDir i
          (pageEntry t (pageRw ||| pageUser))).recursivePt i = some t := by
        change tableLink (write σ.mem (σ.region r).pgDir i _ σ.currentPgDir i) = some t
        rw [hl, write_self, hlink]
      simp only [Vmm.allocPage, hfree, (h.free_page t htmem).1.ne', if_false]
      refine ⟨_, Option.bind_eq_some_iff.2 ⟨t, hpt, rfl⟩, fun d' q hd' hq => ?_⟩
      exact entry_install hd hi (tableLink_eq_none.2 (Bool.not_eq_true _ ▸ hp)) (h.free_plain t htmem)
        hlink h.separate hd' (div_lt_of_window hq)

include h hd hl in
/-- **`vmm_map` on the loaded region** writes the word of the page, or finds no
free page for a page table and does nothing. -/
theorem vmmMap_loaded (hva : va < recursiveAddr) (pa flags : ℕ) :
    (σ.hasTable (σ.region r).pgDir (va / pageSize / pageEntries) = false ∧ σ.freePages = [] ∧
      vmmMap r va pa flags σ = some (-1, σ)) ∨
    ∃ σ', vmmMap r va pa flags σ = some (0, σ') ∧
      Mapped σ σ' dirs (σ.region r).pgDir (va / pageSize) (pageEntry pa flags) := by
  have hcur : dirs σ.currentPgDir := by rw [hl]; exact hd
  have hpd : pdIndex va = va / pageSize / pageEntries := pdIndex_eq (hva.trans (by decide))
  have hslot := pdIndex_lt_recursivePde hva
  rcases vmmMapTable_loaded h hd hl hslot with hrun | ⟨σ₁, hrun, hword⟩
  · rcases vmmMapTable_extends h hd hcur hslot hrun with ⟨-, -, hnone, hfree⟩ | ⟨h0, -⟩
    · left
      rw [← hpd]
      refine ⟨hnone, hfree, ?_⟩
      rw [vmmMap, hrun]
      rfl
    · exact absurd h0 (by decide)
  · rcases vmmMapTable_extends h hd hcur hslot hrun with ⟨h0, -⟩ | ⟨-, hext⟩
    · exact absurd h0 (by decide)
    · right
      have hpt : σ₁.recursivePt (pdIndex va) =
          some (maskLow (σ₁.mem (σ.region r).pgDir (va / pageSize / pageEntries)) pageSize) := by
        rw [recursivePt_loaded (hl.of_same hext.same), Vmm.pde, hext.same.region, ← hpd]
        exact tableLink_of_present hext.here
      have hmap : vmmMap r va pa flags σ = some (0, σ₁.setWord (maskLow (σ₁.mem (σ.region r).pgDir
          (va / pageSize / pageEntries)) pageSize) (ptIndex va) (pageEntry pa flags)) := by
        refine Option.bind_eq_some_iff.2 ⟨_, hrun, ?_⟩
        exact Option.bind_eq_some_iff.2 ⟨_, hpt, rfl⟩
      have hw := hext.spaces.wrote hd (page_lt_windowPage hva) (w := pageEntry pa flags)
        (tableLink_of_present (hpd ▸ hext.here))
      rcases vmmMap_extends h hd hcur hva hmap with ⟨h0, -⟩ | ⟨-, hext'⟩
      · exact absurd h0 (by decide)
      · exact ⟨_, hmap, hext', fun d' q hd' hq => by
          rw [← hword d' q hd' hq]
          exact hw.word d' q hd' hq⟩

end Operations

section Operations

variable (h : Directories σ dirs) (hd : dirs (σ.region r).pgDir) (hl : Loaded σ r)

include h hd hl in
/-- **`vmm_unmap` on the loaded region** clears the word of the page; where there
is no table the page was not mapped. -/
theorem vmmUnmap_loaded (hva : va < recursiveAddr) :
    (σ.hasTable (σ.region r).pgDir (va / pageSize / pageEntries) = false ∧
      vmmUnmap r va σ = some (-1, σ)) ∨
    (σ.hasTable (σ.region r).pgDir (va / pageSize / pageEntries) = true ∧
      ∃ σ', vmmUnmap r va σ = some (0, σ') ∧
        Wrote σ σ' dirs (σ.region r).pgDir (va / pageSize) 0) := by
  rw [vmmUnmap, recursivePt_loaded hl, pdIndex_eq (hva.trans (by decide))]
  split
  · next hp =>
    refine .inr ⟨hp, _, ?_, h.wrote hd (page_lt_windowPage hva) (tableLink_of_present hp)⟩
    rw [tableLink_of_present hp]
    rfl
  · next hp => exact .inl ⟨Bool.not_eq_true _ ▸ hp, rfl⟩

include h hd hl in
/-- **`vmm_protect` on the loaded region** replaces the flags of a mapped page. -/
theorem vmmProtect_loaded (hva : va < recursiveAddr) (flags : ℕ) :
    (present (σ.word (σ.region r).pgDir (va / pageSize)) = false ∧
      vmmProtect r va flags σ = some (-1, σ)) ∨
    (present (σ.word (σ.region r).pgDir (va / pageSize)) = true ∧
      ∃ σ', vmmProtect r va flags σ = some (0, σ') ∧
        Wrote σ σ' dirs (σ.region r).pgDir (va / pageSize)
          (pageEntry (σ.word (σ.region r).pgDir (va / pageSize)) flags)) := by
  rw [vmmProtect, recursivePt_loaded hl, pdIndex_eq (hva.trans (by decide))]
  split
  · next hp =>
    have hlink : tableLink (σ.mem (σ.region r).pgDir (va / pageSize / pageEntries)) = _ :=
      tableLink_of_present hp
    rw [word_of_link hlink, tableLink_of_present hp]
    change (_ ∧ (if present (σ.mem (maskLow (σ.pde r (va / pageSize / pageEntries)) pageSize)
      (va / pageSize % pageEntries)) then _ else _) = _) ∨ (_ ∧ ∃ σ', (if present (σ.mem
        (maskLow (σ.pde r (va / pageSize / pageEntries)) pageSize) (va / pageSize % pageEntries))
          then _ else _) = _ ∧ _)
    rcases hb : present (σ.mem (maskLow (σ.pde r (va / pageSize / pageEntries)) pageSize)
        (va / pageSize % pageEntries)) with - | -
    · exact .inl ⟨hb, if_neg (by simp)⟩
    · exact .inr ⟨hb, _, if_pos rfl, h.wrote hd (page_lt_windowPage hva) hlink⟩
  · next hp =>
    rw [word_of_absent (Bool.not_eq_true _ ▸ hp)]
    exact .inl ⟨present_zero, rfl⟩

end Operations

end Flopperating
