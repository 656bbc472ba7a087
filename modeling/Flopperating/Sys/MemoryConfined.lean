/-
# Memory system calls and user space

`sys_munmap` and `sys_mprotect` ask for an address that is aligned and for pages that
resolve, `sys_mmap` for an address that is aligned, `sys_mremap` for nothing; none asks
whether the range is in user space.  So what they do to the other addresses is what the
caller asks for (`memory_call_confined`).
-/

import Flopperating.Sys.MemoryGrow

namespace Flopperating

open Vmm TwoLevel

variable {σ σ' : Vmm} {dirs : ℕ → Prop} {proc : MemProc} {d f k n p q r start flags off : ℕ}

/-- The page is in `[USER_SPACE_START, USER_SPACE_END]`. -/
def UserPage (p : ℕ) : Prop := userSpaceStart / pageSize ≤ p ∧ p ≤ userSpaceEnd / pageSize

instance instDecidableUserPage (p : ℕ) : Decidable (UserPage p) := inferInstanceAs (Decidable (_ ∧ _))

theorem UserPage.lt_windowPage (h : UserPage p) : p < windowPage := lt_of_le_of_lt h.2 (by decide)

/-- Outside user space every translation with its flags is as before, and no frame that is
mapped there has been freed. -/
structure Confined (σ σ' : Vmm) (d : ℕ) : Prop where
  word : ∀ p < addressPages, ¬ UserPage p → σ'.word d p = σ.word d p
  frames : ∀ p < addressPages, ¬ UserPage p → ∀ f, tableLink (σ.word d p) = some f →
    f ∈ σ'.freePages → f ∈ σ.freePages

/-- The frame is free, or mapped in user space only. -/
def OnlyUser (σ : Vmm) (d f : ℕ) : Prop :=
  f ∈ σ.freePages ∨ ∀ p < addressPages, ¬ UserPage p → tableLink (σ.word d p) ≠ some f

/-- What the range has to unmap and free is in user space only. -/
def FreesUser (σ : Vmm) (d off p n : ℕ) : Prop :=
  ∀ q, p ≤ q → q < p + n → Resolves σ d off q → UserPage q ∧ OnlyUser σ d (maskLow (σ.word d q) pageSize)

namespace MemAction

/-- The new pages are below the recursive window. -/
def Below (σ : Vmm) : MemAction → Prop
  | nothing _ | shrink _ _ _ | unmap _ _ | protect _ _ _ => True
  | grow _ _ start n _ => start / pageSize + min n σ.freePages.length ≤ windowPage

/-- The action leaves alone what is outside user space. -/
def Confines (σ : Vmm) (d : ℕ) : MemAction → Prop
  | nothing _ => True
  | shrink _ start n => FreesUser σ d (start % pageSize) (start / pageSize) n
  | unmap start n => AllResolve σ d (start % pageSize) (start / pageSize) n →
      FreesUser σ d (start % pageSize) (start / pageSize) n
  | protect start n flags => AllResolve σ d (start % pageSize) (start / pageSize) n →
      ∀ q, start / pageSize ≤ q → q < start / pageSize + n → ¬ UserPage q →
        pageEntry (σ.word d q) flags = σ.word d q
  | grow _ _ start n flags =>
      let frames := framesTaken (σ.hasTable d) (start / pageSize) n σ.freePages
      start / pageSize + min n σ.freePages.length ≤ windowPage ∧
        (∀ j < frames.length, σ.hasTable d ((start / pageSize + j) / pageEntries) = true) ∧
        (GrowSucceeds (σ.hasTable d) (start / pageSize) n σ.freePages → ∀ j f, frames[j]? = some f →
          ¬ UserPage (start / pageSize + j) → pageEntry f flags = σ.word d (start / pageSize + j)) ∧
        (¬ GrowSucceeds (σ.hasTable d) (start / pageSize) n σ.freePages →
          (∀ j < frames.length, ¬ UserPage (start / pageSize + j) → σ.word d (start / pageSize + j) = 0) ∧
            ∀ f ∈ frames, OnlyUser σ d (maskLow (pageEntry f flags) pageSize))

end MemAction

/-! ### Freeing -/

theorem mem_freedPages {word : ℕ → ℕ} : f ∈ freedPages word off p n ↔
    ∃ q, p ≤ q ∧ q < p + n ∧ (present (word q) = true ∧ maskLow (word q) pageSize ||| off ≠ 0) ∧
      maskLow (word q) pageSize = f := by
  rw [freedPages, List.mem_reverse, List.mem_filterMap]
  constructor
  · rintro ⟨q, hq, hite⟩
    obtain ⟨hle, hlt⟩ := List.mem_range'_1.1 hq
    split at hite
    · next hres => exact ⟨q, hle, hlt, hres, Option.some.inj hite⟩
    · exact absurd hite (by simp)
  · rintro ⟨q, hle, hlt, hres, rfl⟩
    exact ⟨q, List.mem_range'_1.2 ⟨hle, hlt⟩, if_pos hres⟩

/-- **The loop that frees** keeps to user space exactly when its range does. -/
theorem sysFreeFrom_confined (h : Directories σ dirs) (hd : dirs (σ.region r).pgDir) (hl : Loaded σ r)
    (hfit : start + n * pageSize < 2 ^ 32) : ∃ σ', sysFreeFrom r start n 0 σ = some σ' ∧
      (Confined σ σ' (σ.region r).pgDir ↔
        FreesUser σ (σ.region r).pgDir (start % pageSize) (start / pageSize) n) := by
  have hpages : ∀ q, q < start / pageSize + n → q < addressPages := fun q hq =>
    (page_lt_of_fits_zero hfit hq).trans (by decide)
  obtain ⟨σ', hrun, -, hshrunk, hgone⟩ := sysFreeFrom_shrinks hl (fits_zero hfit)
  refine ⟨σ', hrun, ?_⟩
  -- only pages of user space resolve, so the window is not touched
  have hspec : (∀ q, start / pageSize ≤ q → q < start / pageSize + n →
      Resolves σ (σ.region r).pgDir (start % pageSize) q → UserPage q) →
      FreedRange σ σ' dirs (σ.region r).pgDir (start % pageSize) (start / pageSize) n := fun huser => by
    obtain ⟨σ'', hrun', hfreed⟩ := sysFreeFrom_spec h hd hl (fits_zero hfit) fun q hq hqn hge hres =>
      Nat.not_lt.2 hge (huser q (by omega) (by omega) hres).lt_windowPage
    obtain rfl := Option.some.inj (hrun'.symm.trans hrun)
    exact hfreed
  constructor
  · intro hc
    have huser : ∀ q, start / pageSize ≤ q → q < start / pageSize + n →
        Resolves σ (σ.region r).pgDir (start % pageSize) q → UserPage q := fun q hq hqn hres => by
      by_contra hout
      have hnone := hgone q (by omega) (by omega) hres
      rw [hc.word q (hpages q hqn) hout, hres.1] at hnone
      exact absurd hnone (by simp)
    refine fun q hq hqn hres => ⟨huser q hq hqn hres, ?_⟩
    by_cases hfree : maskLow (σ.word (σ.region r).pgDir q) pageSize ∈ σ.freePages
    · exact .inl hfree
    · refine .inr fun p hp hout hmap => hfree (hc.frames p hp hout _ hmap ?_)
      rw [(hspec huser).free]
      exact List.mem_append_left _ (mem_freedPages.2 ⟨q, hq, hqn, hres, rfl⟩)
  · intro hfrees
    have hfreed := hspec fun q hq hqn hres => (hfrees q hq hqn hres).1
    refine ⟨fun p hp hout => ?_, fun p hp hout f hmap hf => ?_⟩
    · rcases Nat.lt_or_ge p windowPage with hlt | hge
      · rw [hfreed.word p hlt, if_neg fun hin => hout (hfrees p hin.1 hin.2.1 hin.2.2).1]
      · have hself := h.self _ hd
        rw [word_of_self hself hge hp, word_of_self (by rw [hfreed.dir _ hd]; exact hself) hge hp, hfreed.dir _ hd]
    · rw [hfreed.free] at hf
      rcases List.mem_append.1 hf with hf | hf
      · obtain ⟨q, hq, hqn, hres, rfl⟩ := mem_freedPages.1 hf
        exact (hfrees q hq hqn hres).2.resolve_right fun hnone => hnone p hp hout hmap
      · exact hf

/-! ### Protecting -/

/-- **The loop over `vmm_protect`** keeps to user space exactly when it does not change the
words of the other pages. -/
theorem sysProtectFrom_confined (h : Directories σ dirs) (hd : dirs (σ.region r).pgDir) (hl : Loaded σ r)
    (hfit : start + n * pageSize < 2 ^ 32) (flags : ℕ)
    (hall : AllResolve σ (σ.region r).pgDir (start % pageSize) (start / pageSize) n) :
    ∃ σ', sysProtectFrom r start flags n 0 σ = some σ' ∧ (Confined σ σ' (σ.region r).pgDir ↔
      ∀ q, start / pageSize ≤ q → q < start / pageSize + n → ¬ UserPage q →
        pageEntry (σ.word (σ.region r).pgDir q) flags = σ.word (σ.region r).pgDir q) := by
  have hpages : ∀ q, q < start / pageSize + n → q < windowPage + recursivePde := fun q hq => page_lt_of_fits_zero hfit hq
  obtain ⟨σ', hrun, hp⟩ := sysProtectFrom_spec h hd hl hfit flags
  have hself := h.self _ hd
  have hself' : tableLink (σ'.mem (σ.region r).pgDir recursivePde) = some (σ.region r).pgDir := by
    rw [hp.entry, if_neg fun hin => Nat.lt_irrefl _ (hpages _ hin.2.1)]
    exact hself
  refine ⟨σ', hrun, ?_⟩
  -- when the page tables keep their words, the other pages are as the loop left them
  have hsame : (∀ k < pageEntries, σ'.mem (σ.region r).pgDir k = σ.mem (σ.region r).pgDir k) → ∀ q < windowPage,
      σ'.word (σ.region r).pgDir q = if start / pageSize ≤ q ∧ q < start / pageSize + n then
        pageEntry (σ.word (σ.region r).pgDir q) flags else σ.word (σ.region r).pgDir q := fun hentry q hq => by
    rw [hp.word q hq (by rw [hentry _ ((div_lt_of_window hq).trans (by decide))])]
    exact if_congr ⟨fun hin => ⟨hin.1, hin.2.1⟩, fun hin => ⟨hin.1, hin.2, (hall q hin.1 hin.2).1⟩⟩ rfl rfl
  have hout : ∀ q, windowPage ≤ q → ¬ UserPage q := fun q hge huser => Nat.not_lt.2 hge huser.lt_windowPage
  constructor
  · intro hc
    have hentry : ∀ k < pageEntries, σ'.mem (σ.region r).pgDir k = σ.mem (σ.region r).pgDir k := fun k hk => by
      have hword := hc.word (windowPage + k) (Nat.add_lt_add_left hk _) (hout _ (Nat.le_add_right _ _))
      rwa [word_of_self hself (Nat.le_add_right _ _) (Nat.add_lt_add_left hk _),
        word_of_self hself' (Nat.le_add_right _ _) (Nat.add_lt_add_left hk _), Nat.add_sub_cancel_left] at hword
    intro q hq hqn hnot
    rcases Nat.lt_or_ge q windowPage with hlt | hge
    · have hword := hsame hentry q hlt
      rw [if_pos ⟨hq, hqn⟩] at hword
      exact hword.symm.trans (hc.word q (hlt.trans (by decide)) hnot)
    · obtain ⟨k, rfl⟩ := Nat.exists_eq_add_of_le hge
      have hk : k < pageEntries := by
        have := hpages _ hqn
        simp only [pageEntries, recursivePde] at *
        omega
      have hword := word_of_self hself hge (Nat.add_lt_add_left hk _)
      rw [Nat.add_sub_cancel_left] at hword
      have hres := (hall _ hq hqn).1
      rw [hword] at hres ⊢
      have hkept := hp.entry k
      rw [if_pos ⟨hq, hqn, hres⟩] at hkept
      exact hkept.symm.trans (hentry k hk)
  · intro hkeep
    have hentry : ∀ k < pageEntries, σ'.mem (σ.region r).pgDir k = σ.mem (σ.region r).pgDir k := fun k hk => by
      rw [hp.entry k]
      split
      · next hin =>
        have hword := hkeep _ hin.1 hin.2.1 (hout _ (Nat.le_add_right _ _))
        rwa [word_of_self hself (Nat.le_add_right _ _) (Nat.add_lt_add_left hk _), Nat.add_sub_cancel_left] at hword
      · rfl
    refine ⟨fun p hp' hnot => ?_, fun p _ _ f _ hf => hp.free ▸ hf⟩
    rcases Nat.lt_or_ge p windowPage with hlt | hge
    · rw [hsame hentry p hlt]
      split
      · next hin => exact hkeep p hin.1 hin.2 hnot
      · rfl
    · rw [word_of_self hself hge hp', word_of_self hself' hge hp']
      refine hentry _ ?_
      simp only [addressPages] at hp'
      omega

/-! ### Growing -/

/-- The window shows whether page tables have been made. -/
theorem tables_of_confined (h : Spaces σ dirs) (hd : dirs d) (h' : Directories σ' dirs) {frames : List ℕ}
    (hp : p + frames.length ≤ windowPage) (hhere : ∀ j < frames.length, σ'.hasTable d ((p + j) / pageEntries) = true)
    (hc : Confined σ σ' d) : ∀ j < frames.length, σ.hasTable d ((p + j) / pageEntries) = true := by
  intro j hj
  have hslot : (p + j) / pageEntries < pageEntries := (div_lt_of_window (by omega)).trans (by decide)
  have hge : windowPage ≤ windowPage + (p + j) / pageEntries := Nat.le_add_right _ _
  have hlt : windowPage + (p + j) / pageEntries < addressPages := Nat.add_lt_add_left hslot _
  have hword := hc.word _ hlt fun huser => Nat.not_lt.2 hge huser.lt_windowPage
  rw [word_of_self (h'.self d hd) hge hlt, word_of_self (h.self d hd) hge hlt, Nat.add_sub_cancel_left] at hword
  rw [Vmm.hasTable, ← hword]
  exact hhere j hj

/-- Without new page tables the directory is as before. -/
theorem dir_of_tables {frames : List ℕ}
    (hentry : ∀ k, (σ.hasTable d k = true ∨ ∀ j < frames.length, (p + j) / pageEntries ≠ k) →
      σ'.mem d k = σ.mem d k)
    (htables : ∀ j < frames.length, σ.hasTable d ((p + j) / pageEntries) = true) (k : ℕ) :
    σ'.mem d k = σ.mem d k := by
  refine hentry k ?_
  by_cases hk : ∃ j < frames.length, (p + j) / pageEntries = k
  · obtain ⟨j, hj, rfl⟩ := hk
    exact .inl (htables j hj)
  · exact .inr fun j hj he => hk ⟨j, hj, he⟩

/-- **The loop that maps new pages** keeps to user space exactly when it makes no page table
and what it writes or frees is in user space. -/
theorem sysGrow_confined (data : ℕ → ℕ → ℕ) (value flags : ℕ) (h : Spaces σ dirs) (hd : dirs (σ.region r).pgDir) (hl : Loaded σ r)
    (hfit : start + n * pageSize < 2 ^ 32)
    (hbelow : start / pageSize + min n σ.freePages.length ≤ windowPage) :
    ∃ status σ', sysGrowFrom data r start flags n 0 σ = some (status, σ') ∧ (Confined σ σ' (σ.region r).pgDir ↔
      (MemAction.grow data value start n flags).Confines σ (σ.region r).pgDir) := by
  have hlen := framesTaken_length (σ.hasTable (σ.region r).pgDir) (start / pageSize) n σ.freePages
  have hself := h.self _ hd
  rcases sysGrow_cases data flags h hd hl hfit hbelow with ⟨hok, σ', hrun, hg, -⟩ | ⟨hfail, σ', hrun, hback⟩
  · refine ⟨0, σ', hrun, ?_⟩
    simp only [MemAction.Confines]
    generalize framesTaken (σ.hasTable (σ.region r).pgDir) (start / pageSize) n σ.freePages = frames at hlen hg
    constructor
    · intro hc
      refine ⟨hbelow, tables_of_confined h hd hg.spaces.toDirectories (by omega) hg.here hc,
        fun _ j f hj hnot => ?_, fun hno => absurd hok hno⟩
      have hj' : j < frames.length := (List.getElem?_eq_some_iff.1 hj).1
      have hlt : start / pageSize + j < windowPage := by omega
      rw [← hg.maps j f hj, hc.word _ (hlt.trans (by decide)) hnot]
    · rintro ⟨-, htables, hkeep, -⟩
      have hdir := dir_of_tables hg.entry htables
      refine ⟨fun p hp hnot => ?_, fun p _ _ f _ hf => hg.free.subset hf⟩
      rcases Nat.lt_or_ge p windowPage with hlt | hge
      · by_cases hin : start / pageSize ≤ p ∧ p < start / pageSize + frames.length
        · obtain ⟨j, rfl⟩ := Nat.exists_eq_add_of_le hin.1
          have hj := List.getElem?_eq_getElem (show j < frames.length by omega)
          rw [hg.maps j _ hj, hkeep hok j _ hj hnot]
        · exact hg.word p hlt hin
      · rw [word_of_self hself hge hp, word_of_self (by rw [hdir]; exact hself) hge hp, hdir]
  · refine ⟨-1, σ', hrun, ?_⟩
    simp only [MemAction.Confines]
    generalize framesTaken (σ.hasTable (σ.region r).pgDir) (start / pageSize) n σ.freePages = frames at hlen hback
    have hfreed : ∀ f, f ∈ σ'.freePages ↔ ∃ g ∈ frames, maskLow (pageEntry g flags) pageSize = f := fun f => by
      rw [hback.free, List.mem_reverse, List.mem_map]
    constructor
    · intro hc
      refine ⟨hbelow, tables_of_confined h hd hback.directories (by omega) hback.here hc,
        fun hok => absurd hok hfail, fun _ => ⟨fun j hj hnot => ?_, fun f hf => ?_⟩⟩
      · have hlt : start / pageSize + j < windowPage := by omega
        rw [← hc.word _ (hlt.trans (by decide)) hnot, hback.word _ hlt, if_pos ⟨by omega, by omega⟩]
      · by_cases hfree : maskLow (pageEntry f flags) pageSize ∈ σ.freePages
        · exact .inl hfree
        · exact .inr fun p hp hnot hmap => hfree (hc.frames p hp hnot _ hmap ((hfreed _).2 ⟨f, hf, rfl⟩))
    · rintro ⟨-, htables, -, hkeep⟩
      obtain ⟨hzero, hfrees⟩ := hkeep hfail
      have hdir := dir_of_tables hback.entry htables
      refine ⟨fun p hp hnot => ?_, fun p hp hnot f hmap hf => ?_⟩
      · rcases Nat.lt_or_ge p windowPage with hlt | hge
        · rw [hback.word p hlt]
          split
          · next hin =>
            obtain ⟨j, rfl⟩ := Nat.exists_eq_add_of_le hin.1
            exact (hzero j (by omega) hnot).symm
          · rfl
        · rw [word_of_self hself hge hp, word_of_self (by rw [hdir]; exact hself) hge hp, hdir]
      · obtain ⟨g, hg, rfl⟩ := (hfreed f).1 hf
        exact (hfrees g hg).resolve_right fun hnone => hnone p hp hnot hmap

/-! ### The calls -/

/-- What a call does keeps to user space. -/
def MemCall.Confined (proc : MemProc) (r : ℕ) (σ : Vmm) (c : MemCall) : Prop :=
  ∀ v σ', c.run proc σ = some (v, σ') → Flopperating.Confined σ σ' (σ.region r).pgDir

theorem confined_refl : Confined σ σ d := ⟨fun _ _ _ => rfl, fun _ _ _ _ _ hf => hf⟩

/-- **Memory system calls are confined to user space** exactly when what they are asked to
change is: the code does not look.  Where new pages reach the recursive window, the
condition is one that is enough. -/
theorem memory_call_confined (h : Spaces σ dirs) (hproc : proc.region = some r) (hd : dirs (σ.region r).pgDir)
    (hl : Loaded σ r) (c : MemCall) :
    ((c.action proc).Confines σ (σ.region r).pgDir → c.Confined proc r σ) ∧
      ((c.action proc).Below σ → c.Confined proc r σ → (c.action proc).Confines σ (σ.region r).pgDir) := by
  have hfits : (c.action proc).Fits := c.action_fits
  have hrun : ∀ v σ', c.run proc σ = some (v, σ') ↔ (c.action proc).run r σ = some (v, σ') := fun v σ' => by
    rw [c.run_action hproc]
  simp only [MemCall.Confined, hrun]
  generalize c.action proc = a at hfits
  cases a with
  | nothing value => exact MemAction.iff_of_run rfl (iff_of_true confined_refl trivial)
  | shrink value start n =>
    obtain ⟨σ', hrun, hiff⟩ := sysFreeFrom_confined h.toDirectories hd hl hfits
    exact MemAction.iff_of_run (by rw [MemAction.run, hrun]; rfl) hiff
  | unmap start n =>
    rcases MemAction.run_unmap_cases hl hfits with ⟨hno, hrun⟩ | ⟨hall, hrun⟩
    · exact MemAction.iff_of_run hrun (iff_of_true confined_refl fun hres => absurd hres hno)
    · obtain ⟨σ', hloop, hiff⟩ := sysFreeFrom_confined h.toDirectories hd hl hfits
      exact MemAction.iff_of_run (by rw [hrun, hloop]; rfl)
        (hiff.trans ⟨fun hfrees _ => hfrees, fun hconf => hconf hall⟩)
  | protect start n flags =>
    rcases MemAction.run_protect_cases hl hfits flags with ⟨hno, hrun⟩ | ⟨hall, hrun⟩
    · exact MemAction.iff_of_run hrun (iff_of_true confined_refl fun hres => absurd hres hno)
    · obtain ⟨σ', hloop, hiff⟩ := sysProtectFrom_confined h.toDirectories hd hl hfits flags hall
      exact MemAction.iff_of_run (by rw [hrun, hloop]; rfl)
        (hiff.trans ⟨fun hkeep _ => hkeep, fun hconf => hconf hall⟩)
  | grow data value start n flags =>
    by_cases hbelow : (MemAction.grow data value start n flags).Below σ
    · obtain ⟨status, σ', hrun, hiff⟩ := sysGrow_confined data value flags h hd hl hfits hbelow
      exact MemAction.iff_of_run (by rw [MemAction.run, hrun]; rfl) hiff
    · exact ⟨fun hconf => absurd hconf.1 hbelow, fun hb => absurd hb hbelow⟩

/-! ### A page in kernel space -/

/-- A region that is loaded, and free pages. -/
def mmapHost : Vmm := hostRegion [0x2000, 0x3000, 0x4000]

/-- A process of that region, with no files. -/
def mmapProc : MemProc := ⟨some 1, fun _ _ => none⟩

theorem running_mmapHost : Running mmapHost (· = 0x1000) [1] := running_hostRegion _ (by decide)

theorem loaded_mmapHost : Loaded mmapHost 1 := loaded_vmmSwitch _ 1

theorem mmapHost_pgDir : (mmapHost.region 1).pgDir = 0x1000 := running_mmapHost.current

/-- One page at `0xC0000000`, for any use. -/
def kernelMmap : SyscallArgs := ⟨0xC0000000, 1, 7, 0xFFFFFFFF, 1, by decide⟩

theorem memory_call_confined_mmap :
    ((MemCall.action mmapProc (.mmap kernelMmap)).Confines mmapHost (mmapHost.region 1).pgDir →
      MemCall.Confined mmapProc 1 mmapHost (.mmap kernelMmap)) ∧
    ((MemCall.action mmapProc (.mmap kernelMmap)).Below mmapHost →
      MemCall.Confined mmapProc 1 mmapHost (.mmap kernelMmap) →
        (MemCall.action mmapProc (.mmap kernelMmap)).Confines mmapHost (mmapHost.region 1).pgDir) :=
  memory_call_confined running_mmapHost.spaces rfl mmapHost_pgDir loaded_mmapHost _

/-- The call maps the page. -/
theorem not_memory_call_confined : ¬ ∀ (σ : Vmm) (dirs : ℕ → Prop) (proc : MemProc) (r : ℕ) (c : MemCall),
    Spaces σ dirs → proc.region = some r → dirs (σ.region r).pgDir → Loaded σ r → c.Confined proc r σ := by
  intro hall
  have hval : (MemCall.run mmapProc (.mmap kernelMmap) mmapHost).map (fun o => o.2.word 0x1000 0xC0000) =
      some 0x2007 := by decide +kernel
  obtain ⟨⟨v, σ'⟩, hrun, hword⟩ := Option.map_eq_some_iff.1 hval
  have hconf := hall mmapHost (· = 0x1000) mmapProc 1 (.mmap kernelMmap) running_mmapHost.spaces rfl
    mmapHost_pgDir loaded_mmapHost v σ' hrun
  have hzero : mmapHost.word 0x1000 0xC0000 = 0 := by decide +kernel
  have hsame := hconf.word 0xC0000 (by decide) (by decide)
  rw [mmapHost_pgDir, hzero] at hsame
  exact absurd (hword.symm.trans hsame) (by decide)

end Flopperating
