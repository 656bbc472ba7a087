/-
# Copying a page map

`vmm_copy_pagemap` takes a page for the directory, one for each entry of the directory of
the source and one for each present word that the window shows behind that entry.  How far
it gets is a matter of numbers alone (`copyOutcome`, `vmmCopyTablesFrom_outcome`).

The link of the directory to itself is such an entry: behind it are the page tables, which
are copied like data into a page table that is linked nowhere in the end.  So a copy that
is returned is never all there is to it (`private_copy_iff`).
-/

import Flopperating.Mem.VmmUser

namespace Flopperating

open Vmm

variable {σ σ' σ₁ σ₂ : Vmm} {dirs : ℕ → Prop} {a c d i j n p q r s t : ℕ} {taken taken' free : List ℕ}

/-! ### Pages that are taken -/

/-- The pages `taken` have been taken, and memory has changed there and in `q`. -/
structure Took (σ σ' : Vmm) (q : ℕ) (taken : List ℕ) : Prop where
  same : SameDescriptors σ σ'
  free : σ.freePages = taken ++ σ'.freePages
  mem : ∀ a, a ≠ q → a ∉ taken → σ'.mem a = σ.mem a

theorem Took.refl : Took σ σ q [] := ⟨.refl σ, rfl, fun _ _ _ => rfl⟩

theorem Took.trans (h : Took σ σ₁ q taken) (h' : Took σ₁ σ' q taken') : Took σ σ' q (taken ++ taken') where
  same := h.same.trans h'.same
  free := by rw [h.free, h'.free, List.append_assoc]
  mem a ha hnot := by
    rw [List.mem_append, not_or] at hnot
    exact (h'.mem a ha hnot.2).trans (h.mem a ha hnot.1)

theorem Took.freeOk (h : Took σ σ' q taken) (hfree : FreeOk σ.freePages) : FreeOk σ'.freePages := by
  rw [h.free] at hfree
  exact ⟨hfree.1.of_append_right, fun t ht => hfree.2 t (List.mem_append_right _ ht)⟩

theorem Took.not_mem (h : Took σ σ' q taken) (ha : a ∉ σ.freePages) : a ∉ taken ∧ a ∉ σ'.freePages := by
  rwa [h.free, List.mem_append, not_or] at ha

theorem tableLink_copied (hf : pageSize ∣ p) (h : present t = true) :
    tableLink (maskLow p pageSize ||| t % pageSize) = some p := by
  have hpresent : present (maskLow p pageSize ||| t % pageSize) = true := by
    rw [present, Nat.testBit_or, testBit_maskLow, show pageSize = 2 ^ 12 from rfl, Nat.testBit_mod_two_pow]
    simpa [present] using h
  rw [tableLink_of_present hpresent, maskLow_or, maskLow_maskLow, maskLow_of_dvd hf,
    maskLow_of_lt (Nat.mod_lt _ (by decide)), Nat.or_zero]

/-! ### The frames behind one entry -/

/-- The frames have been copied into the table `q`. -/
structure CopiedFrames (σ σ' : Vmm) (q : ℕ) (taken : List ℕ) : Prop extends Took σ σ' q taken where
  links : ∀ j, σ'.mem q j = σ.mem q j ∨ ∃ f ∈ taken, tableLink (σ'.mem q j) = some f

theorem CopiedFrames.trans (h : CopiedFrames σ σ₁ q taken) (h' : CopiedFrames σ₁ σ' q taken') :
    CopiedFrames σ σ' q (taken ++ taken') where
  toTook := h.toTook.trans h'.toTook
  links j := by
    rcases h'.links j with hsame | ⟨f, hf, hlink⟩
    · rw [hsame]
      exact (h.links j).imp_right fun ⟨f, hf, hlink⟩ => ⟨f, List.mem_append_left _ hf, hlink⟩
    · exact .inr ⟨f, List.mem_append_right _ hf, hlink⟩

/-- The number of present words of `t` from `j` on, among `n`. -/
def presentWords (σ : Vmm) (t j n : ℕ) : ℕ := (List.range' j n).countP fun k => present (σ.mem t k)

theorem presentWords_congr (h : σ'.mem t = σ.mem t) : presentWords σ' t j n = presentWords σ t j n := by
  rw [presentWords, h, presentWords]

theorem copyPage_same (dest src : ℕ) (σ : Vmm) :
    SameDescriptors σ (copyPage dest src σ) ∧ (copyPage dest src σ).freePages = σ.freePages ∧
      ∀ a, a ≠ dest → (copyPage dest src σ).mem a = σ.mem a := by
  rw [copyPage]
  split
  · exact ⟨.refl σ, rfl, fun _ _ => rfl⟩
  · exact ⟨⟨rfl, rfl, rfl, rfl, rfl, rfl, rfl⟩, rfl, fun a ha => Function.update_of_ne ha _ _⟩

/-- **One frame** for a present word `w`. -/
theorem copyFrame_copied (hfree : FreeOk σ.freePages) (hp : σ.freePages = p :: free) (hq : q ∉ σ.freePages)
    {w : ℕ} (hpres : present w = true) (s : ℕ) :
    CopiedFrames σ ((copyPage p s { σ with freePages := free }).setWord q j
      (maskLow p pageSize ||| w % pageSize)) q [p] := by
  have hmem : p ∈ σ.freePages := hp ▸ List.mem_cons_self
  obtain ⟨hsame, hpages, hcopy⟩ := copyPage_same p s { σ with freePages := free }
  refine ⟨⟨⟨hsame.1, hsame.2, hsame.3, hsame.4, hsame.5, hsame.6, hsame.7⟩, ?_, fun a ha hne => ?_⟩, fun k => ?_⟩
  · rw [hp]
    exact congrArg (p :: ·) hpages.symm
  · exact (TwoLevel.write_of_ne_page ha).trans (hcopy a fun he => hne (he ▸ List.mem_singleton_self p))
  · rcases eq_or_ne k j with rfl | hk
    · exact .inr ⟨p, List.mem_singleton_self p,
        (congrArg tableLink TwoLevel.write_self).trans (tableLink_copied (hfree.2 p hmem).2.1 hpres)⟩
    · exact .inl ((TwoLevel.write_of_ne_index hk).trans
        (congrFun (hcopy q fun he => hq (he ▸ hmem)) k))

/-- **`vmm_copy_frames`**: all frames are copied, or the pages run out. -/
theorem vmmCopyFramesFrom_outcome (hfree : FreeOk σ.freePages) (ht : σ.recursivePt i = some t)
    (htfree : t ∉ σ.freePages) (hcur : σ.currentPgDir ∉ σ.freePages) (hq : q ∉ σ.freePages) (htq : t ≠ q)
    (hcq : σ.currentPgDir ≠ q) :
    (∃ σ' taken, vmmCopyFramesFrom i q n j σ = some (0, σ') ∧ CopiedFrames σ σ' q taken ∧
      taken.length = presentWords σ t j n) ∨
    ∃ σ', vmmCopyFramesFrom i q n j σ = some (-1, σ') ∧ SameDescriptors σ σ' ∧ σ'.freePages = [] ∧
      σ.freePages.length < presentWords σ t j n := by
  induction n generalizing j σ with
  | zero => exact .inl ⟨σ, [], rfl, ⟨.refl, fun _ => .inl rfl⟩, rfl⟩
  | succ n ih =>
    have hwords : presentWords σ t j (n + 1) =
        presentWords σ t (j + 1) n + if present (σ.mem t j) = true then 1 else 0 := by
      rw [presentWords, List.range'_succ, List.countP_cons]
      rfl
    rcases hpres : present (σ.mem t j) with - | -
    · have hstep : vmmCopyFramesFrom i q (n + 1) j σ = vmmCopyFramesFrom i q n (j + 1) σ := by
        rw [vmmCopyFramesFrom, ht]
        simp [hpres]
      rw [hstep, hwords, hpres]
      exact ih hfree ht htfree hcur hq hcq
    · rcases hp : σ.freePages with - | ⟨p, free⟩
      · refine .inr ⟨σ, ?_, .refl σ, hp, ?_⟩
        · rw [vmmCopyFramesFrom, ht]
          simp [hpres, Vmm.allocPage, hp]
        · rw [hwords, hpres]
          exact Nat.succ_pos _
      · have hmem : p ∈ σ.freePages := hp ▸ List.mem_cons_self
        have htp : t ≠ p := fun he => htfree (he ▸ hmem)
        have hcp : σ.currentPgDir ≠ p := fun he => hcur (he ▸ hmem)
        obtain ⟨-, -, hcopy⟩ := copyPage_same p (maskLow (σ.mem t j) pageSize) { σ with freePages := free }
        have hword : (copyPage p (maskLow (σ.mem t j) pageSize) { σ with freePages := free }).mem t j = σ.mem t j :=
          congrFun (hcopy t htp) j
        have hone := copyFrame_copied (j := j) hfree hp hq hpres (maskLow (σ.mem t j) pageSize)
        obtain ⟨σ₁, hσ₁⟩ : ∃ σ₁, σ₁ = (copyPage p (maskLow (σ.mem t j) pageSize)
          { σ with freePages := free }).setWord q j (maskLow p pageSize ||| σ.mem t j % pageSize) := ⟨_, rfl⟩
        rw [← hσ₁] at hone
        have hstep : vmmCopyFramesFrom i q (n + 1) j σ = vmmCopyFramesFrom i q n (j + 1) σ₁ := by
          rw [vmmCopyFramesFrom, ht]
          simp [hpres, Vmm.allocPage, hp, (hfree.2 p hmem).1.ne', hword, hσ₁]
        have hmem₁ : ∀ a, a ≠ q → a ∉ σ.freePages → σ₁.mem a = σ.mem a := fun a ha hne =>
          hone.mem a ha (hone.toTook.not_mem hne).1
        have hpt₁ : σ₁.recursivePt i = some t := by
          rw [Vmm.recursivePt, hone.same.currentPgDir, hmem₁ _ hcq hcur]
          exact ht
        have hwords₁ := presentWords_congr (j := j + 1) (n := n) (hmem₁ t htq htfree)
        have hcur₁ : σ₁.currentPgDir = σ.currentPgDir := hone.same.currentPgDir
        rw [hstep, hwords, hpres, if_pos rfl, ← hwords₁]
        rcases ih (j := j + 1) (hone.toTook.freeOk hfree) hpt₁ (hone.toTook.not_mem htfree).2
            (by rw [hcur₁]; exact (hone.toTook.not_mem hcur).2) (hone.toTook.not_mem hq).2
            (by rwa [hcur₁]) with
          ⟨σ', taken, hrun, hcopied, hlen⟩ | ⟨σ', hrun, hsame, hnil, hlt⟩
        · refine .inl ⟨σ', p :: taken, hrun, hone.trans hcopied, ?_⟩
          rw [List.length_cons, hlen]
        · refine .inr ⟨σ', hrun, hone.same.trans hsame, hnil, ?_⟩
          rw [← hp, hone.free]
          exact Nat.succ_lt_succ hlt

/-! ### The entries of the directory -/

/-- What copying entries does to the number of free pages, from what each present entry
costs: `none` where the window has no table for it. -/
def copyOutcome : List (Option ℕ) → ℕ → Option (ℤ × ℕ)
  | [], free => some (0, free)
  | _ :: _, 0 => some (-1, 0)
  | none :: _, _ + 1 => none
  | some c :: costs, free + 1 => if c ≤ free then copyOutcome costs (free - c) else some (-1, 1)

/-- What the entry `i` of directory `s` costs besides its page table. -/
def slotCost (σ : Vmm) (s i : ℕ) : Option (Option ℕ) :=
  if present (σ.mem s i) then some ((σ.recursivePt i).map fun t => presentWords σ t 0 pageEntries) else none

/-- The costs of the present entries from `i` on, among `n`. -/
def slotCosts (σ : Vmm) (s i n : ℕ) : List (Option ℕ) := (List.range' i n).filterMap (slotCost σ s)

/-- The directory `d` is to become a copy of the directory `s`. -/
structure CopyReady (σ : Vmm) (s d : ℕ) : Prop where
  freeOk : FreeOk σ.freePages
  source : s ∉ σ.freePages ∧ s ≠ d
  current : σ.currentPgDir ∉ σ.freePages ∧ σ.currentPgDir ≠ d
  dir : d ∉ σ.freePages
  tables : ∀ i t, i < pageEntries → σ.recursivePt i = some t → t ∉ σ.freePages ∧ t ≠ d

/-- Entries have been copied into the directory `d`. -/
structure CopiedTables (σ σ' : Vmm) (d : ℕ) (taken : List ℕ) : Prop extends Took σ σ' d taken where
  links : ∀ i, σ'.mem d i = σ.mem d i ∨ ∃ t ∈ taken, tableLink (σ'.mem d i) = some t ∧
    ∀ j f, tableLink (σ'.mem t j) = some f → f ∈ taken

theorem CopyReady.recursivePt (h : CopyReady σ s d) (ht : Took σ σ' d taken) :
    σ'.recursivePt i = σ.recursivePt i := by
  rw [Vmm.recursivePt, ht.same.currentPgDir, ht.mem _ h.current.2 (ht.not_mem h.current.1).1,
    Vmm.recursivePt]

theorem CopyReady.took (h : CopyReady σ s d) (ht : Took σ σ' d taken) : CopyReady σ' s d where
  freeOk := ht.freeOk h.freeOk
  source := ⟨(ht.not_mem h.source.1).2, h.source.2⟩
  current := by
    rw [ht.same.currentPgDir]
    exact ⟨(ht.not_mem h.current.1).2, h.current.2⟩
  dir := (ht.not_mem h.dir).2
  tables i t hi hlink := by
    rw [h.recursivePt ht] at hlink
    obtain ⟨hfree, hd⟩ := h.tables i t hi hlink
    exact ⟨(ht.not_mem hfree).2, hd⟩

theorem CopyReady.slotCosts (h : CopyReady σ s d) (ht : Took σ σ' d taken) (hn : i + n ≤ pageEntries) :
    slotCosts σ' s i n = slotCosts σ s i n := by
  refine List.filterMap_congr fun k hk => ?_
  have hk := (List.mem_range'_1.1 hk).2
  have hcost : ∀ t, σ.recursivePt k = some t → presentWords σ' t 0 pageEntries = presentWords σ t 0 pageEntries :=
    fun t hlink => by
      obtain ⟨hfree, hd⟩ := h.tables k t (by omega) hlink
      exact presentWords_congr (ht.mem t hd (ht.not_mem hfree).1)
  rw [slotCost, slotCost, ht.mem s h.source.2 (ht.not_mem h.source.1).1, h.recursivePt ht]
  rcases hlink : σ.recursivePt k with - | t
  · rw [Option.map_none, Option.map_none]
  · rw [Option.map_some, Option.map_some, hcost t hlink]

theorem CopiedTables.trans (h : CopiedTables σ σ₁ d taken) (h' : CopiedTables σ₁ σ' d taken')
    (hfree : FreeOk σ.freePages) (hd : d ∉ σ.freePages) : CopiedTables σ σ' d (taken ++ taken') where
  toTook := h.toTook.trans h'.toTook
  links i := by
    rcases h'.links i with hsame | ⟨t, ht, hlink, hframes⟩
    · rw [hsame]
      refine (h.links i).imp_right fun ⟨t, ht, hlink, hframes⟩ =>
        ⟨t, List.mem_append_left _ ht, hlink, fun j f hf => List.mem_append_left _ (hframes j f ?_)⟩
      have htd : t ≠ d := fun he => (h.toTook.not_mem hd).1 (he ▸ ht)
      have htt : t ∉ taken' := fun hmem => by
        have hnd := hfree.1
        rw [h.free, h'.free] at hnd
        exact List.disjoint_of_nodup_append hnd ht (List.mem_append_left _ hmem)
      rwa [h'.mem t htd htt] at hf
    · exact .inr ⟨t, List.mem_append_right _ ht, hlink, fun j f hf => List.mem_append_right _ (hframes j f hf)⟩

/-- A page table with the frames behind entry `i` is linked. -/
theorem copiedTables_of_frames (h : CopyReady σ s d) (ht : σ.freePages = t :: free)
    (hf : CopiedFrames ({ σ with freePages := free }.zeroPage t) σ₁ t taken) {w : ℕ}
    (hw : present w = true) :
    CopiedTables σ (σ₁.setWord d i (maskLow t pageSize ||| w % pageSize)) d (t :: taken) := by
  have hmem : t ∈ σ.freePages := ht ▸ List.mem_cons_self
  have htd : t ≠ d := fun he => h.dir (he ▸ hmem)
  have hfree : free = taken ++ σ₁.freePages := hf.free
  have hdt : d ∉ taken := fun hmem => h.dir (by rw [ht, hfree]; exact List.mem_cons_of_mem _ (List.mem_append_left _ hmem))
  have hold : ∀ a, a ≠ t → a ∉ taken → σ₁.mem a = σ.mem a := fun a ha hne =>
    (hf.mem a ha hne).trans (TwoLevel.fill_of_ne ha)
  refine ⟨⟨⟨hf.same.1, hf.same.2, hf.same.3, hf.same.4, hf.same.5, hf.same.6, hf.same.7⟩, ?_,
    fun a ha hne => ?_⟩, fun k => ?_⟩
  · rw [ht, hfree]
    rfl
  · rw [List.mem_cons, not_or] at hne
    exact (TwoLevel.write_of_ne_page ha).trans (hold a hne.1 hne.2)
  · rcases eq_or_ne k i with rfl | hk
    · refine .inr ⟨t, List.mem_cons_self, (congrArg tableLink TwoLevel.write_self).trans
        (tableLink_copied (h.freeOk.2 t hmem).2.1 hw), fun j f hlink => List.mem_cons_of_mem _ ?_⟩
      change tableLink (TwoLevel.write σ₁.mem d k _ t j) = some f at hlink
      rw [TwoLevel.write_of_ne_page htd] at hlink
      rcases hf.links j with hsame | ⟨g, hg, hlink'⟩
      · have hzero : ({ σ with freePages := free }.zeroPage t).mem t j = 0 :=
          TwoLevel.fill_self
        rw [hsame, hzero, tableLink_zero] at hlink
        exact absurd hlink (by simp)
      · rw [hlink'] at hlink
        exact Option.some.inj hlink ▸ hg
    · exact .inl ((TwoLevel.write_of_ne_index hk).trans (congrFun (hold d htd.symm hdt) k))

/-- How the walk goes on from entry `i`. -/
inductive EntryCopied (σ : Vmm) (src dst d i : ℕ) : Option (Option ℕ) → Prop
  | absent : (∀ n, vmmCopyTablesFrom src dst (n + 1) i σ = vmmCopyTablesFrom src dst n (i + 1) σ) →
      EntryCopied σ src dst d i none
  | noPage (o : Option ℕ) : σ.freePages = [] → (∀ n, vmmCopyTablesFrom src dst (n + 1) i σ = some (-1, σ)) →
      EntryCopied σ src dst d i (some o)
  | fault : σ.freePages ≠ [] → (∀ n, vmmCopyTablesFrom src dst (n + 1) i σ = none) →
      EntryCopied σ src dst d i (some none)
  | noFrame (c t : ℕ) (free : List ℕ) (σ' : Vmm) : σ.freePages = t :: free → free.length < c →
      (∀ n, vmmCopyTablesFrom src dst (n + 1) i σ = some (-1, σ')) → SameDescriptors σ σ' →
      σ'.freePages = [t] → EntryCopied σ src dst d i (some (some c))
  | copied (c t : ℕ) (σ₁ : Vmm) (taken : List ℕ) : CopiedTables σ σ₁ d (t :: taken) → taken.length = c →
      (∀ j, j ≠ i → σ₁.mem d j = σ.mem d j) →
      (∀ n, vmmCopyTablesFrom src dst (n + 1) i σ = vmmCopyTablesFrom src dst n (i + 1) σ₁) →
      EntryCopied σ src dst d i (some (some c))

/-- **One entry.** -/
theorem vmmCopyTablesFrom_step {src dst : ℕ} (h : CopyReady σ s d) (hs : (σ.region src).pgDir = s)
    (hd : (σ.region dst).pgDir = d) (hi : i < pageEntries) : EntryCopied σ src dst d i (slotCost σ s i) := by
  have hpde : σ.pde src i = σ.mem s i := by rw [Vmm.pde, hs]
  rw [slotCost]
  rcases hpres : present (σ.mem s i) with - | -
  · refine .absent fun n => ?_
    rw [vmmCopyTablesFrom, hpde, hpres]
    rfl
  · rw [if_pos rfl]
    rcases hfree : σ.freePages with - | ⟨t, free⟩
    · refine .noPage _ hfree fun n => ?_
      rw [vmmCopyTablesFrom, hpde, hpres]
      simp [Vmm.allocPage, hfree]
    · have hmem : t ∈ σ.freePages := hfree ▸ List.mem_cons_self
      have ht0 : t ≠ 0 := (h.freeOk.2 t hmem).1.ne'
      have hstep : ∀ n, vmmCopyTablesFrom src dst (n + 1) i σ =
          (vmmCopyFrames i t ({ σ with freePages := free }.zeroPage t)).bind fun o =>
            if o.1 < 0 then some (-1, o.2.freePage t)
            else vmmCopyTablesFrom src dst n (i + 1) (o.2.setWord (o.2.region dst).pgDir i
              (maskLow t pageSize ||| o.2.pde src i % pageSize)) := fun n => by
        rw [vmmCopyTablesFrom, hpde, hpres]
        simp only [Vmm.allocPage, hfree, ht0, if_true, if_false]
        rfl
      have hpt : ({ σ with freePages := free }.zeroPage t).recursivePt i = σ.recursivePt i := by
        have hct : σ.currentPgDir ≠ t := fun he => h.current.1 (he ▸ hmem)
        exact congrArg (fun page => tableLink (page i)) (TwoLevel.fill_of_ne hct)
      rcases hlink : σ.recursivePt i with - | u
      · refine .fault (by rw [hfree]; simp) fun n => ?_
        rw [hstep, vmmCopyFrames, show pageEntries = 1023 + 1 from rfl, vmmCopyFramesFrom, hpt, hlink]
        rfl
      · obtain ⟨hu, hud⟩ := h.tables i u hi hlink
        have hnot : ∀ a, a ∉ σ.freePages → a ∉ free ∧ a ≠ t := fun a ha => by
          rw [hfree, List.mem_cons, not_or] at ha
          exact ⟨ha.2, ha.1⟩
        have hnd := List.nodup_cons.1 (hfree ▸ h.freeOk.1)
        have hfreeOk : FreeOk free :=
          ⟨hnd.2, fun a ha => h.freeOk.2 a (hfree ▸ List.mem_cons_of_mem _ ha)⟩
        have hwords : presentWords ({ σ with freePages := free }.zeroPage t) u 0 pageEntries =
            presentWords σ u 0 pageEntries := presentWords_congr (TwoLevel.fill_of_ne (hnot u hu).2)
        rw [Option.map_some, ← hwords]
        rcases vmmCopyFramesFrom_outcome (σ := { σ with freePages := free }.zeroPage t) (n := pageEntries)
            (j := 0) hfreeOk (hpt.trans hlink) (hnot u hu).1 (hnot _ h.current.1).1 hnd.1
            (hnot u hu).2 (hnot _ h.current.1).2 with
          ⟨σ₁, taken, hrun, hcopied, hlen⟩ | ⟨σ₁, hrun, hsame, hnil, hlt⟩
        · have hpde₁ : σ₁.pde src i = σ.mem s i := by
            rw [Vmm.pde, hcopied.same.region]
            change σ₁.mem (σ.region src).pgDir i = _
            rw [hs, hcopied.mem s (hnot s h.source.1).2 (hcopied.toTook.not_mem (hnot s h.source.1).1).1]
            exact congrFun (TwoLevel.fill_of_ne (hnot s h.source.1).2) i
          have hd₁ : (σ₁.region dst).pgDir = d := by
            rw [hcopied.same.region]
            exact hd
          have hone := copiedTables_of_frames (i := i) h hfree hcopied hpres
          refine .copied _ t _ taken hone hlen (fun j hj => ?_) fun n => ?_
          · have htd : t ≠ d := fun he => h.dir (he ▸ hmem)
            refine (TwoLevel.write_of_ne_index hj).trans ?_
            rw [hcopied.mem d htd.symm (hcopied.toTook.not_mem (hnot d h.dir).1).1]
            exact congrFun (TwoLevel.fill_of_ne htd.symm) j
          · rw [hstep, show vmmCopyFrames i t _ = some (0, σ₁) from hrun]
            change vmmCopyTablesFrom src dst n (i + 1) (σ₁.setWord (σ₁.region dst).pgDir i
              (maskLow t pageSize ||| σ₁.pde src i % pageSize)) = _
            rw [hpde₁, hd₁]
        · have hs₁ := hsame.trans (freePage_same t σ₁).1
          refine .noFrame _ t free (σ₁.freePage t) hfree hlt (fun n => ?_)
            ⟨hs₁.1, hs₁.2, hs₁.3, hs₁.4, hs₁.5, hs₁.6, hs₁.7⟩ ?_
          · rw [hstep, show vmmCopyFrames i t _ = some (-1, σ₁) from hrun]
            rfl
          · rw [Vmm.freePage, if_neg ht0, hnil, maskLow_of_dvd (h.freeOk.2 t hmem).2.1]

theorem copyOutcome_cons_some (c L : ℕ) (costs : List (Option ℕ)) (h : c ≤ L) :
    copyOutcome (some c :: costs) (L + 1) = copyOutcome costs (L - c) := if_pos h

/-- **How far the copy gets**, in memory and by the numbers, when `k` more entries are to
follow. -/
theorem vmmCopyTablesFrom_outcome {src dst : ℕ} (h : CopyReady σ s d) (hs : (σ.region src).pgDir = s)
    (hd : (σ.region dst).pgDir = d) (hn : i + n ≤ pageEntries) :
    ((∀ k, vmmCopyTablesFrom src dst (n + k) i σ = none) ∧
      copyOutcome (slotCosts σ s i n) σ.freePages.length = none) ∨
    (∃ σ', (∀ k, vmmCopyTablesFrom src dst (n + k) i σ = some (-1, σ')) ∧ SameDescriptors σ σ' ∧
      σ'.freePages.Sublist σ.freePages ∧
      copyOutcome (slotCosts σ s i n) σ.freePages.length = some (-1, σ'.freePages.length)) ∨
    ∃ σ' taken, (∀ k, vmmCopyTablesFrom src dst (n + k) i σ = vmmCopyTablesFrom src dst k (i + n) σ') ∧
      CopiedTables σ σ' d taken ∧
      copyOutcome (slotCosts σ s i n) σ.freePages.length = some (0, σ'.freePages.length) := by
  induction n generalizing i σ with
  | zero =>
    exact .inr (.inr ⟨σ, [], fun k => by rw [Nat.zero_add, Nat.add_zero], ⟨.refl, fun _ => .inl rfl⟩, rfl⟩)
  | succ n ih =>
    have hcosts : slotCosts σ s i (n + 1) = (slotCost σ s i).toList ++ slotCosts σ s (i + 1) n := by
      rw [slotCosts, List.range'_succ, List.filterMap_cons]
      rcases slotCost σ s i with - | o <;> rfl
    have hentry := vmmCopyTablesFrom_step h hs hd (by omega : i < pageEntries)
    have hindex : i + (n + 1) = i + 1 + n := by omega
    simp only [hcosts, hindex, Nat.add_right_comm n 1]
    generalize slotCost σ s i = o at hentry
    cases hentry with
    | absent hstep =>
      simp only [hstep]
      exact ih h hs hd (by omega)
    | noPage o hfree hstep =>
      refine .inr (.inl ⟨σ, fun k => hstep _, .refl σ, .refl _, ?_⟩)
      rw [hfree]
      rfl
    | fault hfree hstep =>
      refine .inl ⟨fun k => hstep _, ?_⟩
      obtain ⟨t, free, hfree⟩ := List.exists_cons_of_ne_nil hfree
      rw [hfree]
      rfl
    | noFrame c t free σ' hfree hlt hstep hsame hpages =>
      refine .inr (.inl ⟨σ', fun k => hstep _, hsame, ?_, ?_⟩)
      · rw [hpages, hfree]
        exact List.singleton_sublist.2 List.mem_cons_self
      · rw [hpages, hfree]
        exact if_neg (Nat.not_le.2 hlt)
    | copied c t σ₁ taken hcopied hlen _ hstep =>
      have hready := h.took hcopied.toTook
      have hlength : σ.freePages.length = (c + σ₁.freePages.length) + 1 := by
        rw [hcopied.free, List.length_append, List.length_cons, hlen]
        omega
      have hgo : copyOutcome ((some (some c)).toList ++ slotCosts σ s (i + 1) n) σ.freePages.length =
          copyOutcome (slotCosts σ₁ s (i + 1) n) σ₁.freePages.length := by
        have hcosts₁ : slotCosts σ₁ s (i + 1) n = slotCosts σ s (i + 1) n :=
          h.slotCosts hcopied.toTook (by omega)
        rw [hcosts₁, hlength]
        refine (copyOutcome_cons_some _ _ _ (Nat.le_add_right _ _)).trans ?_
        rw [Nat.add_sub_cancel_left]
        rfl
      simp only [hstep]
      rw [hgo]
      rcases ih (i := i + 1) hready (by rw [hcopied.same.region]; exact hs)
          (by rw [hcopied.same.region]; exact hd) (by omega) with
        h0 | ⟨σ', hrun, hsame, hsub, hout⟩ | ⟨σ', taken', hrun, hcopied', hout⟩
      · exact .inl h0
      · refine .inr (.inl ⟨σ', hrun, hcopied.same.trans hsame, hsub.trans ?_, hout⟩)
        rw [hcopied.free]
        exact List.sublist_append_right _ _
      · exact .inr (.inr ⟨σ', t :: taken ++ taken', hrun, hcopied.trans hcopied' h.freeOk h.dir, hout⟩)

/-- A copy takes a page for each present entry and what is behind it. -/
theorem copyOutcome_done {costs : List (Option ℕ)} {L : ℕ} :
    (∃ L', copyOutcome costs L = some (0, L')) ↔
      (∀ o ∈ costs, o ≠ none) ∧ (costs.map fun o => o.getD 0 + 1).sum ≤ L := by
  induction costs generalizing L with
  | nil => simp [copyOutcome]
  | cons o costs ih =>
    cases L with
    | zero => simp [copyOutcome]
    | succ L =>
      cases o with
      | none => simp [copyOutcome]
      | some c =>
        rw [copyOutcome]
        split
        · next hc =>
          rw [ih]
          simp only [List.mem_cons, forall_eq_or_imp, List.map_cons, List.sum_cons, Option.getD_some]
          constructor
          · rintro ⟨h, hsum⟩
            exact ⟨⟨by simp, h⟩, by omega⟩
          · rintro ⟨⟨-, h⟩, hsum⟩
            exact ⟨h, by omega⟩
        · next hc =>
          simp only [List.mem_cons, forall_eq_or_imp, List.map_cons, List.sum_cons, Option.getD_some]
          constructor
          · rintro ⟨L', hL⟩
            exact absurd hL (by simp)
          · rintro ⟨-, hsum⟩
            omega

/-! ### The whole copy -/

/-- The new directory `d` and descriptor `dst` are there, and nothing has been copied. -/
structure CopyBegun (σ σ₁ : Vmm) (src dst d : ℕ) : Prop where
  ready : CopyReady σ₁ (σ.region src).pgDir d
  srcDir : (σ₁.region src).pgDir = (σ.region src).pgDir
  dstDir : (σ₁.region dst).pgDir = d
  free : σ.freePages = d :: σ₁.freePages
  mem : ∀ a, a ≠ d → σ₁.mem a = σ.mem a
  zero : ∀ i, σ₁.mem d i = 0
  list : ∀ r, r ∉ σ.objects → (σ₁.region r).next = (σ.region r).next
  regionList : σ₁.regionList = σ.regionList
  costs : ∀ n, n ≤ pageEntries →
    slotCosts σ₁ (σ.region src).pgDir 0 n = slotCosts σ (σ.region src).pgDir 0 n

/-- What follows the walk over the entries. -/
def copyFinish (dst d : ℕ) (o : ℤ × Vmm) : Option (Option ℕ × Vmm) :=
  if o.1 < 0 then (vmmRegionDestroy dst o.2).bind fun σ => some (none, σ)
  else some (some dst, vmmRegionInsert dst (o.2.setWord d recursivePde (pageEntry d pageRw)))

theorem copyFinish_failed {dst : ℕ} : copyFinish dst d (-1, σ) ≠ some (some r, σ') := by
  rw [copyFinish, if_pos (show (-1 : ℤ) < 0 by decide)]
  intro h
  obtain ⟨σ₁, -, hres⟩ := Option.bind_eq_some_iff.1 h
  exact absurd hres (by simp)

/-- How `vmm_copy_pagemap` begins. -/
inductive CopyStarted (σ : Vmm) (src : ℕ) : Prop
  | noPage : σ.freePages = [] → vmmCopyPagemap src σ = some (none, σ) → CopyStarted σ src
  | noObject (d : ℕ) (σ' : Vmm) : σ.freePages = d :: σ'.freePages → σ.objects = [] →
      vmmCopyPagemap src σ = some (none, σ') → CopyStarted σ src
  | begun (dst d : ℕ) (σ₁ : Vmm) : CopyBegun σ σ₁ src dst d → σ.objects = dst :: σ₁.objects →
      vmmCopyPagemap src σ = (vmmCopyTablesFrom src dst pageEntries 0 σ₁).bind (copyFinish dst d) →
      CopyStarted σ src

theorem vmmCopyPagemap_started {src : ℕ} (h : Spaces σ dirs) (hsrc : dirs (σ.region src).pgDir)
    (hcur : dirs σ.currentPgDir) (hobj : src ∉ σ.objects) : CopyStarted σ src := by
  rcases hfree : σ.freePages with - | ⟨d, free⟩
  · refine .noPage hfree ?_
    rw [vmmCopyPagemap, vmmNewCopiedPgdir, Vmm.allocPage, hfree]
    rfl
  · have hmem : d ∈ σ.freePages := hfree ▸ List.mem_cons_self
    have hd0 : d ≠ 0 := (h.free_page d hmem).1.ne'
    have hplain := h.free_plain d hmem
    rcases hobjects : σ.objects with - | ⟨dst, objects⟩
    · refine .noObject d ({ σ with freePages := free }.zeroPage d) hfree hobjects ?_
      rw [vmmCopyPagemap, vmmNewCopiedPgdir, Vmm.allocPage, hfree]
      simp only [hd0, if_false, Vmm.kmalloc, Vmm.zeroPage, hobjects]
    · obtain ⟨σ₁, hσ₁⟩ : ∃ σ₁, σ₁ = ({ { σ with freePages := free }.zeroPage d with
          objects := objects } : Vmm).setRegion dst { σ.region dst with
            pgDir := d, next := none, baseVa := (σ.region src).baseVa,
            nextFreeVa := (σ.region src).nextFreeVa } := ⟨_, rfl⟩
      have hrun : vmmCopyPagemap src σ =
          (vmmCopyTablesFrom src dst pageEntries 0 σ₁).bind (copyFinish dst d) := by
        rw [vmmCopyPagemap, vmmNewCopiedPgdir, Vmm.allocPage, hfree]
        simp only [hd0, if_false, Vmm.kmalloc, Vmm.zeroPage, hobjects]
        rw [hσ₁]
        rfl
      have hne : ∀ a, dirs a → a ≠ d ∧ a ∉ free := fun a ha => ⟨fun he => hplain.1 (he ▸ ha), fun hfr =>
        (h.free_plain a (hfree ▸ List.mem_cons_of_mem _ hfr)).1 ha⟩
      have hmem₁ : ∀ a, a ≠ d → σ₁.mem a = σ.mem a := fun a ha => by
        rw [hσ₁]
        exact TwoLevel.fill_of_ne ha
      have hcur₁ : σ₁.currentPgDir = σ.currentPgDir := by
        rw [hσ₁]
        rfl
      have hfree₁ : σ₁.freePages = free := by
        rw [hσ₁]
        rfl
      have hregion : σ₁.region = Function.update σ.region dst { σ.region dst with
            pgDir := d, next := none, baseVa := (σ.region src).baseVa,
            nextFreeVa := (σ.region src).nextFreeVa } := by
        rw [hσ₁]
        rfl
      have hpt : ∀ i, σ₁.recursivePt i = σ.recursivePt i := fun i => by
        rw [Vmm.recursivePt, hcur₁, hmem₁ _ (hne _ hcur).1, Vmm.recursivePt]
      have htables : ∀ i t, i < pageEntries → σ.recursivePt i = some t → t ∉ free ∧ t ≠ d := by
        intro i t hi hlink
        rcases Nat.lt_or_ge i recursivePde with hlt | hge
        · exact ⟨fun hfr => (h.free_plain t (hfree ▸ List.mem_cons_of_mem _ hfr)).2 _ i hcur hlt hlink,
            fun he => hplain.2 _ i hcur hlt (he ▸ hlink)⟩
        · obtain rfl : i = recursivePde := le_antisymm (Nat.lt_succ_iff.1 hi) hge
          obtain rfl := Option.some.inj (hlink.symm.trans (h.self _ hcur))
          exact ⟨(hne _ hcur).2, (hne _ hcur).1⟩
      have hnot : dst ≠ src := fun he => hobj (by rw [hobjects, he]; exact List.mem_cons_self)
      have hnd := List.nodup_cons.1 (hfree ▸ h.free_nodup)
      refine .begun dst d σ₁ ⟨⟨?_, ?_, ?_, ?_, ?_⟩, ?_, ?_, ?_, hmem₁, fun i => ?_, fun r hr => ?_, ?_,
        fun n hn => ?_⟩ ?_ hrun
      · rw [hfree₁]
        exact ⟨hnd.2, fun t ht => h.free_page t (hfree ▸ List.mem_cons_of_mem _ ht)⟩
      · rw [hfree₁]
        exact (hne _ hsrc).symm
      · rw [hfree₁, hcur₁]
        exact (hne _ hcur).symm
      · rw [hfree₁]
        exact hnd.1
      · intro i t hi hlink
        rw [hfree₁]
        exact htables i t hi ((hpt i).symm.trans hlink)
      · rw [hregion, Function.update_of_ne hnot.symm]
      · rw [hregion, Function.update_self]
      · rw [hfree₁, hfree]
      · rw [hσ₁]
        exact TwoLevel.fill_self
      · have hr : r ≠ dst := fun he => hr (by rw [hobjects, he]; exact List.mem_cons_self)
        rw [hregion, Function.update_of_ne hr]
      · rw [hσ₁]
        rfl
      · refine List.filterMap_congr fun k hk => ?_
        have hk := (List.mem_range'_1.1 hk).2
        rw [slotCost, slotCost, hmem₁ _ (hne _ hsrc).1, hpt]
        rcases hlink : σ.recursivePt k with - | t
        · rw [Option.map_none, Option.map_none]
        · rw [Option.map_some, Option.map_some,
            presentWords_congr (hmem₁ t (htables k t (by omega) hlink).2)]
      · rw [hσ₁, hobjects]
        rfl

/-- The copy is not cut short: there are a descriptor and a page for the directory, each
present entry has its table in the window, and there are pages for them and for what is
behind them. -/
def CopyFits (src : ℕ) (σ : Vmm) : Prop :=
  σ.objects ≠ [] ∧ (∀ i < pageEntries, present (σ.pde src i) = true → (σ.recursivePt i).isSome = true) ∧
    1 + ((slotCosts σ (σ.region src).pgDir 0 pageEntries).map fun o => o.getD 0 + 1).sum ≤ σ.freePages.length

theorem slotCosts_ne_none {src : ℕ} : (∀ o ∈ slotCosts σ (σ.region src).pgDir 0 pageEntries, o ≠ none) ↔
    ∀ i < pageEntries, present (σ.pde src i) = true → (σ.recursivePt i).isSome = true := by
  constructor
  · intro h i hi hpres
    refine Option.isSome_iff_ne_none.2 fun hnone => ?_
    refine h none (List.mem_filterMap.2 ⟨i, List.mem_range'_1.2 ⟨Nat.zero_le i, by omega⟩, ?_⟩) rfl
    rw [slotCost, if_pos (show present (σ.mem (σ.region src).pgDir i) = true from hpres), hnone]
    rfl
  · intro h o ho
    obtain ⟨i, hi, hcost⟩ := List.mem_filterMap.1 ho
    rw [slotCost] at hcost
    split at hcost
    · next hpres =>
      obtain ⟨t, ht⟩ := Option.isSome_iff_exists.1 (h i (by have := (List.mem_range'_1.1 hi).2; omega) hpres)
      rw [ht] at hcost
      exact fun ho => absurd (hcost.trans (congrArg some ho)) (by simp)
    · exact absurd hcost (by simp)

/-- **A copy is returned** exactly when it is not cut short. -/
theorem vmmCopyPagemap_returns {src : ℕ} (h : Spaces σ dirs) (hsrc : dirs (σ.region src).pgDir)
    (hcur : dirs σ.currentPgDir) (hobj : src ∉ σ.objects) :
    (∃ dst σ', vmmCopyPagemap src σ = some (some dst, σ')) ↔ CopyFits src σ := by
  rw [CopyFits, ← slotCosts_ne_none]
  cases vmmCopyPagemap_started h hsrc hcur hobj with
  | noPage hfree hrun =>
    rw [hrun, hfree]
    constructor
    · rintro ⟨dst, σ', hres⟩
      exact absurd hres (by simp)
    · rintro ⟨-, -, hsum⟩
      exact absurd hsum (by simp)
  | noObject d σ' hfree hobjects hrun =>
    rw [hrun]
    constructor
    · rintro ⟨dst, σ', hres⟩
      exact absurd hres (by simp)
    · rintro ⟨hne, -⟩
      exact absurd hobjects hne
  | begun dst d σ₁ hb hobjects hrun =>
    have hlen : σ.freePages.length = σ₁.freePages.length + 1 := by
      rw [hb.free, List.length_cons]
    have hdone : (∃ L', copyOutcome (slotCosts σ₁ (σ.region src).pgDir 0 pageEntries)
        σ₁.freePages.length = some (0, L')) ↔ _ := copyOutcome_done
    rw [hb.costs _ le_rfl] at hdone
    have hfits : (σ.objects ≠ [] ∧ (∀ o ∈ slotCosts σ (σ.region src).pgDir 0 pageEntries, o ≠ none) ∧
        1 + ((slotCosts σ (σ.region src).pgDir 0 pageEntries).map fun o => o.getD 0 + 1).sum ≤
          σ.freePages.length) ↔
        ∃ L', copyOutcome (slotCosts σ (σ.region src).pgDir 0 pageEntries) σ₁.freePages.length = some (0, L') := by
      rw [hdone, hlen, hobjects, Nat.add_comm 1, Nat.succ_le_succ_iff]
      simp
    rw [hfits, hrun, ← hb.costs _ le_rfl]
    rcases vmmCopyTablesFrom_outcome (n := pageEntries) (i := 0) hb.ready hb.srcDir hb.dstDir
        (Nat.zero_add _).le with
      ⟨hnone, hout⟩ | ⟨σ₂, hfail, -, -, hout⟩ | ⟨σ₂, taken, hcopied, -, hout⟩
    · rw [show vmmCopyTablesFrom src dst pageEntries 0 σ₁ = none from hnone 0, hout]
      constructor
      · rintro ⟨dst', σ', hres⟩
        exact absurd hres (by simp)
      · rintro ⟨L', hL⟩
        exact absurd hL (by simp)
    · rw [show vmmCopyTablesFrom src dst pageEntries 0 σ₁ = some (-1, σ₂) from hfail 0, hout]
      constructor
      · rintro ⟨dst', σ', hres⟩
        exact absurd hres copyFinish_failed
      · rintro ⟨L', hL⟩
        exact absurd hL (by simp)
    · rw [show vmmCopyTablesFrom src dst pageEntries 0 σ₁ = some (0, σ₂) from hcopied 0, hout]
      exact iff_of_true ⟨dst, _, rfl⟩ ⟨_, rfl⟩

/-! ### Private copies -/

/-- The page `f` is the directory `d`, or some page of the address space shows it; the
window shows the page tables. -/
def ReachableFrom (σ : Vmm) (d f : ℕ) : Prop :=
  f = d ∨ ∃ p < pageEntries * pageEntries, tableLink (σ.word d p) = some f

/-- The region `dst` is a private copy of the region `src`. -/
structure PrivateCopy (src dst : ℕ) (σ σ' : Vmm) : Prop where
  maps : ∀ p < windowPage,
    present (σ'.word (σ'.region dst).pgDir p) = present (σ.word (σ.region src).pgDir p)
  flags : ∀ p < windowPage, present (σ.word (σ.region src).pgDir p) = true →
    σ'.word (σ'.region dst).pgDir p % pageSize = σ.word (σ.region src).pgDir p % pageSize
  content : ∀ p < windowPage, present (σ.word (σ.region src).pgDir p) = true → ∀ i < pageEntries,
    σ'.mem (maskLow (σ'.word (σ'.region dst).pgDir p) pageSize) i =
      σ.mem (maskLow (σ.word (σ.region src).pgDir p) pageSize) i
  apart : ∀ p < windowPage, ∀ f, tableLink (σ'.word (σ'.region dst).pgDir p) = some f → ∀ q < windowPage,
    tableLink (σ'.word (σ.region src).pgDir q) ≠ some f ∧
      (q ≠ p → tableLink (σ'.word (σ'.region dst).pgDir q) ≠ some f)
  source : ∀ p < windowPage, σ'.word (σ.region src).pgDir p = σ.word (σ.region src).pgDir p
  reachable : ∀ f ∈ σ.freePages, f ∉ σ'.freePages → ReachableFrom σ' (σ'.region dst).pgDir f

/-- What is reachable from a copy, when `t` is the table made for the entry `recursivePde`. -/
theorem not_reachableFrom (hσ₁ : FreeOk σ₁.freePages) (hd : d ∉ σ₁.freePages) (hdir : pageSize ∣ d)
    (hzero : ∀ i, σ₁.mem d i = 0) (hcopied : CopiedTables σ₁ σ₂ d taken) (ht : t ∈ σ₂.freePages)
    (htables : ∀ u ∈ taken, σ'.mem u = σ₂.mem u)
    (hwords : ∀ i, i ≠ recursivePde → σ'.mem d i = σ₂.mem d i)
    (hself : σ'.mem d recursivePde = pageEntry d pageRw) : ¬ ReachableFrom σ' d t := by
  have hnot : t ∉ taken := fun hmem => by
    have hnd := hσ₁.1
    rw [hcopied.free] at hnd
    exact List.disjoint_of_nodup_append hnd hmem ht
  have htd : t ≠ d := fun he => hd (by rw [hcopied.free, ← he]; exact List.mem_append_right _ ht)
  have hlink : tableLink (σ'.mem d recursivePde) = some d := by
    rw [hself]
    exact tableLink_pageEntry hdir (by decide)
  rintro (he | ⟨p, -, hp⟩)
  · exact htd he
  · rcases eq_or_ne (p / pageEntries) recursivePde with hwindow | hbelow
    · rw [word_of_link (by rw [hwindow]; exact hlink)] at hp
      rcases eq_or_ne (p % pageEntries) recursivePde with hi | hi
      · rw [hi, hlink] at hp
        exact htd (Option.some.inj hp).symm
      · rw [hwords _ hi] at hp
        rcases hcopied.links (p % pageEntries) with hsame | ⟨u, hu, hu', -⟩
        · rw [hsame, hzero, tableLink_zero] at hp
          exact absurd hp (by simp)
        · rw [hu'] at hp
          exact hnot (Option.some.inj hp ▸ hu)
    · rcases hcopied.links (p / pageEntries) with hsame | ⟨u, hu, hu', hframes⟩
      · have hnone : σ'.hasTable d (p / pageEntries) = false := by
          rw [Vmm.hasTable, hwords _ hbelow, hsame, hzero]
          rfl
        rw [word_of_absent hnone, tableLink_zero] at hp
        exact absurd hp (by simp)
      · rw [word_of_link (by rw [hwords _ hbelow]; exact hu'), htables u hu] at hp
        exact hnot (hframes _ _ hp)

/-- **A copy is never all there is to it**: the page table that was made of the entry for
the directory itself is not reachable. -/
theorem exists_unreachable {src dst : ℕ} (h : Spaces σ dirs) (hsrc : dirs (σ.region src).pgDir)
    (hcur : dirs σ.currentPgDir) (hobj : src ∉ σ.objects)
    (hrun : vmmCopyPagemap src σ = some (some dst, σ')) :
    ∃ f ∈ σ.freePages, f ∉ σ'.freePages ∧ ¬ ReachableFrom σ' (σ'.region dst).pgDir f := by
  cases vmmCopyPagemap_started h hsrc hcur hobj with
  | noPage _ hnone => exact absurd (hnone.symm.trans hrun) (by simp)
  | noObject _ _ _ _ hnone => exact absurd (hnone.symm.trans hrun) (by simp)
  | begun dst' d σ₁ hb hobjects hbegun =>
    have hd : pageSize ∣ d := (h.free_page d (by rw [hb.free]; exact List.mem_cons_self)).2.1
    have hrun := hbegun.symm.trans hrun
    rw [show pageEntries = recursivePde + 1 from rfl] at hrun
    rcases vmmCopyTablesFrom_outcome (n := recursivePde) (i := 0) hb.ready hb.srcDir hb.dstDir
        (by decide) with
      ⟨hnone, -⟩ | ⟨σ₂, hfail, -⟩ | ⟨σ₂, taken, hgo, hcopied, -⟩
    · rw [hnone 1] at hrun
      exact absurd hrun (by simp)
    · rw [hfail 1] at hrun
      exact absurd hrun copyFinish_failed
    · have hready := hb.ready.took hcopied.toTook
      have hself : slotCost σ₂ (σ.region src).pgDir recursivePde ≠ none := by
        have hword : σ₂.mem (σ.region src).pgDir = σ.mem (σ.region src).pgDir :=
          (hcopied.mem _ hb.ready.source.2 (hcopied.toTook.not_mem hb.ready.source.1).1).trans
            (hb.mem _ hb.ready.source.2)
        rw [slotCost, hword, if_pos (tableLink_eq_some.1 (h.self _ hsrc)).1]
        exact Option.some_ne_none _
      have hentry := vmmCopyTablesFrom_step (i := recursivePde) hready
        (by rw [hcopied.same.region]; exact hb.srcDir) (by rw [hcopied.same.region]; exact hb.dstDir)
        (by decide)
      rw [hgo 1, Nat.zero_add] at hrun
      generalize slotCost σ₂ (σ.region src).pgDir recursivePde = o at hentry hself
      cases hentry with
      | absent => exact absurd rfl hself
      | noPage o _ hstep =>
        rw [hstep 0] at hrun
        exact absurd hrun copyFinish_failed
      | fault _ hstep =>
        rw [hstep 0] at hrun
        exact absurd hrun (by simp)
      | noFrame c t free σ₃ _ _ hstep =>
        rw [hstep 0] at hrun
        exact absurd hrun copyFinish_failed
      | copied c t σ₃ taken' hlast _ hother hstep =>
        rw [hstep 0] at hrun
        have hres : (some dst', vmmRegionInsert dst' (σ₃.setWord d recursivePde (pageEntry d pageRw))) =
            (some dst, σ') := Option.some.inj hrun
        obtain ⟨hdst, rfl⟩ := Prod.mk.inj hres
        obtain rfl := Option.some.inj hdst
        have hpages : (vmmRegionInsert dst' (σ₃.setWord d recursivePde (pageEntry d pageRw))).freePages =
          σ₃.freePages := rfl
        have hmem : (vmmRegionInsert dst' (σ₃.setWord d recursivePde (pageEntry d pageRw))).mem =
          TwoLevel.write σ₃.mem d recursivePde (pageEntry d pageRw) := rfl
        have hdst : ((vmmRegionInsert dst' (σ₃.setWord d recursivePde (pageEntry d pageRw))).region dst').pgDir =
            d := by
          change (Function.update σ₃.region dst' _ dst').pgDir = d
          rw [Function.update_self]
          change (σ₃.region dst').pgDir = d
          rw [hlast.same.region, hcopied.same.region]
          exact hb.dstDir
        have ht₂ : t ∈ σ₂.freePages := by
          rw [hlast.free]
          exact List.mem_append_left _ List.mem_cons_self
        rw [hpages, hdst]
        refine ⟨t, ?_, fun hmem => ?_, not_reachableFrom hb.ready.freeOk hb.ready.dir hd hb.zero hcopied ht₂
          (fun u hu => ?_) (fun i hi => ?_) ?_⟩
        · rw [hb.free, hcopied.free]
          exact List.mem_cons_of_mem _ (List.mem_append_right _ ht₂)
        · have hnd := hready.freeOk.1
          rw [hlast.free] at hnd
          exact List.disjoint_of_nodup_append hnd List.mem_cons_self hmem
        · have hud : u ≠ d := fun he => (hcopied.toTook.not_mem hb.ready.dir).1 (he ▸ hu)
          have hut : u ∉ t :: taken' := fun hmem => by
            have hnd := hb.ready.freeOk.1
            rw [hcopied.free, hlast.free] at hnd
            exact List.disjoint_of_nodup_append hnd hu (List.mem_append_left _ hmem)
          rw [hmem, TwoLevel.write_of_ne_page hud]
          exact hlast.mem u hud hut
        · rw [hmem, TwoLevel.write_of_ne_index hi]
          exact hother i hi
        · rw [hmem, TwoLevel.write_self]

/-- **`vmm_copy_pagemap` gives a private copy**, when it returns one, exactly when it
returns none. -/
theorem private_copy_iff {src : ℕ} (h : Spaces σ dirs) (hsrc : dirs (σ.region src).pgDir)
    (hcur : dirs σ.currentPgDir) (hobj : src ∉ σ.objects) :
    (∀ dst σ', vmmCopyPagemap src σ = some (some dst, σ') → PrivateCopy src dst σ σ') ↔ ¬ CopyFits src σ := by
  rw [← vmmCopyPagemap_returns h hsrc hcur hobj]
  constructor
  · rintro hall ⟨dst, σ', hrun⟩
    obtain ⟨f, hf, hnot, hunreachable⟩ := exists_unreachable h hsrc hcur hobj hrun
    exact hunreachable ((hall dst σ' hrun).reachable f hf hnot)
  · exact fun hnone dst σ' hrun => absurd ⟨dst, σ', hrun⟩ hnone

/-- A directory that links only itself shows one word behind that link. -/
theorem slotCosts_of_blank (hself : tableLink (σ.mem d recursivePde) = some d) (hcur : σ.currentPgDir = d)
    (hblank : ∀ i < recursivePde, present (σ.mem d i) = false) : slotCosts σ d 0 pageEntries = [some 1] := by
  have hpres := (tableLink_eq_some.1 hself).1
  have hwords : presentWords σ d 0 (recursivePde + 1) = 1 := by
    have hnone : (List.range' 0 recursivePde).countP (fun k => present (σ.mem d k)) = 0 :=
      List.countP_eq_zero.2 fun k hk => by simp [hblank k (by simpa using (List.mem_range'_1.1 hk).2)]
    rw [presentWords, List.range'_concat, List.countP_append, hnone, Nat.one_mul, Nat.zero_add, Nat.zero_add,
      List.countP_singleton, if_pos hpres]
  have hnone : (List.range' 0 recursivePde).filterMap (slotCost σ d) = [] :=
    List.filterMap_eq_nil_iff.2 fun k hk => by
      rw [slotCost, if_neg]
      simp [hblank k (by simpa using (List.mem_range'_1.1 hk).2)]
  rw [show pageEntries = recursivePde + 1 from rfl, slotCosts, List.range'_concat, List.filterMap_append, hnone,
    Nat.one_mul, Nat.zero_add, List.nil_append]
  have hcost : slotCost σ d recursivePde = some (some 1) := by
    rw [slotCost, if_pos hpres, Vmm.recursivePt, hcur, hself, Option.map_some]
    exact congrArg (fun n => some (some n)) hwords
  rw [List.filterMap_cons_some hcost, List.filterMap_nil]

/-- A region with one table to copy, its own directory, and pages for that. -/
def copiedHost : Vmm := hostRegion [0x2000, 0x3000, 0x4000, 0x5000]

theorem running_copiedHost : Running copiedHost (· = 0x1000) [1] := running_hostRegion _ (by decide)

theorem created_copiedHost : Created (clearVmm [0x1000, 0x2000, 0x3000, 0x4000, 0x5000] [1, 2])
    (vmmRegionNew (clearVmm [0x1000, 0x2000, 0x3000, 0x4000, 0x5000] [1, 2])).2 1 0x1000 :=
  (vmmRegionNew_created (by decide) rfl rfl).2

theorem copiedHost_objects : copiedHost.objects = [2] := (List.cons.inj created_copiedHost.objects).2.symm

theorem copiedHost_fits : CopyFits 1 copiedHost := by
  have hc := created_copiedHost
  have hd : (copiedHost.region 1).pgDir = 0x1000 := hc.pgDir
  have hcosts : slotCosts copiedHost (copiedHost.region 1).pgDir 0 pageEntries = [some 1] := by
    rw [hd]
    exact slotCosts_of_blank (running_copiedHost.spaces.self _ rfl) hd fun i hi =>
      congrArg present (hc.empty i (Nat.ne_of_lt hi))
  have hfree : copiedHost.freePages = [0x2000, 0x3000, 0x4000, 0x5000] := (List.cons.inj hc.free).2.symm
  refine ⟨by rw [copiedHost_objects]; exact List.cons_ne_nil _ _, slotCosts_ne_none.1 ?_, ?_⟩
  · rw [hcosts]
    decide
  · rw [hcosts, hfree]
    decide

theorem private_copy_copiedHost :
    (∀ dst σ', vmmCopyPagemap 1 copiedHost = some (some dst, σ') → PrivateCopy 1 dst copiedHost σ') ↔
      ¬ CopyFits 1 copiedHost :=
  private_copy_iff running_copiedHost.spaces running_copiedHost.current running_copiedHost.current
    (by rw [copiedHost_objects]; decide)

/-- The copy of the table that the directory is for itself is lost. -/
theorem not_private_copy : ¬ ∀ (σ : Vmm) (dirs : ℕ → Prop) (src dst : ℕ) (σ' : Vmm), Spaces σ dirs →
    dirs (σ.region src).pgDir → dirs σ.currentPgDir → src ∉ σ.objects →
    vmmCopyPagemap src σ = some (some dst, σ') → PrivateCopy src dst σ σ' := by
  intro hall
  have hs := running_copiedHost.spaces
  have hd : copiedHost.currentPgDir = 0x1000 := running_copiedHost.current
  have hobj : 1 ∉ copiedHost.objects := by
    rw [copiedHost_objects]
    decide
  obtain ⟨dst, σ', hrun⟩ := (vmmCopyPagemap_returns hs hd hd hobj).2 copiedHost_fits
  obtain ⟨f, hf, hnot, hunreachable⟩ := exists_unreachable hs hd hd hobj hrun
  exact hunreachable ((hall copiedHost (· = 0x1000) 1 dst σ' hs hd hd hobj hrun).reachable f hf hnot)

end Flopperating
