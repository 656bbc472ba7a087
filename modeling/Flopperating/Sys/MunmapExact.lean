/-
# `sys_munmap` does all or nothing

`sys_munmap` looks at every page of its range and then unmaps and frees every
page of it.  It computes the end of the range in 32 bits: a range that passes
the end of the address space is empty, and unmapping it succeeds.  Inside the
address space the call is exact when no frame is mapped twice in the range and
no page table that the range shows through the recursive window maps anything
outside of it (`sys_munmap_exact_iff`, `sys_munmap_wraps`).
-/

import Flopperating.Sys.MemoryLive
import Mathlib.Data.List.Nodup

namespace Flopperating

open Vmm TwoLevel

variable {σ σ' σ₁ : Vmm} {dirs : ℕ → Prop} {proc : MemProc} {args : SyscallArgs} {d i n p q r start va : ℕ}

/-- The number of pages of `len` bytes. -/
def wholePages (len : ℕ) : ℕ := (len + (pageSize - 1)) / pageSize

/-- The page is mapped in the address space of directory `d`. -/
def MapsPage (σ : Vmm) (d q : ℕ) : Prop := q < addressPages ∧ present (σ.word d q) = true

/-- The frame of a page. -/
def Vmm.frameAt (σ : Vmm) (d q : ℕ) : ℕ := maskLow (σ.word d q) pageSize

/-- The pages `p` to `p + n` of directory `d` are unmapped and their frames freed once, and nothing else
has changed in any address space. -/
structure UnmappedExactly (σ σ' : Vmm) (dirs : ℕ → Prop) (d p n : ℕ) : Prop where
  same : SameDescriptors σ σ'
  gone : ∀ q, p ≤ q → q < p + n → ¬ MapsPage σ' d q
  kept : ∀ d' q, dirs d' → q < addressPages → ¬ (d' = d ∧ p ≤ q ∧ q < p + n) →
    ∀ w, present w = true → (σ'.word d' q = w ↔ σ.word d' q = w)
  freed : ∀ q, p ≤ q → q < p + n →
    σ'.freePages.count (σ.frameAt d q) = σ.freePages.count (σ.frameAt d q) + 1
  spared : ∀ f, (∀ q, p ≤ q → q < p + n → σ.frameAt d q ≠ f) → σ'.freePages.count f = σ.freePages.count f

/-- The call returns `0` after unmapping exactly its range, all of which was mapped, and otherwise `-1`
without having changed anything. -/
def MunmapExact (proc : MemProc) (dirs : ℕ → Prop) (r : ℕ) (σ : Vmm) (args : SyscallArgs) : Prop :=
  let d := (σ.region r).pgDir
  let p := args.a1 / pageSize
  let n := wholePages args.a2
  ∃ v σ', sysMunmap proc args σ = some (v, σ') ∧
    (v = 0 ∧ (∀ q, p ≤ q → q < p + n → MapsPage σ d q) ∧ UnmappedExactly σ σ' dirs d p n ∨
      v = minusOne ∧ σ' = σ)

/-- No frame is mapped twice in the range, and the page tables that it shows in the window map nothing
outside of it. -/
structure RangeApart (σ : Vmm) (d p n : ℕ) : Prop where
  frames : Set.InjOn (σ.frameAt d) (Set.Ico p (p + n))
  tables : ∀ q, q < windowPage → p ≤ windowPage + q / pageEntries → windowPage + q / pageEntries < p + n →
    present (σ.word d q) = true → p ≤ q ∧ q < p + n

/-- The call is rejected, or its range ends inside the address space, and a page of it does not resolve or
the range is apart. -/
def MunmapSafe (σ : Vmm) (d addr len : ℕ) : Prop :=
  addr = 0 ∨ addr + wholePages len * pageSize < 2 ^ 32 ∧
    (AllResolve σ d 0 (addr / pageSize) (wholePages len) →
      RangeApart σ d (addr / pageSize) (wholePages len))

/-! ### Other address spaces -/

/-- Directory `d` and what it links. -/
def Vmm.tables (σ : Vmm) (d : ℕ) : Set ℕ := {a | a = d ∨ ∃ k < pageEntries, tableLink (σ.mem d k) = some a}

/-- `vmm_unmap` writes to a table of the loaded region, and links no new one. -/
theorem vmmUnmap_tables (hl : Loaded σ r) (hva : va < 2 ^ 32) {status : ℤ}
    (hrun : vmmUnmap r va σ = some (status, σ₁)) : SameDescriptors σ σ₁ ∧
      (∀ a ∉ σ.tables (σ.region r).pgDir, σ₁.mem a = σ.mem a) ∧
      σ₁.tables (σ.region r).pgDir ⊆ σ.tables (σ.region r).pgDir := by
  rw [vmmUnmap, recursivePt_loaded hl, pdIndex_eq hva] at hrun
  split at hrun
  · next hp =>
    have hlink := tableLink_of_present hp
    have hk : va / pageSize / pageEntries < pageEntries := by
      simp only [pageSize, pageEntries]
      omega
    obtain ⟨t, ht⟩ : ∃ t, t = maskLow (σ.pde r (va / pageSize / pageEntries)) pageSize := ⟨_, rfl⟩
    rw [← ht] at hlink
    rw [hlink] at hrun
    obtain rfl : σ.setWord t (ptIndex va) 0 = σ₁ := (Prod.mk.inj (Option.some.inj hrun)).2
    have hmem : t ∈ σ.tables (σ.region r).pgDir := .inr ⟨_, hk, hlink⟩
    refine ⟨⟨rfl, rfl, rfl, rfl, rfl, rfl, rfl⟩, fun a ha => write_of_ne_page fun he => ha (he ▸ hmem), ?_⟩
    rintro a (rfl | ⟨k, hk, ha⟩)
    · exact .inl rfl
    · refine .inr ⟨k, hk, ?_⟩
      change tableLink (write σ.mem t (ptIndex va) 0 (σ.region r).pgDir k) = some a at ha
      rw [write_apply] at ha
      split at ha
      · rw [tableLink_zero] at ha
        exact absurd ha (by simp)
      · exact ha
  · obtain rfl : σ = σ₁ := (Prod.mk.inj (Option.some.inj hrun)).2
    exact ⟨.refl σ, fun _ _ => rfl, subset_rfl⟩

/-- **The loop that frees** writes to the tables of the loaded region only. -/
theorem sysFreeFrom_tables (hl : Loaded σ r) (hfit : start + (i + n) * pageSize < 2 ^ 32)
    (hrun : sysFreeFrom r start n i σ = some σ') :
    ∀ a ∉ σ.tables (σ.region r).pgDir, σ'.mem a = σ.mem a := by
  induction n generalizing i σ with
  | zero =>
    obtain rfl := Option.some.inj hrun
    exact fun _ _ => rfl
  | succ n ih =>
    obtain ⟨hva, hlt, -, -, hfit'⟩ := range_fits hfit
    rw [sysFreeFrom, hva] at hrun
    obtain ⟨phys, -, hrun⟩ := Option.bind_eq_some_iff.1 hrun
    split at hrun
    · obtain ⟨⟨status, σ₁⟩, hunmap, hrun⟩ := Option.bind_eq_some_iff.1 hrun
      obtain ⟨hs, hmem, hsub⟩ := vmmUnmap_tables hl hlt hunmap
      obtain ⟨hsame, hfree⟩ := freePage_same phys σ₁
      have hall := hs.trans hsame
      have hreg := congrFun hall.region r
      have hrest := ih (hl.of_same hall) hfit' hrun
      rw [hreg] at hrest
      intro a ha
      have htables : a ∉ (σ₁.freePage phys).tables (σ.region r).pgDir := fun hin => by
        rw [Vmm.tables, hfree] at hin
        exact ha (hsub hin)
      rw [hrest a htables, hfree, hmem a ha]
    · exact ih hl hfit' hrun

/-- The words of another address space are not in these tables. -/
theorem word_of_tables (h : Directories σ dirs) (hd : dirs d) {d' : ℕ} (hd' : dirs d') (hne : d' ≠ d)
    (hq : q < addressPages) (hmem : ∀ a ∉ σ.tables d, σ'.mem a = σ.mem a) : σ'.word d' q = σ.word d' q := by
  have hcases : ∀ {k t}, k < pageEntries → tableLink (σ.mem d k) = some t → k < recursivePde ∨ t = d :=
    fun {k t} hk ht => by
      rcases Nat.lt_or_ge k recursivePde with hlt | hge
      · exact .inl hlt
      · obtain rfl : k = recursivePde := by
          simp only [pageEntries, recursivePde] at *
          omega
        exact .inr (Option.some.inj (ht.symm.trans (h.self d hd)))
  have hdir : d' ∉ σ.tables d := by
    rintro (he | ⟨k, hk, ht⟩)
    · exact hne he
    · rcases hcases hk ht with hlt | he
      · exact h.separate.not_root hd hlt ht hd'
      · exact hne he
  rcases Nat.lt_or_ge q windowPage with hlt | hge
  · rcases hlink : tableLink (σ.mem d' (q / pageEntries)) with - | t
    · rw [Vmm.word, Vmm.word, entry_of_none (by rw [hmem d' hdir]; exact hlink), entry_of_none hlink]
    · have hslot := div_lt_of_window hlt
      have ht : t ∉ σ.tables d := by
        rintro (he | ⟨k, hk, ht⟩)
        · exact h.separate.not_root hd' hslot hlink (he ▸ hd)
        · rcases hcases hk ht with hlt | he
          · exact hne (h.separate.inj hd' hd hslot hlt hlink ht).1
          · exact h.separate.not_root hd' hslot hlink (he ▸ hd)
      rw [word_of_link (by rw [hmem d' hdir]; exact hlink), word_of_link hlink, hmem t ht]
  · have hself := h.self d' hd'
    rw [word_of_self (by rw [hmem d' hdir]; exact hself) hge hq, word_of_self hself hge hq, hmem d' hdir]

/-! ### The range -/

theorem freedPages_of_all {word : ℕ → ℕ} {off : ℕ}
    (hall : ∀ q, p ≤ q → q < p + n → present (word q) = true ∧ maskLow (word q) pageSize ||| off ≠ 0) :
    freedPages word off p n = ((List.range' p n).map fun q => maskLow (word q) pageSize).reverse := by
  rw [freedPages, ← List.filterMap_eq_map]
  refine congrArg List.reverse (List.filterMap_congr fun q hq => ?_)
  obtain ⟨hle, hlt⟩ := List.mem_range'_1.1 hq
  exact if_pos (hall q hle hlt)

/-- What is put on a list is there once more, when nothing is put there twice. -/
theorem count_append_iff {l free free' : List ℕ} (h : free' = l.reverse ++ free) :
    (∀ f ∈ l, free'.count f = free.count f + 1) ↔ l.Nodup := by
  rw [List.nodup_iff_count_eq_one]
  refine forall₂_congr fun f _ => ?_
  rw [h, List.count_append, List.count_reverse]
  omega

section Range

variable (h : Directories σ dirs) (hd : dirs (σ.region r).pgDir) (hl : Loaded σ r)
  (hfit : start + n * pageSize < 2 ^ 32) (halign : start % pageSize = 0)
  (hall : AllResolve σ (σ.region r).pgDir 0 (start / pageSize) n)
  (hrun : sysFreeFrom r start n 0 σ = some σ')

include h hd hl hfit halign hall hrun in
/-- The pages of a table that the range shows in the window are gone with it, and the other pages
outside of the range stay. -/
theorem sysFreeFrom_outside (hq : q < addressPages) (hout : ¬ (start / pageSize ≤ q ∧ q < start / pageSize + n)) :
    σ'.word (σ.region r).pgDir q =
      if q < windowPage ∧ start / pageSize ≤ windowPage + q / pageEntries ∧
        windowPage + q / pageEntries < start / pageSize + n then 0 else σ.word (σ.region r).pgDir q := by
  obtain ⟨σ'', hrun', hA⟩ := sysFreeFrom_all h hd hl hfit
  obtain rfl := Option.some.inj (hrun.symm.trans hrun')
  rw [halign] at hA
  have hself := h.self _ hd
  have hself' : tableLink (σ'.mem (σ.region r).pgDir recursivePde) = some (σ.region r).pgDir := by
    rw [hA.entry, if_neg fun hin => ?_]
    · exact hself
    · exact Nat.lt_irrefl _ (page_lt_of_fits_zero hfit (by omega : _ < start / pageSize + n))
  rcases Nat.lt_or_ge q windowPage with hlt | hge
  · have hentry := hA.entry (q / pageEntries)
    split
    · next hin =>
      rw [if_pos ⟨hin.2.1, hin.2.2, hall _ hin.2.1 hin.2.2⟩] at hentry
      have htable : σ'.hasTable (σ.region r).pgDir (q / pageEntries) = false := by
        rw [Vmm.hasTable, hentry, present_zero]
      exact word_of_absent htable
    · next hin =>
      rw [if_neg fun hin' => hin ⟨hlt, hin'.1, hin'.2.1⟩] at hentry
      rw [hA.word q hlt hentry, if_neg fun hin' => hout ⟨hin'.1, hin'.2.1⟩]
  · rw [if_neg fun hin => Nat.not_lt.2 hge hin.1, word_of_self hself' hge hq, word_of_self hself hge hq, hA.entry,
      if_neg fun hin => hout ⟨by omega, by omega⟩]

include h hd hl hfit halign hall hrun in
/-- **Unmapping a range that resolves** is exact just when the range is apart. -/
theorem unmappedExactly_iff : UnmappedExactly σ σ' dirs (σ.region r).pgDir (start / pageSize) n ↔
    RangeApart σ (σ.region r).pgDir (start / pageSize) n := by
  have hpages : ∀ q, q < start / pageSize + n → q < addressPages := fun q hq =>
    (page_lt_of_fits_zero hfit hq).trans (by decide)
  obtain ⟨σ'', hrun', hA⟩ := sysFreeFrom_all h hd hl hfit
  obtain rfl := Option.some.inj (hrun.symm.trans hrun')
  obtain ⟨σ'', hrun', -, -, hgone⟩ := sysFreeFrom_shrinks hl (fits_zero hfit)
  obtain rfl := Option.some.inj (hrun.symm.trans hrun')
  have houtside := fun q => sysFreeFrom_outside (q := q) h hd hl hfit halign hall hrun
  have hfree := hA.free
  rw [halign, freedPages_of_all hall] at hfree
  rw [halign, Nat.add_zero] at hgone
  have hcount := count_append_iff hfree
  rw [List.nodup_map_iff_inj_on List.nodup_range'] at hcount
  have hmem : ∀ q, q ∈ List.range' (start / pageSize) n ↔ start / pageSize ≤ q ∧ q < start / pageSize + n :=
    fun q => List.mem_range'_1
  constructor
  · intro hexact
    constructor
    · have hinj := hcount.1 fun f hf => by
        obtain ⟨q, hq, rfl⟩ := List.mem_map.1 hf
        exact hexact.freed q ((hmem q).1 hq).1 ((hmem q).1 hq).2
      exact fun x hx y hy he => hinj x ((hmem x).2 hx) y ((hmem y).2 hy) he
    · intro q hq hle hlt hpres
      by_contra hout
      have hlt' : q < addressPages := hq.trans (by decide)
      have hkept := (hexact.kept _ q hd hlt' (fun hin => hout hin.2) _ hpres).2 rfl
      rw [houtside q hlt' hout, if_pos ⟨hq, hle, hlt⟩] at hkept
      rw [← hkept, present_zero] at hpres
      exact absurd hpres (by simp)
  · rintro ⟨hframes, htables⟩
    refine ⟨hA.same, fun q hq hqn hmapped => ?_, fun d' q hd' hq hout w hw => ?_, fun q hq hqn => ?_,
      fun f hf => ?_⟩
    · exact absurd hmapped.2 (by rw [hgone q hq hqn (hall q hq hqn)]; simp)
    · rcases eq_or_ne d' (σ.region r).pgDir with rfl | hne
      · have hout' : ¬ (start / pageSize ≤ q ∧ q < start / pageSize + n) := fun hin => hout ⟨rfl, hin⟩
        rw [houtside q hq hout']
        split
        · next hin =>
          refine iff_of_false (fun he => ?_) fun he => ?_
          · rw [← he, present_zero] at hw
            exact absurd hw (by simp)
          · exact hout' (htables q hin.1 hin.2.1 hin.2.2 (he ▸ hw))
        · exact Iff.rfl
      · rw [word_of_tables h hd hd' hne hq (sysFreeFrom_tables hl (fits_zero hfit) hrun)]
    · refine hcount.2 (fun x hx y hy he => hframes ((hmem x).1 hx) ((hmem y).1 hy) he) _ ?_
      exact List.mem_map.2 ⟨q, (hmem q).2 ⟨hq, hqn⟩, rfl⟩
    · rw [hfree, List.count_append, List.count_reverse, List.count_eq_zero.2, Nat.zero_add]
      intro hin
      obtain ⟨q, hq, he⟩ := List.mem_map.1 hin
      exact hf q ((hmem q).1 hq).1 ((hmem q).1 hq).2 he

end Range

/-! ### The call -/

/-- The loops go over the whole range when it ends inside the address space, and over nothing otherwise. -/
theorem pagesBetween_alignUp {addr len : ℕ} (haddr : addr < 2 ^ 32) (hlen : len < 2 ^ 32) :
    pagesBetween addr (u32 (addr + alignUp len pageSize)) =
      if addr + wholePages len * pageSize < 2 ^ 32 then wholePages len else 0 := by
  unfold pagesBetween alignUp maskLow wholePages u32 pageSize
  split_ifs
  · omega
  · omega

/-- **When `sys_munmap` is exact**: it is rejected, or its range ends inside the address space and does not
resolve as a whole, or is apart. -/
theorem sys_munmap_exact_iff (h : Directories σ dirs) (hproc : proc.region = some r)
    (hd : dirs (σ.region r).pgDir) (hl : Loaded σ r) (halign : pageSize ∣ args.a1) (hlen : 0 < args.a2)
    (hrest : args.a3 = 0 ∧ args.a4 = 0 ∧ args.a5 = 0) :
    MunmapExact proc dirs r σ args ↔ MunmapSafe σ (σ.region r).pgDir args.a1 args.a2 := by
  have hmod : args.a1 % pageSize = 0 := Nat.mod_eq_zero_of_dvd halign
  have hone : ∀ {v σ'}, sysMunmap proc args σ = some (v, σ') → (MunmapExact proc dirs r σ args ↔
      v = 0 ∧ (∀ q, args.a1 / pageSize ≤ q → q < args.a1 / pageSize + wholePages args.a2 →
        MapsPage σ (σ.region r).pgDir q) ∧
        UnmappedExactly σ σ' dirs (σ.region r).pgDir (args.a1 / pageSize) (wholePages args.a2) ∨
      v = minusOne ∧ σ' = σ) := fun {v σ'} hrun => by
    constructor
    · rintro ⟨v', σ'', hrun', hcases⟩
      obtain ⟨rfl, rfl⟩ := Prod.mk.inj (Option.some.inj (hrun.symm.trans hrun'))
      exact hcases
    · exact fun hcases => ⟨v, σ', hrun, hcases⟩
  have hminus : minusOne ≠ 0 := by decide
  rcases eq_or_ne args.a1 0 with h0 | h0
  · rw [hone (show sysMunmap proc args σ = some (minusOne, σ) from if_pos (.inl h0))]
    exact iff_of_true (.inr ⟨rfl, rfl⟩) (.inl h0)
  · have haction : sysMunmap proc args σ = (MemAction.unmap args.a1
        (if args.a1 + wholePages args.a2 * pageSize < 2 ^ 32 then wholePages args.a2 else 0)).run r σ := by
      have hrun := MemCall.run_action (σ := σ) hproc (.munmap args)
      rw [MemCall.run, MemCall.action, if_neg (by omega), pagesBetween_alignUp args.word.1 args.word.2.1] at hrun
      exact hrun
    rw [MunmapSafe, or_iff_right h0]
    split_ifs at haction with hfit
    · have hcases := MemAction.run_unmap_cases hl hfit
      rw [hmod] at hcases
      rw [and_iff_right hfit]
      rcases hcases with ⟨hno, hrun⟩ | ⟨hevery, hrun⟩
      · rw [hone (haction.trans hrun)]
        exact iff_of_true (.inr ⟨rfl, rfl⟩) fun hevery => absurd hevery hno
      · obtain ⟨σ', hloop, -⟩ := sysFreeFrom_all h hd hl hfit
        rw [hrun, hloop] at haction
        rw [hone haction, ← unmappedExactly_iff h hd hl hfit hmod hevery hloop]
        constructor
        · rintro (⟨-, -, hexact⟩ | ⟨hv, -⟩)
          · exact fun _ => hexact
          · exact absurd hv hminus.symm
        · intro hexact
          refine .inl ⟨rfl, fun q hq hqn => ⟨?_, (hevery q hq hqn).1⟩, hexact hevery⟩
          exact (page_lt_of_fits_zero hfit hqn).trans (by decide)
    · -- the range is empty for the loops, and the call succeeds
      refine iff_of_false ?_ fun hsafe => hfit hsafe.1
      rw [hone haction]
      have hpos : 0 < wholePages args.a2 := by
        simp only [wholePages, pageSize]
        omega
      rintro (⟨-, hmapped, hexact⟩ | ⟨hv, -⟩)
      · exact hexact.gone _ le_rfl (by omega) (hmapped _ le_rfl (by omega))
      · exact hminus hv.symm

/-- One page at `0x100000`. -/
def pageMunmap : SyscallArgs := ⟨0x100000, 1, 0, 0, 0, by decide⟩

/-- A page that is mapped. -/
theorem sys_munmap_exact_page : ∃ σ, MapsPage σ 0x1000 0x100 ∧
    MunmapExact mmapProc (· = 0x1000) 1 σ pageMunmap := by
  have hmap : (sysGrowFrom (fun _ _ => 0) 1 0x100000 7 1 0 mmapHost).map
      (fun o => (o.1, present (o.2.word 0x1000 0x100))) = some (0, true) := by decide +kernel
  rcases sysGrow_cases (fun _ _ => 0) 7 running_mmapHost.spaces mmapHost_pgDir loaded_mmapHost
    (show 0x100000 + 1 * pageSize < 2 ^ 32 by decide) (by decide) with ⟨-, σ, hrun, hg, -⟩ | ⟨-, σ, hrun, -⟩
  · rw [hrun] at hmap
    have hdir : (σ.region 1).pgDir = 0x1000 := by
      rw [congrFun hg.same.region 1]
      exact mmapHost_pgDir
    refine ⟨σ, ⟨by decide, (Prod.mk.inj (Option.some.inj hmap)).2⟩, ?_⟩
    refine (sys_munmap_exact_iff hg.spaces.toDirectories rfl hdir (loaded_mmapHost.of_same hg.same)
      (show pageSize ∣ pageMunmap.a1 by decide) (by decide) ⟨rfl, rfl, rfl⟩).2 (.inr ⟨by decide, fun _ => ⟨?_, ?_⟩⟩)
    · exact fun x hx y hy _ => (Nat.lt_succ_iff.1 hx.2).antisymm hx.1 |>.trans
        ((Nat.lt_succ_iff.1 hy.2).antisymm hy.1).symm
    · intro q hq _ hlt _
      exact absurd ((Nat.le_add_right windowPage _).trans_lt hlt) (by decide)
  · rw [hrun] at hmap
    exact absurd (show (-1 : ℤ) = 0 from (Prod.mk.inj (Option.some.inj hmap)).1) (by decide)

/-- The length wraps when it is rounded up. -/
def wrappedMunmap : SyscallArgs := ⟨0x100000, 0xFFFFFFFF, 0, 0, 0, by decide⟩

/-- **A range past the end** is unmapped with success: nothing of it was mapped. -/
theorem sys_munmap_wraps : sysMunmap mmapProc wrappedMunmap mmapHost = some (0, mmapHost) ∧
    ¬ MunmapExact mmapProc (· = 0x1000) 1 mmapHost wrappedMunmap := by
  have hrun : sysMunmap mmapProc wrappedMunmap mmapHost = some (0, mmapHost) := by
    have haction := MemCall.run_action (σ := mmapHost) (show mmapProc.region = some 1 from rfl)
      (.munmap wrappedMunmap)
    rw [MemCall.run, MemCall.action, if_neg (by decide), pagesBetween_alignUp (by decide) (by decide),
      if_neg (by decide)] at haction
    exact haction
  refine ⟨hrun, ?_⟩
  rintro ⟨v, σ', hrun', ⟨-, hmapped, -⟩ | ⟨hv, -⟩⟩
  · have hpres := (hmapped 0x100 (by decide) (by decide)).2
    rw [mmapHost_pgDir] at hpres
    exact absurd hpres (by decide +kernel)
  · obtain ⟨rfl, -⟩ := Prod.mk.inj (Option.some.inj (hrun.symm.trans hrun'))
    exact absurd hv (by decide)

end Flopperating
