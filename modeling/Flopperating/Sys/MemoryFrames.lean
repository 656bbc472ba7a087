/-
# Flags and frames

`sys_mprotect`, `sys_mmap` and `sys_mremap` put the flags of the caller into the words of
pages as they are, `(pa & PAGE_MASK) | flags | PAGE_PRESENT`, all 32 bits of them.  So a page
keeps its frame, or gets the one that was allocated for it, exactly when the flags have no
bit of an address that the frame has not (`memory_call_keeps_frames`).
-/

import Flopperating.Sys.MemoryConfined

namespace Flopperating

open Vmm TwoLevel

variable {σ σ' σ₁ : Vmm} {dirs : ℕ → Prop} {proc : MemProc} {d f i n p q r start w : ℕ} {frames : List ℕ}

/-- The flags have no bit of an address that `f` has not. -/
def FlagsWithin (flags f : ℕ) : Prop := f ||| maskLow flags pageSize = f

theorem tableLink_pageEntry_iff {flags : ℕ} (hf : pageSize ∣ f) :
    tableLink (pageEntry f flags) = some f ↔ FlagsWithin flags f := by
  rw [tableLink_of_present (present_pageEntry f flags), maskLow_pageEntry_or, maskLow_of_dvd hf, Option.some.injEq,
    FlagsWithin]

theorem maskLow_pageEntry_iff {flags : ℕ} :
    maskLow (pageEntry w flags) pageSize = maskLow w pageSize ↔ FlagsWithin flags (maskLow w pageSize) := by
  rw [maskLow_pageEntry_or, FlagsWithin]

/-! ### What the calls promise -/

/-- The pages that `pmm_alloc_page` returns to the loop for data, one for each round. -/
def sysGrowPages (data : ℕ → ℕ → ℕ) (r start flags : ℕ) : ℕ → ℕ → Vmm → List ℕ
  | 0, _, _ => []
  | n + 1, i, σ =>
    let (physPage, σ) := σ.allocPage
    if physPage = 0 then []
    else
      let σ := { σ with mem := Function.update σ.mem physPage (data i) }
      physPage :: ((vmmMap r (u32 (start + i * pageSize)) physPage flags σ).map fun o =>
        sysGrowPages data r start flags n (i + 1) o.2).getD []

namespace MemAction

/-- After the action, which returned `v`, every page has the frame it had (`protect`), or the
one that was allocated for it (`grow`). -/
def FramesKept (r : ℕ) (σ : Vmm) (v : ℕ) (σ' : Vmm) : MemAction → Prop
  | nothing _ | shrink _ _ _ | unmap _ _ => True
  | protect _ _ _ => ∀ p < addressPages,
      maskLow (σ'.word (σ.region r).pgDir p) pageSize = maskLow (σ.word (σ.region r).pgDir p) pageSize
  | grow data _ start n flags => v ≠ minusOne → ∀ j f, (sysGrowPages data r start flags n 0 σ)[j]? = some f →
      tableLink (σ'.word (σ.region r).pgDir (start / pageSize + j)) = some f

/-- The flags leave the frames alone. -/
def FlagsFit (σ : Vmm) (d : ℕ) : MemAction → Prop
  | nothing _ | shrink _ _ _ | unmap _ _ => True
  | protect start n flags => AllResolve σ d (start % pageSize) (start / pageSize) n →
      ∀ q, start / pageSize ≤ q → q < start / pageSize + n → FlagsWithin flags (maskLow (σ.word d q) pageSize)
  | grow _ value start n flags =>
      let frames := framesTaken (σ.hasTable d) (start / pageSize) n σ.freePages
      start / pageSize + min n σ.freePages.length ≤ windowPage ∧
        (value = minusOne ∨ ¬ GrowSucceeds (σ.hasTable d) (start / pageSize) n σ.freePages ∨
          frames.length = n ∧ ∀ f ∈ frames, FlagsWithin flags f)

end MemAction

/-! ### Protecting -/

/-- **The loop over `vmm_protect`** keeps the frames exactly when the flags have no bit of
another address. -/
theorem sysProtectFrom_frames (h : Directories σ dirs) (hd : dirs (σ.region r).pgDir) (hl : Loaded σ r)
    (hfit : start + n * pageSize < 2 ^ 32) (flags : ℕ)
    (hall : AllResolve σ (σ.region r).pgDir (start % pageSize) (start / pageSize) n) :
    ∃ σ', sysProtectFrom r start flags n 0 σ = some σ' ∧
      ((∀ p < addressPages, maskLow (σ'.word (σ.region r).pgDir p) pageSize =
          maskLow (σ.word (σ.region r).pgDir p) pageSize) ↔
        ∀ q, start / pageSize ≤ q → q < start / pageSize + n →
          FlagsWithin flags (maskLow (σ.word (σ.region r).pgDir q) pageSize)) := by
  have hpages : ∀ q, q < start / pageSize + n → q < windowPage + recursivePde := fun q hq => page_lt_of_fits_zero hfit hq
  obtain ⟨σ', hrun, hp⟩ := sysProtectFrom_spec h hd hl hfit flags
  have hself := h.self _ hd
  have hself' : tableLink (σ'.mem (σ.region r).pgDir recursivePde) = some (σ.region r).pgDir := by
    rw [hp.entry, if_neg fun hin => Nat.lt_irrefl _ (hpages _ hin.2.1)]
    exact hself
  have hwindow : ∀ k < pageEntries, σ.word (σ.region r).pgDir (windowPage + k) = σ.mem (σ.region r).pgDir k ∧
      σ'.word (σ.region r).pgDir (windowPage + k) = σ'.mem (σ.region r).pgDir k := fun k hk => by
    have hlt : windowPage + k < addressPages := Nat.add_lt_add_left hk _
    rw [word_of_self hself (Nat.le_add_right _ _) hlt, word_of_self hself' (Nat.le_add_right _ _) hlt,
      Nat.add_sub_cancel_left]
    exact ⟨rfl, rfl⟩
  -- when the page tables keep their frames, the pages below the window are as the loop left them
  have hbelow : (∀ k < pageEntries, maskLow (σ'.mem (σ.region r).pgDir k) pageSize =
      maskLow (σ.mem (σ.region r).pgDir k) pageSize) → ∀ q < windowPage, σ'.word (σ.region r).pgDir q =
        if start / pageSize ≤ q ∧ q < start / pageSize + n then
          pageEntry (σ.word (σ.region r).pgDir q) flags else σ.word (σ.region r).pgDir q := fun hentry q hq => by
    have hslot : q / pageEntries < pageEntries := (div_lt_of_window hq).trans (by decide)
    have hlink : tableLink (σ'.mem (σ.region r).pgDir (q / pageEntries)) =
        tableLink (σ.mem (σ.region r).pgDir (q / pageEntries)) := by
      have hmask := hentry _ hslot
      have hkept := hp.entry (q / pageEntries)
      split at hkept
      · next hin =>
        rw [tableLink_of_present hin.2.2, ← hmask, tableLink_of_present (by rw [hkept]; exact present_pageEntry _ _)]
      · rw [hkept]
    rw [hp.word q hq hlink]
    exact if_congr ⟨fun hin => ⟨hin.1, hin.2.1⟩, fun hin => ⟨hin.1, hin.2, (hall q hin.1 hin.2).1⟩⟩ rfl rfl
  refine ⟨σ', hrun, ?_⟩
  constructor
  · intro hkept
    have hentry : ∀ k < pageEntries, maskLow (σ'.mem (σ.region r).pgDir k) pageSize =
        maskLow (σ.mem (σ.region r).pgDir k) pageSize := fun k hk => by
      rw [← (hwindow k hk).1, ← (hwindow k hk).2]
      exact hkept _ (Nat.add_lt_add_left hk _)
    intro q hq hqn
    rw [← maskLow_pageEntry_iff]
    rcases Nat.lt_or_ge q windowPage with hlt | hge
    · have hword := hbelow hentry q hlt
      rw [if_pos ⟨hq, hqn⟩] at hword
      rw [← hword]
      exact hkept q (hlt.trans (by decide))
    · obtain ⟨k, rfl⟩ := Nat.exists_eq_add_of_le hge
      have hk : k < pageEntries := by
        have := hpages _ hqn
        simp only [pageEntries, recursivePde] at *
        omega
      have hres := (hall _ hq hqn).1
      rw [(hwindow k hk).1] at hres ⊢
      have hword := hp.entry k
      rw [if_pos ⟨hq, hqn, hres⟩] at hword
      rw [← hword]
      exact hentry k hk
  · intro hwithin
    have hentry : ∀ k < pageEntries, maskLow (σ'.mem (σ.region r).pgDir k) pageSize =
        maskLow (σ.mem (σ.region r).pgDir k) pageSize := fun k hk => by
      rw [hp.entry k]
      split
      · next hin =>
        have hword := hwithin _ hin.1 hin.2.1
        rw [(hwindow k hk).1] at hword
        exact maskLow_pageEntry_iff.2 hword
      · rfl
    intro p hp'
    rcases Nat.lt_or_ge p windowPage with hlt | hge
    · rw [hbelow hentry p hlt]
      split
      · next hin => exact maskLow_pageEntry_iff.2 (hwithin p hin.1 hin.2)
      · rfl
    · obtain ⟨k, rfl⟩ := Nat.exists_eq_add_of_le hge
      have hk : k < pageEntries := Nat.lt_of_add_lt_add_left hp'
      rw [(hwindow k hk).1, (hwindow k hk).2]
      exact hentry k hk

/-! ### Growing -/

/-- The loop gets the pages that it maps, and one more where a page table is missing. -/
theorem sysGrowPages_spec (data : ℕ → ℕ → ℕ) (flags : ℕ) (h : Spaces σ dirs) (hd : dirs (σ.region r).pgDir)
    (hl : Loaded σ r) (hfit : start + (i + n) * pageSize < 2 ^ 32)
    (hbelow : start / pageSize + i + min n σ.freePages.length ≤ windowPage) :
    ∃ rest, sysGrowPages data r start flags n i σ =
        framesTaken (σ.hasTable (σ.region r).pgDir) (start / pageSize + i) n σ.freePages ++ rest ∧
      (rest = [] ↔ (framesTaken (σ.hasTable (σ.region r).pgDir) (start / pageSize + i) n σ.freePages).length = n ∨
        σ.freePages.length = pagesNeeded (σ.hasTable (σ.region r).pgDir) (start / pageSize + i)
          (framesTaken (σ.hasTable (σ.region r).pgDir) (start / pageSize + i) n σ.freePages).length) := by
  induction n generalizing i σ with
  | zero => exact ⟨[], rfl, iff_of_true rfl (.inl rfl)⟩
  | succ n ih =>
    obtain ⟨hva, hlt, hpage, -, hfit'⟩ := range_fits hfit
    rcases hfree : σ.freePages with - | ⟨pa, free⟩
    · refine ⟨[], ?_, iff_of_true rfl (.inr rfl)⟩
      rw [sysGrowPages, Vmm.allocPage, hfree]
      rfl
    · obtain ⟨-, -, hpa0, -⟩ := h.take hfree
      have hlen : σ.freePages.length = free.length + 1 := by rw [hfree, List.length_cons]
      have hstep : sysGrowPages data r start flags (n + 1) i σ =
          pa :: ((vmmMap r (start + i * pageSize) pa flags
            { σ with freePages := free, mem := Function.update σ.mem pa (data i) }).map fun o =>
              sysGrowPages data r start flags n (i + 1) o.2).getD [] := by
        rw [sysGrowPages, Vmm.allocPage, hfree, hva]
        simp only [hpa0, if_false]
      rw [hstep, ← hfree]
      rcases vmmMap_round h hd hl (by rw [hpage]; omega) hfree (data i) flags with ⟨rfl, hnone, hrun⟩ | ⟨σ₁, hm, hrun⟩
      · rw [hpage] at hnone
        have hnil : framesTaken (σ.hasTable (σ.region r).pgDir) (start / pageSize + i) (n + 1) σ.freePages = [] := by
          rw [hfree, framesTaken, if_neg (by rw [hnone]; simp), if_pos rfl]
        rw [hrun, hnil]
        refine ⟨_, rfl, iff_of_false (List.cons_ne_nil _ _) ?_⟩
        rintro (hzero | hcount)
        · exact absurd hzero (by simp)
        · rw [hfree] at hcount
          exact absurd hcount (by simp [pagesNeeded])
      · rw [hpage] at hm
        have hreg : σ₁.region r = σ.region r := congrFun hm.same.region r
        have hsub : σ₁.freePages.length ≤ free.length := hm.free_sublist.length_le
        obtain ⟨rest, hpages, hrest⟩ := ih (σ := σ₁) hm.spaces (by rw [hreg]; exact hd) (hl.of_same hm.same.of_free)
          hfit' (by omega)
        rw [hreg, ← Nat.add_assoc] at hpages hrest
        have hacc := fun m => pagesNeeded_mapped (n := m) hd hfree hm
        rw [hrun, framesTaken_mapped hd hfree hm, Option.map_some, Option.getD_some, hpages]
        refine ⟨rest, rfl, hrest.trans ?_⟩
        have hacc := hacc (framesTaken (σ₁.hasTable (σ.region r).pgDir) (start / pageSize + i + 1) n
          σ₁.freePages).length
        rw [List.length_cons]
        omega

/-- **The loop that maps new pages** maps the pages it was given exactly when it maps all of
them and the flags have no bit of another address. -/
theorem sysGrow_frames (data : ℕ → ℕ → ℕ) (value flags : ℕ) (h : Spaces σ dirs) (hd : dirs (σ.region r).pgDir)
    (hl : Loaded σ r) (hfit : start + n * pageSize < 2 ^ 32)
    (hbelow : start / pageSize + min n σ.freePages.length ≤ windowPage) :
    ∃ v σ', (MemAction.grow data value start n flags).run r σ = some (v, σ') ∧
      ((MemAction.grow data value start n flags).FramesKept r σ v σ' ↔
        (MemAction.grow data value start n flags).FlagsFit σ (σ.region r).pgDir) := by
  obtain ⟨rest, hpages, hrest⟩ := sysGrowPages_spec data flags (i := 0) h hd hl (fits_zero hfit) hbelow
  rw [Nat.add_zero] at hpages hrest
  rcases sysGrow_cases data flags h hd hl hfit hbelow with ⟨hok, σ', hrun, hg, hlast⟩ | ⟨hfail, σ', hrun, -⟩
  · refine ⟨value, σ', by rw [MemAction.run, hrun]; rfl, ?_⟩
    simp only [MemAction.FramesKept, MemAction.FlagsFit, hpages]
    rw [GrowSucceeds] at hok ⊢
    generalize framesTaken (σ.hasTable (σ.region r).pgDir) (start / pageSize) n σ.freePages = frames at *
    have hdvd : ∀ f ∈ frames, pageSize ∣ f := fun f hf => (h.free_page f (hg.taken f hf).1).2.1
    constructor
    · intro hkept
      refine ⟨hbelow, or_iff_not_imp_left.2 fun hvalue => .inr ⟨?_, fun f hf => ?_⟩⟩
      · by_contra hne
        have hshort : frames.length < n := by omega
        obtain ⟨pa, rest, rfl⟩ := List.exists_cons_of_ne_nil (mt hrest.1 (by omega))
        have hlink := hkept hvalue frames.length pa (by rw [List.getElem?_append_right le_rfl, Nat.sub_self]; rfl)
        rw [word_of_absent (hlast hshort), tableLink_zero] at hlink
        exact absurd hlink (by simp)
      · obtain ⟨j, hj, rfl⟩ := List.mem_iff_getElem.1 hf
        have hget := List.getElem?_eq_getElem hj
        have hlink := hkept hvalue j _ ((List.getElem?_append_left hj).trans hget)
        rw [hg.maps j _ hget] at hlink
        exact (tableLink_pageEntry_iff (hdvd _ hf)).1 hlink
    · rintro ⟨-, hcond⟩ hvalue j f hj
      obtain ⟨hlen, hwithin⟩ : frames.length = n ∧ ∀ f ∈ frames, FlagsWithin flags f := by
        rcases hcond with hv | hno | hall
        · exact absurd hv hvalue
        · exact absurd hok hno
        · exact hall
      rw [hrest.2 (.inl hlen), List.append_nil] at hj
      have hf := List.mem_of_getElem? hj
      rw [hg.maps j f hj]
      exact (tableLink_pageEntry_iff (hdvd f hf)).2 (hwithin f hf)
  · refine ⟨minusOne, σ', by rw [MemAction.run, hrun]; rfl, ?_⟩
    exact iff_of_true (fun hne => absurd rfl hne) ⟨hbelow, .inr (.inl hfail)⟩

/-! ### The calls -/

/-- What a call does leaves the frames alone. -/
def MemCall.FramesKept (proc : MemProc) (r : ℕ) (σ : Vmm) (c : MemCall) : Prop :=
  ∀ v σ', c.run proc σ = some (v, σ') → (c.action proc).FramesKept r σ v σ'

/-- **Flags do not change frames** exactly when they have no bit of an address that the frame
has not, and every new page gets its page table.  Where new pages reach the recursive
window, the condition is one that is enough. -/
theorem memory_call_keeps_frames (h : Spaces σ dirs) (hproc : proc.region = some r) (hd : dirs (σ.region r).pgDir)
    (hl : Loaded σ r) (c : MemCall) :
    ((c.action proc).FlagsFit σ (σ.region r).pgDir → c.FramesKept proc r σ) ∧
      ((c.action proc).Below σ → c.FramesKept proc r σ → (c.action proc).FlagsFit σ (σ.region r).pgDir) := by
  have hfits : (c.action proc).Fits := c.action_fits
  have hrun : ∀ v σ', c.run proc σ = some (v, σ') ↔ (c.action proc).run r σ = some (v, σ') := fun v σ' => by
    rw [c.run_action hproc]
  simp only [MemCall.FramesKept, hrun]
  generalize c.action proc = a at hfits
  cases a with
  | nothing value => exact ⟨fun _ _ _ _ => trivial, fun _ _ => trivial⟩
  | shrink value start n => exact ⟨fun _ _ _ _ => trivial, fun _ _ => trivial⟩
  | unmap start n => exact ⟨fun _ _ _ _ => trivial, fun _ _ => trivial⟩
  | protect start n flags =>
    rcases MemAction.run_protect_cases hl hfits flags with ⟨hno, hrun⟩ | ⟨hall, hrun⟩
    · exact MemAction.iff_of_run hrun (iff_of_true (fun _ _ => rfl) fun hres => absurd hres hno)
    · obtain ⟨σ', hloop, hiff⟩ := sysProtectFrom_frames h.toDirectories hd hl hfits flags hall
      exact MemAction.iff_of_run (by rw [hrun, hloop]; rfl)
        (hiff.trans ⟨fun hwithin _ => hwithin, fun hfit => hfit hall⟩)
  | grow data value start n flags =>
    by_cases hbelow : (MemAction.grow data value start n flags).Below σ
    · obtain ⟨v, σ', hrun, hiff⟩ := sysGrow_frames data value flags h hd hl hfits hbelow
      exact MemAction.iff_of_run hrun hiff
    · exact ⟨fun hfit => absurd hfit.1 hbelow, fun hb => absurd hb hbelow⟩

/-- One page at `0x100000`, with a flag that is a bit of an address. -/
def flagsMmap : SyscallArgs := ⟨0x100000, 1, 0x8007, 0xFFFFFFFF, 1, by decide⟩

theorem memory_call_keeps_frames_mmap :
    ((MemCall.action mmapProc (.mmap flagsMmap)).FlagsFit mmapHost (mmapHost.region 1).pgDir →
      MemCall.FramesKept mmapProc 1 mmapHost (.mmap flagsMmap)) ∧
    ((MemCall.action mmapProc (.mmap flagsMmap)).Below mmapHost →
      MemCall.FramesKept mmapProc 1 mmapHost (.mmap flagsMmap) →
        (MemCall.action mmapProc (.mmap flagsMmap)).FlagsFit mmapHost (mmapHost.region 1).pgDir) :=
  memory_call_keeps_frames running_mmapHost.spaces rfl mmapHost_pgDir loaded_mmapHost _

/-- The page gets the frame `0xA000`; the one at `0x2000` was allocated for it. -/
theorem not_memory_call_keeps_frames : ¬ ∀ (σ : Vmm) (dirs : ℕ → Prop) (proc : MemProc) (r : ℕ) (c : MemCall),
    Spaces σ dirs → proc.region = some r → dirs (σ.region r).pgDir → Loaded σ r → c.FramesKept proc r σ := by
  intro hall
  have hval : (MemCall.run mmapProc (.mmap flagsMmap) mmapHost).map
      (fun o => (o.1, tableLink (o.2.word 0x1000 0x100))) = some (0x100000, some 0xA000) := by decide +kernel
  obtain ⟨⟨v, σ'⟩, hrun, hword⟩ := Option.map_eq_some_iff.1 hval
  obtain ⟨rfl, hlink⟩ := Prod.mk.inj hword
  have haction : MemCall.action mmapProc (.mmap flagsMmap) = .grow (fun _ _ => 0) 0x100000 0x100000 1 0x8007 := rfl
  have hkept := hall mmapHost (· = 0x1000) mmapProc 1 (.mmap flagsMmap) running_mmapHost.spaces rfl
    mmapHost_pgDir loaded_mmapHost _ σ' hrun
  rw [haction, MemAction.FramesKept, mmapHost_pgDir] at hkept
  have hget : (sysGrowPages (fun _ _ => 0) 1 0x100000 0x8007 1 0 mmapHost)[0]? = some 0x2000 := by decide +kernel
  exact absurd (hlink.symm.trans (hkept (by decide) 0 _ hget)) (by decide)

end Flopperating
