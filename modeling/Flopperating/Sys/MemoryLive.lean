/-
# Mappings that are lost, pages that are not returned

`sys_mmap` and an expanding `sys_mremap` map over what is there, and their rollback unmaps
and frees what it finds; a shrinking `sys_mremap` unmaps whatever is in its range, page
tables in the recursive window included, from the page that the new end lies in on.  So a
mapping survives exactly when there is none where the new pages come, and a failed call
leaves nothing behind exactly when it needed no page table (`memory_call_keeps_live`).
-/

import Flopperating.Sys.MemoryFrames

namespace Flopperating

open Vmm TwoLevel

variable {σ σ' : Vmm} {dirs : ℕ → Prop} {proc : MemProc} {d n p q r start value : ℕ}

/-! ### What the calls promise -/

/-- What was mapped is mapped to the same frame, apart from what was to be cut off; and when
`-1` is returned no page is newly mapped and as many pages are free as before. -/
structure LiveKept (σ σ' : Vmm) (d v : ℕ) (cut : ℕ → Prop) : Prop where
  kept : ∀ p < addressPages, ¬ cut p → ∀ f, tableLink (σ.word d p) = some f → tableLink (σ'.word d p) = some f
  fresh : v = minusOne → ∀ p < addressPages, present (σ'.word d p) = true → present (σ.word d p) = true
  count : v = minusOne → σ'.freePages.length = σ.freePages.length

theorem LiveKept.refl {v : ℕ} {cut : ℕ → Prop} : LiveKept σ σ d v cut :=
  ⟨fun _ _ _ _ hlink => hlink, fun _ _ _ hpres => hpres, fun _ => rfl⟩

/-- The page lies in the range. -/
def InRange (start n p : ℕ) : Prop := start ≤ p * pageSize ∧ (p + 1) * pageSize ≤ start + n * pageSize

namespace MemAction

/-- The pages that the action is asked to cut off. -/
def Cut : MemAction → ℕ → Prop
  | shrink _ start n => InRange start n
  | nothing _ | unmap _ _ | protect _ _ _ | grow _ _ _ _ _ => fun _ => False

/-- What `sys_mmap` and `sys_mremap` promise of the action, which returned `v`. -/
def LiveKept (r : ℕ) (σ : Vmm) (v : ℕ) (σ' : Vmm) : MemAction → Prop
  | unmap _ _ | protect _ _ _ => True
  | nothing value => Flopperating.LiveKept σ σ' (σ.region r).pgDir v (nothing value).Cut
  | shrink value start n => Flopperating.LiveKept σ σ' (σ.region r).pgDir v (shrink value start n).Cut
  | grow data value start n flags =>
    Flopperating.LiveKept σ σ' (σ.region r).pgDir v (grow data value start n flags).Cut

/-- Where the action maps there is nothing, what it unmaps lies in the part to be cut off,
and when it fails it has taken no page that the rollback does not find. -/
def SparesLive (σ : Vmm) (d : ℕ) : MemAction → Prop
  | nothing _ | unmap _ _ | protect _ _ _ => True
  | shrink value start n => ∀ q, start / pageSize ≤ q → q < start / pageSize + n →
      Resolves σ d (start % pageSize) q → value ≠ minusOne ∧ InRange start n q ∧
        ∀ p < windowPage, windowPage + p / pageEntries = q → present (σ.word d p) = true → InRange start n p
  | grow _ value start n flags =>
      let frames := framesTaken (σ.hasTable d) (start / pageSize) n σ.freePages
      start / pageSize + min n σ.freePages.length ≤ windowPage ∧
        (GrowSucceeds (σ.hasTable d) (start / pageSize) n σ.freePages → (value = minusOne → n = 0) ∧
          ∀ j f, frames[j]? = some f → ∀ g, tableLink (σ.word d (start / pageSize + j)) = some g →
            tableLink (pageEntry f flags) = some g) ∧
        (¬ GrowSucceeds (σ.hasTable d) (start / pageSize) n σ.freePages → frames.length = σ.freePages.length ∧
          ∀ j < frames.length, σ.hasTable d ((start / pageSize + j) / pageEntries) = true ∧
            present (σ.word d (start / pageSize + j)) = false)

end MemAction

/-! ### Shrinking -/

theorem freedPages_eq_nil {word : ℕ → ℕ} {off : ℕ} : freedPages word off p n = [] ↔ ∀ q, p ≤ q → q < p + n →
    ¬ (present (word q) = true ∧ maskLow (word q) pageSize ||| off ≠ 0) := by
  rw [List.eq_nil_iff_forall_not_mem]
  constructor
  · exact fun hnone q hq hqn hres => hnone _ (mem_freedPages.2 ⟨q, hq, hqn, hres, rfl⟩)
  · intro hnone f hf
    obtain ⟨q, hq, hqn, hres, -⟩ := mem_freedPages.1 hf
    exact hnone q hq hqn hres

/-- **The loop that frees** spares what is not cut off exactly when what it finds lies in
the range, and so do the pages of every page table that it finds. -/
theorem sysFreeFrom_live (h : Directories σ dirs) (hd : dirs (σ.region r).pgDir) (hl : Loaded σ r)
    (hfit : start + n * pageSize < 2 ^ 32) (value : ℕ) : ∃ σ', sysFreeFrom r start n 0 σ = some σ' ∧
      ((MemAction.shrink value start n).LiveKept r σ value σ' ↔
        (MemAction.shrink value start n).SparesLive σ (σ.region r).pgDir) := by
  have hpages : ∀ q, q < start / pageSize + n → q < windowPage + recursivePde := fun q hq => page_lt_of_fits_zero hfit hq
  obtain ⟨σ', hrun, hall⟩ := sysFreeFrom_all h hd hl hfit
  obtain ⟨σ'', hrun', -, hshrunk, hgone⟩ := sysFreeFrom_shrinks hl (fits_zero hfit)
  obtain rfl := Option.some.inj (hrun.symm.trans hrun')
  rw [Nat.add_zero] at hgone
  have hself := h.self _ hd
  have hself' : tableLink (σ'.mem (σ.region r).pgDir recursivePde) = some (σ.region r).pgDir := by
    rw [hall.entry, if_neg fun hin => Nat.lt_irrefl _ (hpages _ hin.2.1)]
    exact hself
  refine ⟨σ', hrun, ?_⟩
  constructor
  · intro hkept q hq hqn hres
    have hinrange : ∀ p < addressPages, present (σ.word (σ.region r).pgDir p) = true →
        present (σ'.word (σ.region r).pgDir p) = false → InRange start n p := fun p hp hpres hno => by
      by_contra hout
      have hlink := hkept.kept p hp hout _ (tableLink_of_present hpres)
      rw [(tableLink_eq_some.1 hlink).1] at hno
      exact absurd hno (by simp)
    have hlt : q < addressPages := (hpages q hqn).trans (by decide)
    refine ⟨fun hvalue => ?_, hinrange q hlt hres.1 (hgone q hq hqn hres), fun p hp hslot hpres => ?_⟩
    · have hcount := hkept.count hvalue
      rw [hall.free, List.length_append, Nat.add_eq_right, List.length_eq_zero_iff, freedPages_eq_nil] at hcount
      exact hcount q hq hqn hres
    · refine hinrange p (hp.trans (by decide)) hpres ?_
      have hentry := hall.entry (p / pageEntries)
      rw [hslot, if_pos ⟨hq, hqn, hres⟩] at hentry
      have htable : σ'.hasTable (σ.region r).pgDir (p / pageEntries) = false := by
        rw [Vmm.hasTable, hentry, present_zero]
      rw [word_of_absent htable, present_zero]
  · intro hspares
    refine ⟨fun p hp hout f hlink => ?_, fun _ p _ hpres => ?_, fun hvalue => ?_⟩
    · have hpres := (tableLink_eq_some.1 hlink).1
      rcases Nat.lt_or_ge p windowPage with hlt | hge
      · have hentry : σ'.mem (σ.region r).pgDir (p / pageEntries) = σ.mem (σ.region r).pgDir (p / pageEntries) := by
          rw [hall.entry, if_neg]
          exact fun hin => hout ((hspares _ hin.1 hin.2.1 hin.2.2).2.2 p hlt rfl hpres)
        rw [hall.word p hlt hentry, if_neg fun hin => hout (hspares p hin.1 hin.2.1 hin.2.2).2.1]
        exact hlink
      · obtain ⟨k, rfl⟩ := Nat.exists_eq_add_of_le hge
        rw [word_of_self hself hge hp, Nat.add_sub_cancel_left] at hlink
        rw [word_of_self hself' hge hp, Nat.add_sub_cancel_left, hall.entry,
          if_neg fun hin => hout (hspares _ hin.1 hin.2.1 hin.2.2).2.1]
        exact hlink
    · rw [← hshrunk p hpres]
      exact hpres
    · have hnone : freedPages (σ.word (σ.region r).pgDir) (start % pageSize) (start / pageSize) n = [] :=
        freedPages_eq_nil.2 fun q hq hqn hres => (hspares q hq hqn hres).1 hvalue
      rw [hall.free, hnone, List.nil_append]

/-! ### Growing -/

/-- A loop that ends well and has a page to map takes one. -/
theorem sysGrow_takes {data : ℕ → ℕ → ℕ} {flags : ℕ} (h : Spaces σ dirs) (hd : dirs (σ.region r).pgDir)
    (hl : Loaded σ r) (hfit : start + n * pageSize < 2 ^ 32)
    (hbelow : start / pageSize + min n σ.freePages.length ≤ windowPage) (hn : n ≠ 0)
    (hok : GrowSucceeds (σ.hasTable (σ.region r).pgDir) (start / pageSize) n σ.freePages)
    (hrun : sysGrowFrom data r start flags n 0 σ = some (0, σ'))
    (hg : Grown σ σ' dirs (σ.region r).pgDir (start / pageSize) flags
      (framesTaken (σ.hasTable (σ.region r).pgDir) (start / pageSize) n σ.freePages)) :
    σ'.freePages.length < σ.freePages.length := by
  rcases hframes : framesTaken (σ.hasTable (σ.region r).pgDir) (start / pageSize) n σ.freePages with - | ⟨f, frames⟩
  · rw [GrowSucceeds, hframes] at hok
    obtain ⟨hlast, hcount⟩ := hok.resolve_left fun he => hn he.symm
    obtain rfl : n = 1 := hlast.symm
    have hcount : σ.freePages.length = 1 := hcount
    have hfit₀ : start + (0 + (0 + 1)) * pageSize < 2 ^ 32 := hfit
    rcases sysGrowFrom_step data flags h hd hl hfit₀ (fun _ => by omega) with
      ⟨hnil, -⟩ | ⟨pa, free, hfree, ⟨-, -, hstep⟩ | ⟨σ₁, hm, -⟩⟩
    · rw [hnil] at hcount
      exact absurd hcount (by simp)
    · obtain rfl : _ = σ' := (Prod.mk.inj (Option.some.inj (hstep.symm.trans hrun))).2
      rw [hcount]
      exact Nat.one_pos
    · rw [Nat.add_zero] at hm
      rw [framesTaken_mapped hd hfree hm] at hframes
      exact absurd hframes (List.cons_ne_nil _ _)
  · obtain ⟨hin, hout, -⟩ := hg.taken f (by rw [hframes]; exact List.mem_cons_self)
    refine Nat.lt_of_le_of_ne hg.free.length_le fun he => hout ?_
    rw [hg.free.eq_of_length he]
    exact hin

/-- **The loop that maps new pages** spares what is mapped exactly when it maps over nothing,
and when it fails the rollback returns all it took. -/
theorem sysGrow_live (data : ℕ → ℕ → ℕ) (value flags : ℕ) (h : Spaces σ dirs) (hd : dirs (σ.region r).pgDir)
    (hl : Loaded σ r) (hfit : start + n * pageSize < 2 ^ 32)
    (hbelow : start / pageSize + min n σ.freePages.length ≤ windowPage) :
    ∃ v σ', (MemAction.grow data value start n flags).run r σ = some (v, σ') ∧
      ((MemAction.grow data value start n flags).LiveKept r σ v σ' ↔
        (MemAction.grow data value start n flags).SparesLive σ (σ.region r).pgDir) := by
  have hlen := framesTaken_length (σ.hasTable (σ.region r).pgDir) (start / pageSize) n σ.freePages
  have hself := h.self _ hd
  rcases sysGrow_cases data flags h hd hl hfit hbelow with ⟨hok, σ', hrun, hg, -⟩ | ⟨hfail, σ', hrun, hback⟩
  · refine ⟨value, σ', by rw [MemAction.run, hrun]; rfl, ?_⟩
    have htakes : n ≠ 0 → σ'.freePages.length < σ.freePages.length := fun hn =>
      sysGrow_takes h hd hl hfit hbelow hn hok hrun hg
    simp only [MemAction.SparesLive]
    generalize framesTaken (σ.hasTable (σ.region r).pgDir) (start / pageSize) n σ.freePages = frames at hlen hg
    constructor
    · intro hkept
      refine ⟨hbelow, fun _ => ⟨fun hvalue => ?_, fun j f hj g hlink => ?_⟩, fun hno => absurd hok hno⟩
      · by_contra hn
        have := htakes hn
        rw [hkept.count hvalue] at this
        omega
      · have hj' : j < frames.length := (List.getElem?_eq_some_iff.1 hj).1
        have hlt : start / pageSize + j < windowPage := by omega
        rw [← hg.maps j f hj]
        exact hkept.kept _ (hlt.trans (by decide)) id g hlink
    · rintro ⟨-, hspares, -⟩
      obtain ⟨hzero, hover⟩ := hspares hok
      have hentry : ∀ k, present (σ.mem (σ.region r).pgDir k) = true →
          σ'.mem (σ.region r).pgDir k = σ.mem (σ.region r).pgDir k := fun k hk => hg.entry k (.inl hk)
      have hsame : value = minusOne → σ' = σ := fun hvalue => by
        obtain rfl := hzero hvalue
        exact (Prod.mk.inj (Option.some.inj (hrun.symm.trans rfl))).2
      refine ⟨fun p hp _ f hlink => ?_, fun hvalue p _ hpres => ?_, fun hvalue => ?_⟩
      · rcases Nat.lt_or_ge p windowPage with hlt | hge
        · by_cases hin : start / pageSize ≤ p ∧ p < start / pageSize + frames.length
          · obtain ⟨j, rfl⟩ := Nat.exists_eq_add_of_le hin.1
            have hj := List.getElem?_eq_getElem (show j < frames.length by omega)
            rw [hg.maps j _ hj]
            exact hover j _ hj f hlink
          · rw [hg.word p hlt hin]
            exact hlink
        · rw [word_of_self hself hge hp] at hlink
          rw [word_of_self (by rw [hentry _ (tableLink_eq_some.1 hself).1]; exact hself) hge hp,
            hentry _ (tableLink_eq_some.1 hlink).1]
          exact hlink
      · rw [hsame hvalue] at hpres
        exact hpres
      · rw [hsame hvalue]
  · refine ⟨minusOne, σ', by rw [MemAction.run, hrun]; rfl, ?_⟩
    simp only [MemAction.SparesLive]
    generalize framesTaken (σ.hasTable (σ.region r).pgDir) (start / pageSize) n σ.freePages = frames at hlen hback
    have hcount : σ'.freePages.length = frames.length := by rw [hback.free, List.length_reverse, List.length_map]
    have hself' := hback.directories.self _ hd
    have hwindow : ∀ k < pageEntries, σ.word (σ.region r).pgDir (windowPage + k) = σ.mem (σ.region r).pgDir k ∧
        σ'.word (σ.region r).pgDir (windowPage + k) = σ'.mem (σ.region r).pgDir k := fun k hk => by
      have hlt : windowPage + k < addressPages := Nat.add_lt_add_left hk _
      rw [word_of_self hself (Nat.le_add_right _ _) hlt, word_of_self hself' (Nat.le_add_right _ _) hlt,
        Nat.add_sub_cancel_left]
      exact ⟨rfl, rfl⟩
    constructor
    · intro hkept
      refine ⟨hbelow, fun hok => absurd hok hfail, fun _ => ⟨hcount.symm.trans (hkept.count rfl), fun j hj => ?_⟩⟩
      have hlt : start / pageSize + j < windowPage := by omega
      have hslot : (start / pageSize + j) / pageEntries < pageEntries := (div_lt_of_window hlt).trans (by decide)
      constructor
      · have hfresh := hkept.fresh rfl _ (Nat.add_lt_add_left hslot _)
        rw [(hwindow _ hslot).1, (hwindow _ hslot).2] at hfresh
        exact hfresh (hback.here j hj)
      · by_contra hpres
        rw [Bool.not_eq_false] at hpres
        have hlink := hkept.kept _ (hlt.trans (by decide)) id _ (tableLink_of_present hpres)
        rw [hback.word _ hlt, if_pos ⟨by omega, by omega⟩, tableLink_zero] at hlink
        exact absurd hlink (by simp)
    · rintro ⟨-, -, hspares⟩
      obtain ⟨hall, hnone⟩ := hspares hfail
      have hdir := dir_of_tables hback.entry fun j hj => (hnone j hj).1
      have hword : ∀ p < addressPages, σ'.word (σ.region r).pgDir p = σ.word (σ.region r).pgDir p ∨
          present (σ.word (σ.region r).pgDir p) = false ∧ σ'.word (σ.region r).pgDir p = 0 := fun p hp => by
        rcases Nat.lt_or_ge p windowPage with hlt | hge
        · rw [hback.word p hlt]
          split
          · next hin =>
            obtain ⟨j, rfl⟩ := Nat.exists_eq_add_of_le hin.1
            exact .inr ⟨(hnone j (by omega)).2, rfl⟩
          · exact .inl rfl
        · rw [word_of_self hself hge hp, word_of_self hself' hge hp, hdir]
          exact .inl rfl
      refine ⟨fun p hp _ f hlink => ?_, fun _ p hp hpres => ?_, fun _ => hcount.trans hall⟩
      · rcases hword p hp with hsame | ⟨hno, -⟩
        · rw [hsame]
          exact hlink
        · exact absurd (tableLink_eq_some.1 hlink).1 (by rw [hno]; simp)
      · rcases hword p hp with hsame | ⟨-, hzero⟩
        · rw [← hsame]
          exact hpres
        · rw [hzero, present_zero] at hpres
          exact absurd hpres (by simp)

/-! ### The calls -/

/-- `sys_mmap` and `sys_mremap` lose no mapping, and leave nothing behind when they fail. -/
def MemCall.LiveKept (proc : MemProc) (r : ℕ) (σ : Vmm) (c : MemCall) : Prop :=
  ∀ v σ', c.run proc σ = some (v, σ') → (c.action proc).LiveKept r σ v σ'

/-- **No live mapping is lost** exactly when the calls map over nothing, cut off what they
are asked to, and need no page table before they fail.  Where new pages reach the recursive
window, the condition is one that is enough. -/
theorem memory_call_keeps_live (h : Spaces σ dirs) (hproc : proc.region = some r) (hd : dirs (σ.region r).pgDir)
    (hl : Loaded σ r) (c : MemCall) :
    ((c.action proc).SparesLive σ (σ.region r).pgDir → c.LiveKept proc r σ) ∧
      ((c.action proc).Below σ → c.LiveKept proc r σ → (c.action proc).SparesLive σ (σ.region r).pgDir) := by
  have hfits : (c.action proc).Fits := c.action_fits
  have hrun : ∀ v σ', c.run proc σ = some (v, σ') ↔ (c.action proc).run r σ = some (v, σ') := fun v σ' => by
    rw [c.run_action hproc]
  simp only [MemCall.LiveKept, hrun]
  generalize c.action proc = a at hfits
  cases a with
  | nothing value => exact MemAction.iff_of_run rfl (iff_of_true .refl trivial)
  | unmap start n => exact ⟨fun _ _ _ _ => trivial, fun _ _ => trivial⟩
  | protect start n flags => exact ⟨fun _ _ _ _ => trivial, fun _ _ => trivial⟩
  | shrink value start n =>
    obtain ⟨σ', hrun, hiff⟩ := sysFreeFrom_live h.toDirectories hd hl hfits value
    exact MemAction.iff_of_run (by rw [MemAction.run, hrun]; rfl) hiff
  | grow data value start n flags =>
    by_cases hbelow : (MemAction.grow data value start n flags).Below σ
    · obtain ⟨v, σ', hrun, hiff⟩ := sysGrow_live data value flags h hd hl hfits hbelow
      exact MemAction.iff_of_run hrun hiff
    · exact ⟨fun hspares => absurd hspares.1 hbelow, fun hb => absurd hb hbelow⟩

/-- One page at `0x100000`. -/
def oneMmap : SyscallArgs := ⟨0x100000, 1, 7, 0xFFFFFFFF, 1, by decide⟩

theorem memory_call_keeps_live_mmap :
    ((MemCall.action mmapProc (.mmap oneMmap)).SparesLive mmapHost (mmapHost.region 1).pgDir →
      MemCall.LiveKept mmapProc 1 mmapHost (.mmap oneMmap)) ∧
    ((MemCall.action mmapProc (.mmap oneMmap)).Below mmapHost →
      MemCall.LiveKept mmapProc 1 mmapHost (.mmap oneMmap) →
        (MemCall.action mmapProc (.mmap oneMmap)).SparesLive mmapHost (mmapHost.region 1).pgDir) :=
  memory_call_keeps_live running_mmapHost.spaces rfl mmapHost_pgDir loaded_mmapHost _

/-- The same call again maps another frame over the first one. -/
theorem not_memory_call_keeps_live : ¬ ∀ (σ : Vmm) (dirs : ℕ → Prop) (proc : MemProc) (r : ℕ) (c : MemCall),
    Spaces σ dirs → proc.region = some r → dirs (σ.region r).pgDir → Loaded σ r → c.LiveKept proc r σ := by
  intro hall
  have hfirst : (sysGrowFrom (fun _ _ => 0) 1 0x100000 7 1 0 mmapHost).map
      (fun o => (o.1, tableLink (o.2.word 0x1000 0x100))) = some (0, some 0x2000) := by decide +kernel
  have hsecond : ((sysGrowFrom (fun _ _ => 0) 1 0x100000 7 1 0 mmapHost).bind fun o =>
      (MemCall.run mmapProc (.mmap oneMmap) o.2).map fun o => tableLink (o.2.word 0x1000 0x100)) =
        some (some 0x4000) := by decide +kernel
  rcases sysGrow_cases (fun _ _ => 0) 7 running_mmapHost.spaces mmapHost_pgDir loaded_mmapHost
    (show 0x100000 + 1 * pageSize < 2 ^ 32 by decide) (by decide) with ⟨-, σ, hrun, hg, -⟩ | ⟨-, σ, hrun, -⟩
  · rw [hrun] at hfirst hsecond
    obtain ⟨⟨v, σ'⟩, hrun', hlink'⟩ := Option.map_eq_some_iff.1 hsecond
    have hreg : σ.region 1 = mmapHost.region 1 := congrFun hg.same.region 1
    have hdir : (σ.region 1).pgDir = 0x1000 := by rw [hreg, mmapHost_pgDir]
    have hlink : tableLink (σ.word 0x1000 0x100) = some 0x2000 := (Prod.mk.inj (Option.some.inj hfirst)).2
    have haction : MemCall.action mmapProc (.mmap oneMmap) = .grow (fun _ _ => 0) 0x100000 0x100000 1 7 := rfl
    have hkept := hall σ (· = 0x1000) mmapProc 1 (.mmap oneMmap) hg.spaces rfl hdir
      (loaded_mmapHost.of_same hg.same) v σ' hrun'
    rw [haction, MemAction.LiveKept, hdir] at hkept
    exact absurd (hlink'.symm.trans (hkept.kept 0x100 (by decide) id _ hlink)) (by decide)
  · rw [hrun] at hfirst
    exact absurd (show (-1 : ℤ) = 0 from (Prod.mk.inj (Option.some.inj hfirst)).1) (by decide)

end Flopperating
