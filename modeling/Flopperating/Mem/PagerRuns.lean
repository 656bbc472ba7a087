/-
# The range of a pager over runs

A pager keeps its pages as one range, `base_va` and `size_pages`.  The requests that map
pages put them at `next_free_va`, at the first free range or at an offset that the caller
names, and add their number to `size_pages`; `FREE` takes its number off the end, wherever
the pages are that it frees; and what a request that fails has mapped is in no range.

A run (`PagerRun.Step`) is any sequence of requests and of allocations by other users of the
region, and it remembers the frame of each page that the pager has mapped and not freed.
`PagerRun.Accounted` says that these are the pages of the range.  They are as long as each
step is one that `PagerOp.Supported` admits (`PagerRun.accounted_of_supported`): pages are
added behind the range and taken from its end, and no request fails halfway.
-/

import Flopperating.Mem.PagerPages

namespace Flopperating

open Transition Vmm

/-- A pager of a region, and the frame of each page that it has mapped and not freed. -/
structure PagerRun where
  vmm : Vmm
  pager : Pager
  mapped : ℕ → Option ℕ

/-- `va_b` of `vmm_pager_handle_map_shared`. -/
def PagerRequest.sharedVa (req : PagerRequest) (b : ℕ) (σ : Vmm) : ℕ :=
  u32 ((σ.region b).baseVa + u32 (req.targetVirtualOffset * pageSize))

namespace Pager

/-- The address of an offset is in the range. -/
def InRange (pg : Pager) (offset : ℕ) : Prop :=
  pg.baseVa ≤ pg.target offset ∧ pg.target offset < pg.stop

instance (pg : Pager) (offset : ℕ) : Decidable (pg.InRange offset) :=
  inferInstanceAs (Decidable (_ ∧ _))

/-- The pages of its region that a request is to map. -/
def named (r : ℕ) (pg : Pager) (req : PagerRequest) (σ : Vmm) : List ℕ :=
  let pagesAt va := List.range' (va / pageSize) req.pageCount
  match req.type with
  | .alloc => pagesAt (vmmBump r σ)
  | .mapPhysical =>
    pagesAt (if pg.InRange req.virtualOffset then pg.target req.virtualOffset else vmmBump r σ)
  | .mapShared =>
    match req.targetRegion with
    | none => []
    | some b => pagesAt (pg.target req.virtualOffset) ++
        if (σ.region b).pgDir = (σ.region r).pgDir then pagesAt (req.sharedVa b σ) else []
  | .mapAnon =>
    match vmmFindFreeRange r req.pageCount σ with
    | none => []
    | some va => pagesAt va
  | _ => []

/-- A range that is not empty is below the recursive window and does not start at `0`. -/
def Below (pg : Pager) : Prop :=
  pg.sizePages ≠ 0 → pg.baseVa ≠ 0 ∧ pg.baseVa + pg.sizePages * pageSize ≤ recursiveAddr

/-- The range goes on with `n` pages at `va`, and stays below the recursive window. -/
def Joins (pg : Pager) (va n : ℕ) : Prop :=
  if pg.sizePages = 0 then va ≠ 0 ∧ va + n * pageSize ≤ recursiveAddr
  else va / pageSize = pg.baseVa / pageSize + pg.sizePages ∧
    pg.baseVa + (pg.sizePages + n) * pageSize ≤ recursiveAddr

/-- The range goes on with the pages that are mapped at `vaA` and at `vaB`. -/
def JoinsBoth (pg : Pager) (vaA vaB n : ℕ) : Prop :=
  if pg.sizePages = 0 then vaA ≠ 0 ∧ vaA + n * pageSize ≤ recursiveAddr ∧
    vaB / pageSize = vaA / pageSize
  else (vaA / pageSize = pg.baseVa / pageSize + pg.sizePages ∨
      vaB / pageSize = pg.baseVa / pageSize + pg.sizePages) ∧
    (pg.baseVa / pageSize ≤ vaA / pageSize ∧
      vaA / pageSize ≤ pg.baseVa / pageSize + pg.sizePages) ∧
    (pg.baseVa / pageSize ≤ vaB / pageSize ∧
      vaB / pageSize ≤ pg.baseVa / pageSize + pg.sizePages) ∧
    pg.baseVa + (pg.sizePages + n) * pageSize ≤ recursiveAddr

end Pager

namespace PagerRun

/-- What the pager has mapped when a request has returned `status`: a page that is mapped is
the pager's if it was before, if its entry has changed, or if the request has succeeded in
mapping it. -/
def record (r : ℕ) (s : PagerRun) (req : PagerRequest) (status : ℤ) (σ' : Vmm) (q : ℕ) : Option ℕ :=
  let word := σ'.word (s.vmm.region r).pgDir q
  if q < windowPage ∧ present word = true ∧ ((s.mapped q).isSome = true ∨
      word ≠ s.vmm.word (s.vmm.region r).pgDir q ∨
      status = 0 ∧ q ∈ s.pager.named r req s.vmm) then
    some (maskLow word pageSize)
  else none

end PagerRun

/-- The requests that add pages to a pager or take them off. -/
def rangeTypes : List PagerRequestType := [.alloc, .free, .mapPhysical, .mapShared, .mapAnon]

/-- A request, or an allocation in the region by another user. -/
inductive PagerOp
  | request (req : PagerRequest) (htype : req.type ∈ rangeTypes)
  | other (call : AllocCall)

namespace PagerOp

/-- The step, if it returns. -/
def exec (r : ℕ) (s : PagerRun) : PagerOp → Option PagerRun
  | request req _ => (vmmPagerHandleRequest s.pager req s.vmm).map fun o =>
    ⟨o.2.2, o.2.1, s.record r req o.1.status o.2.2⟩
  | other call => (call.run r s.vmm).map fun o => { s with vmm := o.2 }

/-- `ALLOC`: enough pages are free and the range goes on with them, or too few are, `vmm_alloc`
says so, and it has mapped nothing over a page of the range. -/
def SupportsAlloc (r : ℕ) (pg : Pager) (n : ℕ) (σ : Vmm) : Prop :=
  let va := vmmBump r σ
  let needed := pagesNeeded (σ.hasTable (σ.region r).pgDir) (va / pageSize)
  n = 0 ∨ TriedBelow σ (σ.region r).pgDir va 0 n ∧
    (needed n ≤ σ.freePages.length ∧ pg.Joins va n ∨
      (σ.freePages.length < needed n ∧ σ.freePages.length ≠ needed (n - 1) + 1 ∧
        ∀ k < n, needed (k + 1) ≤ σ.freePages.length → ¬ pg.Covers (va / pageSize + k)))

/-- `FREE`: it is refused, or the pages are the last ones of the range. -/
def SupportsFree (pg : Pager) (offset n : ℕ) : Prop :=
  pg.sizePages < n ∨ n = 0 ∨
    pg.target offset / pageSize = pg.baseVa / pageSize + (pg.sizePages - n)

/-- A loop of `vmm_map` over `addrs`: all are mapped, and `fits` holds, or those that are
mapped before it fails are pages of the range. -/
def SupportsMaps (r : ℕ) (pg : Pager) (addrs : List ℕ) (fits : Prop) (σ : Vmm) : Prop :=
  let needed := tablesNeeded (σ.hasTable (σ.region r).pgDir)
  MapsBelow σ (σ.region r).pgDir addrs ∧ (needed addrs ≤ σ.freePages.length ∧ fits ∨
    σ.freePages.length < needed addrs ∧ ∀ k a, addrs[k]? = some a →
      needed (addrs.take (k + 1)) ≤ σ.freePages.length → pg.Covers (a / pageSize))

/-- `MAP_PHYSICAL`: in the range, the pages are pages of the range, or the page behind it is
where the loop fails; else the range goes on with them. -/
def SupportsPhysical (r : ℕ) (pg : Pager) (offset n : ℕ) (σ : Vmm) : Prop :=
  if pg.InRange offset then
    pg.target offset / pageSize + n ≤ pg.baseVa / pageSize + pg.sizePages ∨
      (σ.freePages = [] ∧ σ.hasTable (σ.region r).pgDir
        ((pg.baseVa / pageSize + pg.sizePages) / pageEntries) = false)
  else n = 0 ∨ SupportsMaps r pg (rangeAddrs (vmmBump r σ) 0 n) (pg.Joins (vmmBump r σ) n) σ

/-- `MAP_SHARED`: nothing is mapped, or both ends are in the address space of the pager and
the range goes on with them. -/
def SupportsShared (r : ℕ) (pg : Pager) (req : PagerRequest) (σ : Vmm) : Prop :=
  ∀ b ∈ req.targetRegion, req.pageCount = 0 ∨
    (σ.freePages = [] ∧ σ.hasTable (σ.region r).pgDir
      (pg.target req.virtualOffset / pageSize / pageEntries) = false) ∨
    ((σ.region b).pgDir = (σ.region r).pgDir ∧
      SupportsMaps r pg (sharedAddrs (pg.target req.virtualOffset) (req.sharedVa b σ) 0 req.pageCount)
        (pg.JoinsBoth (pg.target req.virtualOffset) (req.sharedVa b σ) req.pageCount) σ)

/-- `MAP_ANON`: when there is a free range and enough pages are free, the range goes on with
it. -/
def SupportsAnon (r : ℕ) (pg : Pager) (n : ℕ) (σ : Vmm) : Prop :=
  ∀ va, vmmFindFreeRange r n σ = some va → va ≠ 0 →
    TriedBelow σ (σ.region r).pgDir va 0 n ∧
    (pagesNeeded (σ.hasTable (σ.region r).pgDir) (va / pageSize) n ≤ σ.freePages.length →
      n = 0 ∨ pg.Joins va n)

/-- Another user maps nothing over a page of the range. -/
def SupportsOther (r : ℕ) (pg : Pager) (call : AllocCall) (σ : Vmm) : Prop :=
  ∀ va, call.target r σ = some (some va) → TriedBelow σ (σ.region r).pgDir va 0 call.pages ∧
    ∀ k < call.pages, pagesNeeded (σ.hasTable (σ.region r).pgDir) (va / pageSize) (k + 1) ≤
      σ.freePages.length → ¬ pg.Covers (va / pageSize + k)

/-- The steps that keep the account. -/
def Supported (r : ℕ) (s : PagerRun) : PagerOp → Prop
  | request req _ =>
    match req.type with
    | .alloc => SupportsAlloc r s.pager req.pageCount s.vmm
    | .free => SupportsFree s.pager req.virtualOffset req.pageCount
    | .mapPhysical => SupportsPhysical r s.pager req.virtualOffset req.pageCount s.vmm
    | .mapShared => SupportsShared r s.pager req s.vmm
    | .mapAnon => SupportsAnon r s.pager req.pageCount s.vmm
    | _ => False
  | other call => SupportsOther r s.pager call s.vmm

end PagerOp

namespace PagerRun

/-- A new pager of the region `r`, which is current and has the directory `d`. -/
structure Start (r d : ℕ) (s : PagerRun) : Prop where
  directories : Directories s.vmm (· = d)
  pgDir : (s.vmm.region r).pgDir = d
  loaded : Loaded s.vmm r
  pager : s.pager = vmmPagerCreate r
  mapped : s.mapped = fun _ => none

/-- One step, after the rest of the system has done something. -/
def Step (r d : ℕ) (s : PagerRun) (op : PagerOp) (s' : PagerRun) : Prop :=
  ∃ σ, Interfere s.vmm σ d ∧ op.exec r { s with vmm := σ } = some s'

/-- One step that keeps the account. -/
def SupportedStep (r d : ℕ) (s : PagerRun) (op : PagerOp) (s' : PagerRun) : Prop :=
  ∃ σ, Interfere s.vmm σ d ∧ op.Supported r { s with vmm := σ } ∧
    op.exec r { s with vmm := σ } = some s'

/-- The pages that the pager has mapped and not freed are those of its range, and
`vmm_pager_destroy` frees them and no others.  A frame `0` is not given back. -/
structure Accounted (d : ℕ) (s : PagerRun) : Prop where
  pages : ∀ q, (s.mapped q).isSome = true ↔ s.pager.Covers q
  destroyed : ∃ σ', vmmPagerDestroy s.pager s.vmm = some σ' ∧
    (∀ q, q < windowPage → σ'.word d q = if (s.mapped q).isSome then 0 else s.vmm.word d q) ∧
    ∃ pages : List ℕ, pages.Nodup ∧ (∀ q, q ∈ pages ↔ (s.mapped q).isSome = true) ∧
      ∀ f, f ≠ 0 → σ'.freePages.count f =
        s.vmm.freePages.count f + pages.countP (s.mapped · = some f)

/-- The invariant. -/
structure Inv (r d : ℕ) (s : PagerRun) : Prop where
  directories : Directories s.vmm (· = d)
  pgDir : (s.vmm.region r).pgDir = d
  loaded : Loaded s.vmm r
  region : s.pager.region = some r
  range : s.pager.Below
  here : ∀ q, s.pager.Covers q → present (s.vmm.word d q) = true
  mapped : ∀ q, s.mapped q =
    if s.pager.Covers q then some (maskLow (s.vmm.word d q) pageSize) else none

end PagerRun

variable {σ σ' σ₁ : Vmm} {b d i k m n p q r va vaA vaB offset : ℕ} {s s' : PagerRun} {pg pg' : Pager}
  {req : PagerRequest} {status : ℤ} {W : ℕ → Prop}

/-! ### Ranges -/

theorem Pager.Covers.size_pos (h : pg.Covers q) : pg.sizePages ≠ 0 := by
  have hlo := h.1
  have hhi := h.2
  omega

/-- The range grows by `n` pages, and does not wrap. -/
theorem Pager.grow_empty (h0 : pg.sizePages = 0) (hn : n < 2 ^ 32) :
    pg.grow va n = { pg with baseVa := va, sizePages := n } := by
  rw [Pager.grow, if_pos h0, h0, Nat.zero_add, u32_of_lt hn]

theorem Pager.grow_of_pos (h0 : pg.sizePages ≠ 0) (hn : pg.sizePages + n < 2 ^ 32) :
    pg.grow va n = { pg with sizePages := pg.sizePages + n } := by
  rw [Pager.grow, if_neg h0, u32_of_lt hn]

theorem pages_lt (hle : va + n * pageSize ≤ recursiveAddr) : n < 2 ^ 32 := by
  simp only [pageSize, recursiveAddr] at hle
  omega

/-- The range with the pages at `va`. -/
theorem Pager.Joins.grow (h : pg.Joins va n) (hpg : pg.Below) : (pg.grow va n).Below ∧
    ∀ q, (pg.grow va n).Covers q ↔ pg.Covers q ∨ va / pageSize ≤ q ∧ q < va / pageSize + n := by
  rw [Pager.Joins] at h
  split at h
  · next h0 =>
    rw [grow_empty h0 (pages_lt h.2)]
    refine ⟨fun _ => h, fun q => ?_⟩
    simp only [Pager.Covers, h0]
    omega
  · next h0 =>
    rw [grow_of_pos h0 (pages_lt h.2)]
    refine ⟨fun _ => ⟨(hpg h0).1, h.2⟩, fun q => ?_⟩
    simp only [Pager.Covers]
    omega

/-- The range with the pages at `vaA` and at `vaB`. -/
theorem Pager.JoinsBoth.grow (h : pg.JoinsBoth vaA vaB n) (hpg : pg.Below) :
    (pg.grow vaA n).Below ∧ ∀ q, (pg.grow vaA n).Covers q ↔
      pg.Covers q ∨ (vaA / pageSize ≤ q ∧ q < vaA / pageSize + n) ∨
        vaB / pageSize ≤ q ∧ q < vaB / pageSize + n := by
  rw [Pager.JoinsBoth] at h
  split at h
  · next h0 =>
    obtain ⟨hne, hle, hsame⟩ := h
    rw [grow_empty h0 (pages_lt hle)]
    refine ⟨fun _ => ⟨hne, hle⟩, fun q => ?_⟩
    simp only [Pager.Covers, h0]
    omega
  · next h0 =>
    obtain ⟨hlast, hA, hB, hle⟩ := h
    rw [grow_of_pos h0 (pages_lt hle)]
    refine ⟨fun _ => ⟨(hpg h0).1, hle⟩, fun q => ?_⟩
    simp only [Pager.Covers]
    omega

theorem Pager.target_mod (pg : Pager) (offset : ℕ) :
    pg.target offset % pageSize = pg.baseVa % pageSize := by
  simp only [Pager.target, u32, pageSize]
  omega

/-- Pages of a range at the target address of an offset. -/
theorem Pager.Below.target_le (hpg : pg.Below) (h0 : pg.sizePages ≠ 0)
    (hle : pg.target offset / pageSize + n ≤ pg.baseVa / pageSize + pg.sizePages) :
    pg.target offset + (0 + n) * pageSize ≤ recursiveAddr := by
  have hmod := pg.target_mod offset
  have hbelow := (hpg h0).2
  simp only [pageSize] at *
  omega

/-- To add no pages. -/
theorem Pager.grow_zero (hpg : pg.Below) : (pg.grow va 0).Below ∧
    ∀ q, (pg.grow va 0).Covers q ↔ pg.Covers q := by
  rcases Nat.eq_zero_or_pos pg.sizePages with h0 | hpos
  · rw [grow_empty h0 (by decide)]
    refine ⟨fun hne => absurd rfl hne, fun q => ?_⟩
    simp only [Pager.Covers, h0]
    omega
  · have hlt := pages_lt (hpg hpos.ne').2
    rw [grow_of_pos hpos.ne' hlt]
    exact ⟨fun _ => hpg hpos.ne', fun q => Iff.rfl⟩

namespace PagerRun

namespace Inv

variable (h : Inv r d s)

include h in
theorem covers_lt (hq : s.pager.Covers q) : q < windowPage := by
  have hle := (h.range hq.size_pos).2
  exact page_lt_of_range (i := 0) (by rwa [Nat.zero_add]) hq.2

include h in
theorem isSome_iff (q : ℕ) : (s.mapped q).isSome = true ↔ s.pager.Covers q := by
  rw [h.mapped]
  split
  · next hq => exact iff_of_true rfl hq
  · next hq => exact iff_of_false (by simp) hq

include h in
/-- What the rest of the system does. -/
theorem interfere (hi : Interfere s.vmm σ d) : Inv r d { s with vmm := σ } ∧ Spaces σ (· = d) := by
  have hs := hi.spaces h.directories
  have hword : ∀ q, s.pager.Covers q → σ.word d q = s.vmm.word d q := fun q hq =>
    hi.word (h.covers_lt hq)
  refine ⟨⟨hs.toDirectories, (hi.same.pgDir r).trans h.pgDir, h.loaded.of_same hi.same, h.region,
    h.range, fun q hq => ?_, fun q => ?_⟩, hs⟩
  · rw [hword q hq]
    exact h.here q hq
  · rw [h.mapped q]
    refine ite_congr rfl (fun hq => ?_) fun _ => rfl
    rw [hword q hq]

include h in
/-- **What a request has to leave behind**: the pages of the new range are mapped, and are the
pager's, and no other page is. -/
theorem next (hdirs : Directories σ' (· = d)) (hcur : σ'.currentPgDir = s.vmm.currentPgDir)
    (hdir : (σ'.region r).pgDir = (s.vmm.region r).pgDir) (hregion : pg'.region = some r)
    (hrange : pg'.Below)
    (hhere : ∀ q, pg'.Covers q → q < windowPage → present (σ'.word d q) = true)
    (hnew : ∀ q, pg'.Covers q → s.pager.Covers q ∨ status = 0 ∧ q ∈ s.pager.named r req s.vmm)
    (hold : ∀ q, q < windowPage → ¬ pg'.Covers q → present (σ'.word d q) = true →
      ¬ s.pager.Covers q ∧ σ'.word d q = s.vmm.word d q ∧
        ¬ (status = 0 ∧ q ∈ s.pager.named r req s.vmm)) :
    Inv r d ⟨σ', pg', s.record r req status σ'⟩ := by
  have hlt : ∀ q, pg'.Covers q → q < windowPage := fun q hq =>
    page_lt_of_range (i := 0) (by rw [Nat.zero_add]; exact (hrange hq.size_pos).2) hq.2
  refine ⟨hdirs, hdir.trans h.pgDir, ?_, hregion, hrange, fun q hq => hhere q hq (hlt q hq),
    fun q => ?_⟩
  · rw [Loaded, hcur, hdir]
    exact h.loaded
  · change s.record r req status σ' q = _
    rw [record, h.pgDir]
    refine ite_congr (propext ?_) (fun _ => rfl) fun _ => rfl
    rw [h.isSome_iff]
    constructor
    · rintro ⟨hq, hp, hmine⟩
      by_contra hout
      obtain ⟨hnot, hsame, hnamed⟩ := hold q hq hout hp
      exact hmine.elim hnot fun hc => hc.elim (fun hne => hne hsame) hnamed
    · intro hq
      exact ⟨hlt q hq, hhere q hq (hlt q hq), (hnew q hq).imp id .inr⟩

include h in
/-- A request that leaves the range as it is. -/
theorem kept (hdirs : Directories σ' (· = d)) (hcur : σ'.currentPgDir = s.vmm.currentPgDir)
    (hdir : (σ'.region r).pgDir = (s.vmm.region r).pgDir) (hregion : pg'.region = some r)
    (hrange : pg'.Below) (hcovers : ∀ q, pg'.Covers q ↔ s.pager.Covers q)
    (hhere : ∀ q, s.pager.Covers q → q < windowPage → present (σ'.word d q) = true)
    (hother : ∀ q, q < windowPage → ¬ s.pager.Covers q → present (σ'.word d q) = true →
      σ'.word d q = s.vmm.word d q)
    (hnamed : status = 0 → ∀ q ∈ s.pager.named r req s.vmm, s.pager.Covers q) :
    Inv r d ⟨σ', pg', s.record r req status σ'⟩ :=
  h.next hdirs hcur hdir hregion hrange (fun q hq => hhere q ((hcovers q).1 hq))
    (fun q hq => .inl ((hcovers q).1 hq)) fun q hq hout hp =>
      have hnot : ¬ s.pager.Covers q := fun hin => hout ((hcovers q).2 hin)
      ⟨hnot, hother q hq hnot hp, fun hn => hnot (hnamed hn.1 q hn.2)⟩

include h in
/-- A request that adds the pages `W` to the range. -/
theorem grown (ht : Touched s.vmm σ' (· = d) d W) (hcur : σ'.currentPgDir = s.vmm.currentPgDir)
    (hdir : (σ'.region r).pgDir = (s.vmm.region r).pgDir) (hregion : pg'.region = some r)
    (hrange : pg'.Below) (hcovers : ∀ q, pg'.Covers q ↔ s.pager.Covers q ∨ W q)
    (hnamed : ∀ q, q ∈ s.pager.named r req s.vmm ↔ W q) :
    Inv r d ⟨σ', pg', s.record r req 0 σ'⟩ := by
  refine h.next ht.dirs hcur hdir hregion hrange (fun q hq hlt => ?_) (fun q hq => ?_)
    fun q hq hout hp => ?_
  · by_cases hin : W q
    · exact ht.here q hin
    · rw [ht.other q hlt hin]
      exact h.here q (((hcovers q).1 hq).resolve_right hin)
  · exact ((hcovers q).1 hq).imp_right fun hin => ⟨rfl, (hnamed q).2 hin⟩
  · have hnot := fun hin => hout ((hcovers q).2 hin)
    exact ⟨fun hin => hnot (.inl hin), ht.other q hq fun hin => hnot (.inr hin),
      fun hn => hnot (.inr ((hnamed q).1 hn.2))⟩

include h in
/-- A request that changes pages of the range only. -/
theorem within (ht : Touched s.vmm σ' (· = d) d W) (hcur : σ'.currentPgDir = s.vmm.currentPgDir)
    (hdir : (σ'.region r).pgDir = (s.vmm.region r).pgDir) (hregion : pg'.region = some r)
    (hrange : pg'.Below) (hcovers : ∀ q, pg'.Covers q ↔ s.pager.Covers q)
    (hin : ∀ q, W q → s.pager.Covers q)
    (hnamed : status = 0 → ∀ q ∈ s.pager.named r req s.vmm, s.pager.Covers q) :
    Inv r d ⟨σ', pg', s.record r req status σ'⟩ := by
  refine h.kept ht.dirs hcur hdir hregion hrange hcovers (fun q hq hlt => ?_)
    (fun q hq hout _ => ht.other q hq fun hw => hout (hin q hw)) hnamed
  by_cases hw : W q
  · exact ht.here q hw
  · rw [ht.other q hlt hw]
    exact h.here q hq

include h in
/-- A request that changes nothing. -/
theorem idle (hnamed : status = 0 → ∀ q ∈ s.pager.named r req s.vmm, s.pager.Covers q) :
    Inv r d ⟨s.vmm, s.pager, s.record r req status s.vmm⟩ :=
  h.kept h.directories rfl rfl h.region h.range (fun _ => Iff.rfl) (fun q hq _ => h.here q hq)
    (fun _ _ _ _ => rfl) hnamed

include h in
/-- A request that fails, and has unmapped pages that are not of the range. -/
theorem undone (he : Emptied s.vmm σ' (· = d) d p m) (hs : SameDescriptors s.vmm σ')
    (hout : ∀ q, p ≤ q → q < p + m → ¬ s.pager.Covers q) :
    Inv r d ⟨σ', s.pager, s.record r req (-1) σ'⟩ := by
  refine h.kept he.dirs hs.currentPgDir (hs.pgDir r) h.region h.range (fun _ => Iff.rfl)
    (fun q hq hlt => ?_) (fun q hq _ hp => he.none q hq hp) fun h0 => absurd h0 (by decide)
  rw [he.other q hlt fun hin => hout q hin.1 hin.2 hq]
  exact h.here q hq

end Inv

/-! ### Requests -/

/-- What a handler answers, by its parts. -/
theorem answer_inj {reply reply' : PagerReply} {pg pg' : Pager} {σ σ' : Vmm}
    (h : some (reply, pg, σ) = some (reply', pg', σ')) : reply = reply' ∧ pg = pg' ∧ σ = σ' := by
  simpa using h

section Requests

open PagerOp

variable {reply : PagerReply} (h : Inv r d s) (hs : Spaces s.vmm (· = d))

include h hs in
theorem Inv.alloc (ht : req.type = .alloc) (hok : SupportsAlloc r s.pager req.pageCount s.vmm)
    (hrun : vmmPagerHandleAlloc r s.pager req s.vmm = some (reply, pg', σ')) :
    Inv r d ⟨σ', pg', s.record r req reply.status σ'⟩ := by
  obtain ⟨⟨va, σ₁⟩, hcall, hrun⟩ := Option.bind_eq_some_iff.1 hrun
  dsimp only at hrun
  have hnamed : s.pager.named r req s.vmm =
      List.range' (vmmBump r s.vmm / pageSize) req.pageCount := by rw [Pager.named, ht]
  rcases Nat.eq_zero_or_pos req.pageCount with h0 | hpos
  · obtain ⟨rfl, rfl⟩ := Prod.mk.inj (Option.some.inj ((if_pos h0).symm.trans hcall))
    obtain ⟨rfl, rfl, rfl⟩ := answer_inj hrun
    exact h.idle fun h0 => absurd h0 (by decide)
  obtain ⟨hbelow, hok⟩ := hok.resolve_left hpos.ne'
  have hcall := (if_neg hpos.ne').symm.trans hcall
  obtain ⟨m, hmn, hneed, ⟨rfl, ⟨σ₂, rfl, hsame, hfilled⟩, hall⟩ | ⟨rfl, hshort, hsame, hemptied⟩⟩ :=
    mapUnchecked_tried hs h.pgDir h.loaded hbelow hcall
  · have hmn : m = req.pageCount := by
      rcases hok with ⟨henough, -⟩ | ⟨hshort, hcut, -⟩
      · exact hall.resolve_right fun hc => absurd henough (Nat.not_le.2 hc.1)
      · exact hall.resolve_right fun hc => hcut hc.2
    rw [hmn] at hfilled hneed
    have hjoin : s.pager.Joins (vmmBump r s.vmm) req.pageCount :=
      (hok.resolve_right fun hc => absurd hneed (Nat.not_le.2 hc.1)).2
    have hle := hbelow.mapped le_rfl hneed hpos.ne'
    rw [if_neg (by simp only [pageSize, recursiveAddr, minusOne] at *; omega)] at hrun
    obtain ⟨rfl, rfl, rfl⟩ := answer_inj hrun
    obtain ⟨hrange, hcovers⟩ := hjoin.grow h.range
    have hmapped : Filled s.vmm (σ₂.setNextFreeVa r (u32 (vmmBump r s.vmm + req.pageCount * pageSize)))
        (· = d) d (vmmBump r s.vmm / pageSize) req.pageCount := (h.pgDir ▸ hfilled).congr rfl
    refine h.grown hmapped.touched hsame.currentPgDir (pgDir_setNextFreeVa.trans (hsame.pgDir r))
      h.region hrange hcovers fun q => ?_
    rw [hnamed, List.mem_range'_1]
  · rw [if_pos rfl] at hrun
    obtain ⟨rfl, rfl, rfl⟩ := answer_inj hrun
    obtain ⟨-, -, hout⟩ := hok.resolve_left fun hc => absurd hc.1 (Nat.not_le.2 hshort)
    refine h.undone (h.pgDir ▸ hemptied) hsame fun q hlo hhi => ?_
    obtain ⟨k, rfl⟩ := Nat.exists_eq_add_of_le hlo
    exact hout k (by omega) ((pagesNeeded_mono _ _ (by omega : k + 1 ≤ m)).trans hneed)

include h in
theorem Inv.free (ht : req.type = .free) (hok : SupportsFree s.pager req.virtualOffset req.pageCount)
    (hrun : vmmPagerHandleFree r s.pager req s.vmm = some (reply, pg', σ')) :
    Inv r d ⟨σ', pg', s.record r req reply.status σ'⟩ := by
  have hnamed : s.pager.named r req s.vmm = [] := by rw [Pager.named, ht]
  rw [vmmPagerHandleFree] at hrun
  split at hrun
  · obtain ⟨rfl, rfl, rfl⟩ := answer_inj hrun
    exact h.idle fun h0 => absurd h0 (by decide)
  · next hle =>
    obtain ⟨σ₁, hcall, hrun⟩ := Option.bind_eq_some_iff.1 hrun
    obtain ⟨rfl, rfl, rfl⟩ := answer_inj hrun
    rcases Nat.eq_zero_or_pos req.pageCount with h0 | hpos
    · rw [h0] at hcall ⊢
      obtain rfl := Option.some.inj hcall
      exact h.kept h.directories rfl rfl h.region h.range (fun _ => Iff.rfl)
        (fun q hq _ => h.here q hq) (fun _ _ _ _ => rfl) fun _ q hq => absurd hq (by simp [hnamed])
    · have hlast := (hok.resolve_left hle).resolve_left hpos.ne'
      have hsize : s.pager.sizePages ≠ 0 := by omega
      obtain ⟨σ₂, hfree, hc, -⟩ := vmmFreeFrom_loaded h.directories h.pgDir h.loaded
        (h.range.target_le hsize (by omega) :
          s.pager.target req.virtualOffset + (0 + req.pageCount) * pageSize ≤ recursiveAddr)
      obtain rfl := Option.some.inj (hcall.symm.trans hfree)
      rw [h.pgDir, hlast, Nat.add_zero] at hc
      have hword := fun q => hc.word d q rfl
      have hpages : ∀ q, s.pager.Covers q ↔
          (s.pager.baseVa / pageSize ≤ q ∧
            q < s.pager.baseVa / pageSize + (s.pager.sizePages - req.pageCount)) ∨
          s.pager.baseVa / pageSize + (s.pager.sizePages - req.pageCount) ≤ q ∧
            q < s.pager.baseVa / pageSize + (s.pager.sizePages - req.pageCount) + req.pageCount := by
        intro q
        rw [Pager.Covers]
        omega
      refine h.next (hc.directories h.directories) hc.same.currentPgDir (hc.same.pgDir r) h.region
        (fun _ => ⟨(h.range hsize).1, le_trans ?_ (h.range hsize).2⟩) (fun q hq hlt => ?_)
        (fun q hq => .inl ((hpages q).2 (.inl hq))) fun q hlt hout hp => ?_
      · exact Nat.add_le_add_left (Nat.mul_le_mul_right _ (Nat.sub_le _ _)) _
      · rw [hword q hlt, if_neg fun hin => absurd hq.2 (Nat.not_lt.2 hin.2.1)]
        exact h.here q ((hpages q).2 (.inl hq))
      · have hkept : ¬ (d = d ∧ s.pager.baseVa / pageSize + (s.pager.sizePages - req.pageCount) ≤ q ∧
            q < s.pager.baseVa / pageSize + (s.pager.sizePages - req.pageCount) + req.pageCount) :=
          fun hin => by
            rw [hword q hlt, if_pos hin, present_zero] at hp
            exact absurd hp (by simp)
        refine ⟨fun hq => ((hpages q).1 hq).elim hout fun hin => hkept ⟨rfl, hin⟩, ?_,
          fun hn => absurd hn.2 (by simp [hnamed])⟩
        rw [hword q hlt, if_neg hkept]

theorem mem_rangeAddrs {a : ℕ} : a ∈ rangeAddrs va i n ↔ ∃ j, i ≤ j ∧ j < i + n ∧ va + j * pageSize = a := by
  simp only [rangeAddrs, List.mem_map, List.mem_range'_1, and_assoc]

theorem pageOf_rangeAddrs :
    PageOf (rangeAddrs va 0 n) q ↔ va / pageSize ≤ q ∧ q < va / pageSize + n := by
  constructor
  · rintro ⟨a, ha, rfl⟩
    obtain ⟨j, -, hj, rfl⟩ := mem_rangeAddrs.1 ha
    rw [page_div]
    omega
  · rintro ⟨hlo, hhi⟩
    obtain ⟨j, rfl⟩ := Nat.exists_eq_add_of_le hlo
    exact ⟨va + j * pageSize, mem_rangeAddrs.2 ⟨j, Nat.zero_le _, by omega, rfl⟩, page_div va j⟩

/-- A page that is mapped before the loop fails has its page table by then. -/
theorem pageOf_take {addrs : List ℕ} (hq : PageOf (addrs.take k) q) : ∃ j a, addrs[j]? = some a ∧
    a / pageSize = q ∧ ∀ table, tablesNeeded table (addrs.take (j + 1)) ≤
      tablesNeeded table (addrs.take k) := by
  obtain ⟨a, ha, haq⟩ := hq
  obtain ⟨j, hj, hget⟩ := List.getElem_of_mem ha
  have hjk : j < k := (List.length_take_le ..).trans_lt' hj
  refine ⟨j, a, ?_, haq, fun table => ?_⟩
  · rw [← hget, List.getElem_take]
    exact List.getElem?_eq_getElem _
  · have hmin : min (j + 1) k = j + 1 := Nat.min_eq_left hjk
    rw [← hmin, ← List.take_take]
    exact tablesNeeded_take_le _ _ _

include h hs in
/-- A loop of `vmm_map` that is supported: it maps all, or pages of the range only. -/
theorem Inv.maps {flags : ℕ} {pages : List (ℕ × ℕ)} {fits : Prop}
    (hok : SupportsMaps r s.pager (pages.map Prod.fst) fits s.vmm)
    (hrun : mapEach r flags pages s.vmm = some (status, σ')) : SameDescriptors s.vmm σ' ∧
      (status = 0 ∧ fits ∧ Touched s.vmm σ' (· = d) d (PageOf (pages.map Prod.fst)) ∨
        status = -1 ∧ ∃ W : ℕ → Prop, Touched s.vmm σ' (· = d) d W ∧ ∀ q, W q → s.pager.Covers q) := by
  obtain ⟨hbelow, hok⟩ := hok
  obtain ⟨status₁, σ₁, k, hcall, hsame, ht, hneed, hend⟩ : ∃ status₁ σ₁ k,
      mapEach r flags pages s.vmm = some (status₁, σ₁) ∧ _ :=
    mapEach_loaded hs h.pgDir h.loaded hbelow
  obtain ⟨rfl, rfl⟩ := Prod.mk.inj (Option.some.inj (hcall.symm.trans hrun))
  have ht' : Touched s.vmm σ₁ (· = d) d (PageOf ((pages.map Prod.fst).take k)) := h.pgDir ▸ ht
  refine ⟨hsame, ?_⟩
  rcases hend with ⟨rfl, rfl⟩ | ⟨rfl, -, hshort⟩
  · have hall : (pages.map Prod.fst).take pages.length = pages.map Prod.fst :=
      List.take_of_length_le (List.length_map ..).le
    rw [hall] at ht' hneed
    exact .inl ⟨rfl, (hok.resolve_right fun hc => absurd hneed (Nat.not_le.2 hc.1)).2, ht'⟩
  · obtain ⟨-, hin⟩ := hok.resolve_left fun hc =>
      absurd (hshort.trans_le (tablesNeeded_take_le _ _ _)) (Nat.not_lt.2 hc.1)
    refine .inr ⟨rfl, _, ht', fun q hq => ?_⟩
    obtain ⟨j, a, hget, rfl, hle⟩ := pageOf_take hq
    exact hin j a hget ((hle _).trans hneed)

/-- A page without a page table is below the recursive window. -/
theorem page_lt_of_absent {σ : Vmm} (hdirs : Directories σ (· = d)) (hq : q < 2 ^ 20)
    (habs : σ.hasTable d (q / pageEntries) = false) : q < windowPage := by
  have hself : σ.hasTable d recursivePde = true := (tableLink_eq_some.1 (hdirs.self d rfl)).1
  have hne : q / pageEntries ≠ recursivePde := fun he => by
    rw [he, hself] at habs
    exact absurd habs (by simp)
  simp only [windowPage, recursivePde, pageEntries] at *
  omega

include h hs in
theorem Inv.mapPhysical_inRange (hin : s.pager.InRange req.virtualOffset)
    (hnamed : s.pager.named r req s.vmm =
      List.range' (s.pager.target req.virtualOffset / pageSize) req.pageCount)
    (hok : s.pager.target req.virtualOffset / pageSize + req.pageCount ≤
        s.pager.baseVa / pageSize + s.pager.sizePages ∨
      (s.vmm.freePages = [] ∧ s.vmm.hasTable (s.vmm.region r).pgDir
        ((s.pager.baseVa / pageSize + s.pager.sizePages) / pageEntries) = false))
    (hrun : vmmPagerRemapFrom r (s.pager.target req.virtualOffset) req.targetPa req.flags
      req.pageCount 0 s.vmm = some (status, σ')) :
    Inv r d ⟨σ', s.pager, s.record r req status σ'⟩ := by
  obtain ⟨hlo, hhi⟩ := hin
  have hsize : s.pager.sizePages ≠ 0 := fun h0 => by
    rw [Pager.stop, h0] at hhi
    exact absurd (hlo.trans_lt hhi) (Nat.not_lt.2 (Nat.mod_le _ _))
  have hfirst : s.pager.baseVa / pageSize ≤ s.pager.target req.virtualOffset / pageSize :=
    Nat.div_le_div_right hlo
  have hlast : s.pager.target req.virtualOffset / pageSize ≤
      s.pager.baseVa / pageSize + s.pager.sizePages := by
    rw [← page_div]
    refine Nat.div_le_div_right (hhi.le.trans ((Nat.mod_le _ _).trans ?_))
    exact Nat.add_le_add_left (Nat.mod_le _ _) _
  -- the pages of the range from the target on
  have hrefill : ∀ k m, s.pager.target req.virtualOffset / pageSize + k ≤
      s.pager.baseVa / pageSize + s.pager.sizePages → ∃ σ₁, vmmPagerRemapFrom r
        (s.pager.target req.virtualOffset) req.targetPa req.flags (k + m) 0 s.vmm =
        vmmPagerRemapFrom r (s.pager.target req.virtualOffset) req.targetPa req.flags m k σ₁ ∧
      Spaces σ₁ (· = d) ∧ SameDescriptors s.vmm σ₁ ∧ σ₁.freePages = s.vmm.freePages ∧
      σ₁.mem d = s.vmm.mem d ∧
      Filled s.vmm σ₁ (· = d) d (s.pager.target req.virtualOffset / pageSize) k := by
    intro k m hk
    have hfill : ∃ σ₁, vmmPagerRemapFrom r (s.pager.target req.virtualOffset) req.targetPa req.flags
        (k + m) 0 s.vmm = _ ∧ _ := vmmPagerRemapFrom_present hs h.pgDir h.loaded
      (h.range.target_le hsize hk) (fun q hqlo hqhi => h.pgDir ▸ h.here q ⟨by omega, by omega⟩) m
    rwa [h.pgDir, Nat.zero_add, Nat.add_zero] at hfill
  have hwithin : ∀ {k σ₁} {status : ℤ}, SameDescriptors s.vmm σ₁ →
      Filled s.vmm σ₁ (· = d) d (s.pager.target req.virtualOffset / pageSize) k →
      s.pager.target req.virtualOffset / pageSize + k ≤
        s.pager.baseVa / pageSize + s.pager.sizePages → (status = 0 → req.pageCount ≤ k) →
      Inv r d ⟨σ₁, s.pager, s.record r req status σ₁⟩ := fun hsame hf hk hst =>
    h.within hf.touched hsame.currentPgDir (hsame.pgDir r) h.region h.range (fun _ => Iff.rfl)
      (fun q hq => ⟨by omega, by omega⟩) fun h0 q hq => by
        rw [hnamed, List.mem_range'_1] at hq
        have := hst h0
        exact ⟨by omega, by omega⟩
  by_cases hn : s.pager.target req.virtualOffset / pageSize + req.pageCount ≤
      s.pager.baseVa / pageSize + s.pager.sizePages
  · obtain ⟨σ₁, hcall, -, hsame, -, -, hf⟩ := hrefill req.pageCount 0 hn
    obtain ⟨rfl, rfl⟩ := Prod.mk.inj (Option.some.inj (hcall.symm.trans hrun))
    exact hwithin hsame hf hn fun _ => le_rfl
  · obtain ⟨hempty, habs⟩ := hok.resolve_left hn
    obtain ⟨k, hk⟩ := Nat.exists_eq_add_of_le hlast
    obtain ⟨m, hm⟩ : ∃ m, req.pageCount = k + m := ⟨req.pageCount - k, by omega⟩
    obtain ⟨σ₁, hcall, hspaces, hsame, hfree, hmem, hf⟩ := hrefill k m hk.ge
    have hreg : (σ₁.region r).pgDir = d := (hsame.pgDir r).trans h.pgDir
    have hsmall : s.pager.baseVa / pageSize + s.pager.sizePages < windowPage := by
      refine page_lt_of_absent h.directories ?_ (h.pgDir ▸ habs)
      have := (h.range hsize).2
      simp only [recursiveAddr, pageSize] at *
      omega
    have hstop : StopsAt σ₁ σ₁ (σ₁.region r).pgDir (s.pager.target req.virtualOffset) req.targetPa
        req.flags m k 0 := by
      refine ⟨by omega, by omega, hfree.trans hempty, ?_, fun j hj => absurd hj (Nat.not_lt_zero j),
        fun _ _ _ => rfl⟩
      rw [hreg, Nat.add_zero, ← hk, Vmm.hasTable, hmem]
      exact h.pgDir ▸ habs
    rw [hm, hcall, vmmPagerRemapFrom_unchanged hspaces hreg (h.loaded.of_same hsame) hstop] at hrun
    obtain ⟨rfl, rfl⟩ := Prod.mk.inj (Option.some.inj hrun)
    exact hwithin hsame hf hk.ge fun h0 => absurd h0 (by decide)

include h hs in
theorem Inv.mapPhysical (ht : req.type = .mapPhysical)
    (hok : SupportsPhysical r s.pager req.virtualOffset req.pageCount s.vmm)
    (hrun : vmmPagerHandleMapPhysical r s.pager req s.vmm = some (reply, pg', σ')) :
    Inv r d ⟨σ', pg', s.record r req reply.status σ'⟩ := by
  have hnamed : s.pager.named r req s.vmm = List.range' ((if s.pager.InRange req.virtualOffset
      then s.pager.target req.virtualOffset else vmmBump r s.vmm) / pageSize) req.pageCount := by
    rw [Pager.named, ht]
  have houtside : (s.pager.target req.virtualOffset < s.pager.baseVa ∨
      s.pager.stop ≤ s.pager.target req.virtualOffset) ↔ ¬ s.pager.InRange req.virtualOffset := by
    rw [Pager.InRange]
    omega
  rw [SupportsPhysical] at hok
  by_cases hin : s.pager.InRange req.virtualOffset
  · rw [if_pos hin] at hok hnamed
    obtain ⟨⟨status, σ₁⟩, hcall, hrun⟩ := Option.bind_eq_some_iff.1
      ((if_neg fun hout => houtside.1 hout hin).symm.trans hrun)
    obtain ⟨rfl, rfl, rfl⟩ := answer_inj hrun
    exact h.mapPhysical_inRange hs hin hnamed hok hcall
  · rw [if_neg hin] at hok hnamed
    obtain ⟨⟨status, σ₁⟩, hcall, hrun⟩ := Option.bind_eq_some_iff.1
      ((if_pos (houtside.2 hin)).symm.trans hrun)
    dsimp only at hrun
    rcases Nat.eq_zero_or_pos req.pageCount with h0 | hpos
    · rw [h0] at hcall hnamed hrun
      obtain ⟨rfl, rfl⟩ := Prod.mk.inj (Option.some.inj hcall)
      rw [if_neg (by simp)] at hrun
      obtain ⟨rfl, rfl, rfl⟩ := answer_inj hrun
      obtain ⟨hrange, hcovers⟩ : (s.pager.grow (vmmBump r s.vmm) 0).Below ∧ _ :=
        Pager.grow_zero h.range
      exact h.kept (h.directories.congr fun _ _ => rfl) rfl pgDir_setNextFreeVa h.region hrange hcovers
        (fun q hq _ => h.here q hq) (fun _ _ _ _ => rfl) fun _ q hq => absurd hq (by simp [hnamed])
    · have hcall := (vmmMapRangeFrom_eq ..).symm.trans hcall
      obtain ⟨hsame, hcase⟩ := h.maps hs (by rw [rangeMaps_addrs]; exact hok.resolve_left hpos.ne') hcall
      rw [rangeMaps_addrs] at hcase
      rcases hcase with ⟨rfl, hjoin, ht⟩ | ⟨rfl, W, ht, hin⟩
      · rw [if_neg (by simp)] at hrun
        obtain ⟨rfl, rfl, rfl⟩ := answer_inj hrun
        obtain ⟨hrange, hcovers⟩ := hjoin.grow h.range
        refine h.grown (ht.congr rfl) hsame.currentPgDir
          (pgDir_setNextFreeVa.trans (hsame.pgDir r)) h.region hrange
          (fun q => (hcovers q).trans (or_congr_right pageOf_rangeAddrs.symm)) fun q => ?_
        rw [hnamed, List.mem_range'_1, pageOf_rangeAddrs]
      · rw [if_pos (by decide)] at hrun
        obtain ⟨rfl, rfl, rfl⟩ := answer_inj hrun
        exact h.within ht hsame.currentPgDir (hsame.pgDir r) h.region h.range (fun _ => Iff.rfl) hin
          fun h0 => absurd h0 (by decide)

theorem pageOf_sharedAddrs : PageOf (sharedAddrs vaA vaB 0 n) q ↔
    (vaA / pageSize ≤ q ∧ q < vaA / pageSize + n) ∨ vaB / pageSize ≤ q ∧ q < vaB / pageSize + n := by
  have hmem : ∀ a, a ∈ sharedAddrs vaA vaB 0 n ↔ a ∈ rangeAddrs vaA 0 n ∨ a ∈ rangeAddrs vaB 0 n := by
    intro a
    simp only [sharedAddrs, rangeAddrs, List.mem_flatMap, List.mem_map, List.mem_cons,
      List.not_mem_nil, or_false]
    constructor
    · rintro ⟨j, hj, rfl | rfl⟩
      · exact .inl ⟨j, hj, rfl⟩
      · exact .inr ⟨j, hj, rfl⟩
    · rintro (⟨j, hj, rfl⟩ | ⟨j, hj, rfl⟩)
      · exact ⟨j, hj, .inl rfl⟩
      · exact ⟨j, hj, .inr rfl⟩
  rw [← pageOf_rangeAddrs, ← pageOf_rangeAddrs]
  simp only [PageOf, hmem, or_and_right, exists_or]

include h hs in
/-- The first `vmm_map` finds no page for a page table. -/
theorem Inv.vmmMap_absent {flags pa : ℕ} (hva : va < 2 ^ 32) (hempty : s.vmm.freePages = [])
    (habs : s.vmm.hasTable (s.vmm.region r).pgDir (va / pageSize / pageEntries) = false) :
    vmmMap r va pa flags s.vmm = some (-1, s.vmm) := by
  have hpage : va / pageSize < windowPage := by
    refine page_lt_of_absent h.directories ?_ (h.pgDir ▸ habs)
    simp only [pageSize]
    omega
  have hlt : va < recursiveAddr := by
    simp only [windowPage, recursivePde, pageEntries, pageSize, recursiveAddr] at *
    omega
  rcases vmmMap_loaded hs h.pgDir h.loaded hlt pa flags with ⟨-, -, hrun⟩ | ⟨σ₁, -, hm⟩
  · exact hrun
  · rcases hm.cases with ⟨htab, -⟩ | ⟨-, t, hcons, -⟩
    · exact absurd (habs.symm.trans htab) (by simp)
    · exact absurd (hempty.symm.trans hcons) (by simp)

include h hs in
theorem Inv.mapShared (ht : req.type = .mapShared) (hok : SupportsShared r s.pager req s.vmm)
    (hrun : vmmPagerHandleMapShared r s.pager req s.vmm = some (reply, pg', σ')) :
    Inv r d ⟨σ', pg', s.record r req reply.status σ'⟩ := by
  rw [vmmPagerHandleMapShared] at hrun
  split at hrun
  · obtain ⟨rfl, rfl, rfl⟩ := answer_inj hrun
    exact h.idle fun h0 => absurd h0 (by decide)
  · next b hb =>
    have hok := hok b hb
    obtain ⟨⟨status, σ₁⟩, hcall, hrun⟩ := Option.bind_eq_some_iff.1 hrun
    dsimp only at hrun
    rcases Nat.eq_zero_or_pos req.pageCount with h0 | hpos
    · have hnamed : s.pager.named r req s.vmm = [] := by simp [Pager.named, ht, hb, h0]
      rw [h0] at hcall hrun
      obtain ⟨rfl, rfl⟩ := Prod.mk.inj (Option.some.inj hcall)
      rw [if_neg (by decide)] at hrun
      obtain ⟨rfl, rfl, rfl⟩ := answer_inj hrun
      obtain ⟨hrange, hcovers⟩ : (s.pager.grow (s.pager.target req.virtualOffset) 0).Below ∧ _ :=
        Pager.grow_zero h.range
      exact h.kept h.directories rfl rfl h.region hrange hcovers (fun q hq _ => h.here q hq)
        (fun _ _ _ _ => rfl) fun _ q hq => absurd hq (by simp [hnamed])
    · rcases hok.resolve_left hpos.ne' with ⟨hempty, habs⟩ | ⟨hdir, hok⟩
      · have hfail : vmmMapShared r b (s.pager.target req.virtualOffset) (req.sharedVa b s.vmm)
            req.targetPa req.pageCount req.flags s.vmm = some (-1, s.vmm) := by
          obtain ⟨n, hn⟩ := Nat.exists_eq_succ_of_ne_zero hpos.ne'
          have hlt : s.pager.target req.virtualOffset < 2 ^ 32 := u32_lt _
          rw [hn, vmmMapShared, vmmMapSharedFrom, Nat.zero_mul, Nat.add_zero, u32_of_lt hlt,
            h.vmmMap_absent hs hlt hempty habs]
          rfl
        obtain ⟨rfl, rfl⟩ := Prod.mk.inj (Option.some.inj (hfail.symm.trans hcall))
        rw [if_pos (by decide)] at hrun
        obtain ⟨rfl, rfl, rfl⟩ := answer_inj hrun
        exact h.idle fun h0 => absurd h0 (by decide)
      · have hnamed : s.pager.named r req s.vmm =
            List.range' (s.pager.target req.virtualOffset / pageSize) req.pageCount ++
              List.range' (req.sharedVa b s.vmm / pageSize) req.pageCount := by
          simp only [Pager.named, ht, hb, if_pos hdir]
        have hcall : mapEach r req.flags (sharedMaps (s.pager.target req.virtualOffset)
            (req.sharedVa b s.vmm) req.targetPa 0 req.pageCount) s.vmm = some (status, σ₁) :=
          (vmmMapSharedFrom_eq hdir).symm.trans hcall
        obtain ⟨hsame, hcase⟩ := h.maps hs (by rw [sharedMaps_addrs]; exact hok) hcall
        rw [sharedMaps_addrs] at hcase
        rcases hcase with ⟨rfl, hjoin, htouched⟩ | ⟨rfl, W, htouched, hin⟩
        · rw [if_neg (by decide)] at hrun
          obtain ⟨rfl, rfl, rfl⟩ := answer_inj hrun
          obtain ⟨hrange, hcovers⟩ := hjoin.grow h.range
          refine h.grown htouched hsame.currentPgDir (hsame.pgDir r) h.region hrange
            (fun q => (hcovers q).trans (or_congr_right pageOf_sharedAddrs.symm)) fun q => ?_
          rw [hnamed, List.mem_append, List.mem_range'_1, List.mem_range'_1, pageOf_sharedAddrs]
        · rw [if_pos (by decide)] at hrun
          obtain ⟨rfl, rfl, rfl⟩ := answer_inj hrun
          exact h.within htouched hsame.currentPgDir (hsame.pgDir r) h.region h.range
            (fun _ => Iff.rfl) hin fun h0 => absurd h0 (by decide)

include h hs in
theorem Inv.mapAnon (ht : req.type = .mapAnon) (hok : SupportsAnon r s.pager req.pageCount s.vmm)
    (hrun : vmmPagerHandleMapAnon r s.pager req s.vmm = some (reply, pg', σ')) :
    Inv r d ⟨σ', pg', s.record r req reply.status σ'⟩ := by
  obtain ⟨⟨va, σ₁⟩, hcall, hrun⟩ := Option.bind_eq_some_iff.1 hrun
  obtain ⟨found, hfind, hloop⟩ := Option.bind_eq_some_iff.1 hcall
  dsimp only at hrun
  rcases eq_or_ne found 0 with rfl | hfound
  · rw [if_pos rfl] at hloop
    obtain ⟨rfl, rfl⟩ := Prod.mk.inj (Option.some.inj hloop)
    rw [if_pos rfl] at hrun
    obtain ⟨rfl, rfl, rfl⟩ := answer_inj hrun
    exact h.idle fun h0 => absurd h0 (by decide)
  · obtain ⟨hbelow, hjoin⟩ := hok found hfind hfound
    have hnamed : s.pager.named r req s.vmm = List.range' (found / pageSize) req.pageCount := by
      simp only [Pager.named, ht, hfind]
    obtain ⟨v, σ₂, hres, hsame, m, hmn, hneed, ⟨rfl, rfl, hfilled⟩ | ⟨rfl, -, hemptied⟩⟩ :=
      vmmMapAnonymous_tried hs h.pgDir h.loaded hbelow hfind hfound req.flags
    · obtain ⟨rfl, rfl⟩ := Prod.mk.inj (Option.some.inj (hres.symm.trans hcall))
      rw [if_neg hfound] at hrun
      obtain ⟨rfl, rfl, rfl⟩ := answer_inj hrun
      have hmapped := (h.pgDir ▸ hfilled : Filled s.vmm σ₂ (· = d) d _ _).touched
      rcases hjoin hneed with h0 | hjoin
      · rw [h0] at hmapped hnamed ⊢
        obtain ⟨hrange, hcovers⟩ : (s.pager.grow v 0).Below ∧ _ := Pager.grow_zero h.range
        exact h.within hmapped hsame.currentPgDir (hsame.pgDir r) h.region hrange hcovers
          (fun q hq => absurd hq (by omega)) fun _ q hq => absurd hq (by simp [hnamed])
      · obtain ⟨hrange, hcovers⟩ := hjoin.grow h.range
        refine h.grown hmapped hsame.currentPgDir (hsame.pgDir r) h.region hrange hcovers fun q => ?_
        rw [hnamed, List.mem_range'_1]
    · obtain ⟨rfl, rfl⟩ := Prod.mk.inj (Option.some.inj (hres.symm.trans hcall))
      rw [if_pos rfl] at hrun
      obtain ⟨rfl, rfl, rfl⟩ := answer_inj hrun
      obtain ⟨-, hrange⟩ := vmmFindFreeRange_spec h.directories h.pgDir h.loaded hfind hfound
      refine h.undone (h.pgDir ▸ hemptied) hsame fun q hlo hhi hq => ?_
      have hvacant := hrange.vacant q hlo (by omega)
      rw [h.pgDir, h.here q hq] at hvacant
      exact absurd hvacant (by simp)

include h hs in
/-- Another user of the region. -/
theorem Inv.other {call : AllocCall} (hok : SupportsOther r s.pager call s.vmm)
    (hrun : call.run r s.vmm = some (m, σ')) : Inv r d { s with vmm := σ' } := by
  cases htarget : call.target r s.vmm with
  | none => exact absurd ((AllocCall.run_of_target htarget).symm.trans hrun) (by simp)
  | some target =>
    cases target with
    | none =>
      obtain ⟨-, rfl⟩ := Prod.mk.inj
        (Option.some.inj ((AllocCall.run_of_refused htarget).symm.trans hrun))
      exact h
    | some va =>
      obtain ⟨hbelow, hout⟩ := hok va htarget
      obtain ⟨k, hk, hneed, ha⟩ := AllocCall.around hs h.pgDir h.loaded htarget hbelow hrun
      have hword : ∀ q, s.pager.Covers q → σ'.word d q = s.vmm.word d q := fun q hq => by
        rw [← h.pgDir]
        refine ha.other q (h.covers_lt hq) fun ⟨hlo, hhi⟩ => ?_
        obtain ⟨j, rfl⟩ := Nat.exists_eq_add_of_le hlo
        exact hout j (by omega) ((pagesNeeded_mono _ _ (by omega : j + 1 ≤ k)).trans hneed) hq
      refine ⟨ha.dirs, ha.pgDir.trans h.pgDir, ?_, h.region, h.range, fun q hq => ?_, fun q => ?_⟩
      · rw [Loaded, ha.currentPgDir, ha.pgDir]
        exact h.loaded
      · rw [hword q hq]
        exact h.here q hq
      · rw [h.mapped q]
        refine ite_congr rfl (fun hq => ?_) fun _ => rfl
        rw [hword q hq]

include h hs in
theorem Inv.exec {op : PagerOp} (hok : op.Supported r s) (hrun : op.exec r s = some s') :
    Inv r d s' := by
  cases op with
  | other call =>
    obtain ⟨⟨v, σ'⟩, hcall, rfl⟩ := Option.map_eq_some_iff.1 hrun
    exact h.other hs hok hcall
  | request req htype =>
    obtain ⟨⟨reply, pg', σ'⟩, hcall, rfl⟩ := Option.map_eq_some_iff.1 hrun
    rw [vmmPagerHandleRequest, h.region] at hcall
    dsimp only at hcall
    simp only [Supported] at hok
    rcases ht : req.type
    case alloc =>
      rw [ht] at hok hcall
      exact h.alloc hs ht hok hcall
    case free =>
      rw [ht] at hok hcall
      exact h.free ht hok hcall
    case mapPhysical =>
      rw [ht] at hok hcall
      exact h.mapPhysical hs ht hok hcall
    case mapShared =>
      rw [ht] at hok hcall
      exact h.mapShared hs ht hok hcall
    case mapAnon =>
      rw [ht] at hok hcall
      exact h.mapAnon hs ht hok hcall
    all_goals
      rw [ht] at hok
      exact hok.elim

end Requests

/-! ### Runs -/

theorem Start.inv (h : s.Start r d) : Inv r d s := by
  have hnone : ∀ q, ¬ s.pager.Covers q := fun q hq => by
    rw [h.pager] at hq
    exact hq.size_pos rfl
  refine ⟨h.directories, h.pgDir, h.loaded, by rw [h.pager]; rfl, fun h0 => ?_,
    fun q hq => absurd hq (hnone q), fun q => ?_⟩
  · rw [h.pager] at h0
    exact absurd rfl h0
  · rw [h.mapped, if_neg (hnone q)]

theorem inv (h : Reach (Start r d) (SupportedStep r d) s) : Inv r d s := by
  refine h.invariant (fun s hs => hs.inv) fun s op s' _ ih hstep => ?_
  obtain ⟨σ, hi, hok, hrun⟩ := hstep
  obtain ⟨hinv, hs⟩ := ih.interfere hi
  exact hinv.exec hs hok hrun

/-- What `vmm_free` gives back for a range whose pages are mapped, but for a frame `0`. -/
theorem count_freedPages {word : ℕ → ℕ} {mapped : ℕ → Option ℕ} {off f : ℕ} (hf : f ≠ 0)
    (hmapped : ∀ q, p ≤ q → q < p + n →
      present (word q) = true ∧ mapped q = some (maskLow (word q) pageSize)) :
    (freedPages word off p n).count f = (List.range' p n).countP (mapped · = some f) := by
  rw [freedPages, List.count_reverse, List.count_filterMap]
  refine List.countP_congr fun q hq => ?_
  obtain ⟨hlo, hhi⟩ := List.mem_range'_1.1 hq
  obtain ⟨hp, hm⟩ := hmapped q hlo hhi
  rw [hm]
  by_cases hword : maskLow (word q) pageSize = f
  · simp [hp, hword, hf]
  · simp [hword]

theorem Inv.accounted (h : Inv r d s) : s.Accounted d := by
  refine ⟨h.isSome_iff, ?_⟩
  have hrun : vmmPagerDestroy s.pager s.vmm = if s.pager.baseVa ≠ 0 ∧ s.pager.sizePages > 0 then
      vmmFree r s.pager.baseVa s.pager.sizePages s.vmm else some s.vmm := by
    rw [vmmPagerDestroy, h.region]
  rcases Nat.eq_zero_or_pos s.pager.sizePages with h0 | hpos
  · have hnone : ∀ q, (s.mapped q).isSome ≠ true := fun q hq =>
      absurd h0 ((h.isSome_iff q).1 hq).size_pos
    rw [if_neg fun hc => absurd h0 hc.2.ne'] at hrun
    refine ⟨s.vmm, hrun, fun q _ => (if_neg (hnone q)).symm, [], List.nodup_nil, fun q => ?_,
      fun f _ => rfl⟩
    exact iff_of_false List.not_mem_nil (hnone q)
  · obtain ⟨hbase, hle⟩ := h.range hpos.ne'
    rw [if_pos ⟨hbase, hpos⟩] at hrun
    obtain ⟨σ', hfree, hc, hpages⟩ := vmmFreeFrom_loaded h.directories h.pgDir h.loaded
      (by rwa [Nat.zero_add] : s.pager.baseVa + (0 + s.pager.sizePages) * pageSize ≤ recursiveAddr)
    rw [h.pgDir, Nat.add_zero] at hc hpages
    have hmem : ∀ q, q ∈ List.range' (s.pager.baseVa / pageSize) s.pager.sizePages ↔
        (s.mapped q).isSome = true := fun q => List.mem_range'_1.trans (h.isSome_iff q).symm
    refine ⟨σ', hrun.trans hfree, fun q hq => ?_, _, List.nodup_range', hmem, fun f hf => ?_⟩
    · rw [hc.word d q rfl hq]
      refine if_congr ?_ rfl rfl
      rw [h.isSome_iff]
      exact and_iff_right rfl
    · rw [hpages, List.count_append, Nat.add_comm, count_freedPages hf fun q hlo hhi => ?_]
      have hq : s.pager.Covers q := ⟨hlo, hhi⟩
      exact ⟨h.here q hq, (h.mapped q).trans (if_pos hq)⟩

/-- **The pages that a pager has mapped are those of its range**, as long as every step adds
pages behind the range or takes them from its end. -/
theorem accounted_of_supported (h : Reach (Start r d) (SupportedStep r d) s) : s.Accounted d :=
  (inv h).accounted

/-- A new pager of a region without page tables, over three free pages. -/
def newPager : PagerRun :=
  ⟨loneRegion [0x2000, 0x3000, 0x4000], vmmPagerCreate 1, fun _ => none⟩

/-- The pager has allocated two pages. -/
def twoPages : Option PagerRun := (PagerOp.request (requestAt .alloc 0 2) (by decide)).exec 1 newPager

theorem newPager_start : newPager.Start 1 0x1000 ∧ Spaces newPager.vmm (· = 0x1000) := by
  obtain ⟨hs, hd⟩ := spaces_loneRegion [0x2000, 0x3000, 0x4000] (by decide)
  exact ⟨⟨hs.toDirectories, hd, rfl, rfl, rfl⟩, hs⟩

/-- Two pages, for which two pages and a page table are free. -/
theorem accounted_of_supported_two :
    ∃ s, twoPages = some s ∧ s.pager.sizePages = 2 ∧ s.Accounted 0x1000 := by
  obtain ⟨hstart, hs⟩ := newPager_start
  have hval : twoPages.map (·.pager.sizePages) = some 2 := by decide +kernel
  obtain ⟨s, hrun, hsize⟩ := Option.map_eq_some_iff.1 hval
  have hjoin : newPager.pager.Joins (vmmBump 1 newPager.vmm) 2 := by
    rw [Pager.Joins]
    decide
  have hok : PagerOp.SupportsAlloc 1 newPager.pager 2 newPager.vmm :=
    .inr ⟨triedBelow_of_le (by decide), .inl ⟨by decide, hjoin⟩⟩
  exact ⟨s, hrun, hsize, accounted_of_supported ((Reach.init hstart).step
    (.request (requestAt .alloc 0 2) (by decide)) ⟨newPager.vmm, .refl hs, hok, hrun⟩)⟩

theorem twoPages_spaces (h : twoPages = some s) : Spaces s.vmm (· = 0x1000) := by
  obtain ⟨hstart, hs⟩ := newPager_start
  have hval : (vmmAlloc 1 2 pageRw newPager.vmm).map Prod.fst = some userSpaceStart := by decide +kernel
  obtain ⟨⟨v, σ⟩, hcall, hv⟩ := Option.map_eq_some_iff.1 hval
  obtain rfl : v = userSpaceStart := hv
  rw [twoPages, PagerOp.exec] at h
  obtain ⟨⟨reply, pg, σ'⟩, hrun, rfl⟩ := Option.map_eq_some_iff.1 h
  have hrun : vmmPagerHandleAlloc 1 newPager.pager (requestAt .alloc 0 2) newPager.vmm = _ := hrun
  rw [vmmPagerHandleAlloc] at hrun
  obtain ⟨⟨v', σ₁⟩, hcall', hrun⟩ := Option.bind_eq_some_iff.1 hrun
  obtain ⟨rfl, rfl⟩ := Prod.mk.inj (Option.some.inj (hcall.symm.trans hcall'))
  dsimp only at hrun
  rw [if_neg (by decide)] at hrun
  obtain ⟨-, -, rfl⟩ := answer_inj hrun
  exact vmmAlloc_spaces hs hstart.pgDir hstart.loaded (by decide) two_ne_zero hcall (by decide)

/-- The first of two pages is freed: the range is the one that is not mapped any more. -/
theorem not_accounted : ¬ ∀ (r d : ℕ) (s : PagerRun),
    Reach (Start r d) (Step r d) s → s.Accounted d := by
  intro hall
  obtain ⟨hstart, hs⟩ := newPager_start
  have hval : (twoPages.bind ((PagerOp.request (requestAt .free 0 1) (by decide)).exec 1)).map
      (fun s => ((s.mapped (userSpaceStart / pageSize + 1)).isSome,
        decide (s.pager.Covers (userSpaceStart / pageSize + 1)))) = some (true, false) := by
    decide +kernel
  obtain ⟨s₂, hrun, hpages⟩ := Option.map_eq_some_iff.1 hval
  obtain ⟨s₁, halloc, hfree⟩ := Option.bind_eq_some_iff.1 hrun
  obtain ⟨hmapped, hcovers⟩ := Prod.mk.inj hpages
  have hreach : Reach (Start 1 0x1000) (Step 1 0x1000) s₂ :=
    ((Reach.init hstart).step _ ⟨newPager.vmm, .refl hs, halloc⟩).step _
      ⟨s₁.vmm, .refl (twoPages_spaces halloc), hfree⟩
  exact of_decide_eq_false hcovers (((hall _ _ _ hreach).pages _).1 hmapped)

end PagerRun

end Flopperating
