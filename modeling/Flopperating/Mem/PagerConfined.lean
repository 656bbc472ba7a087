/-
# Requests and the range of a pager

A request names pages by an offset and a count, and each handler tests them in its
own way, with products and sums of 32 bits: `vmm_pager_handle_free` compares the
count and not the offset, `vmm_pager_handle_map_physical` only looks at the first
page, and the others let an offset or a count through that wraps.

`KeepsToRange` is what a request may do: it changes, reports and frees nothing outside
the range of its pager, and one that is not inside the range is refused.  The main
result says for which requests the handlers do that.
-/

import Flopperating.Mem.Pager
import Flopperating.Mem.VmmIsolation

namespace Flopperating

open TwoLevel

namespace Pager

/-- The pages of the range. -/
def Covers (d : Pager) (p : ℕ) : Prop :=
  d.baseVa / pageSize ≤ p ∧ p < d.baseVa / pageSize + d.sizePages

/-- The request asks for pages of the range only; `QUERY` asks for one. -/
def Contains (d : Pager) (req : PagerRequest) : Prop :=
  req.virtualOffset + (if req.type = .query then 1 else req.pageCount) ≤ d.sizePages

instance (d : Pager) (p : ℕ) : Decidable (d.Covers p) := inferInstanceAs (Decidable (_ ∧ _))

instance (d : Pager) (req : PagerRequest) : Decidable (d.Contains req) :=
  inferInstanceAs (Decidable (_ ≤ _))

end Pager

/-- A pager of the current region, in a machine with the address spaces `dirs`: its range
lies below the recursive window. -/
structure PagerOf (σ : Vmm) (dirs : ℕ → Prop) (r : ℕ) (d : Pager) : Prop where
  spaces : Spaces σ dirs
  dir : dirs (σ.region r).pgDir
  current : Loaded σ r
  region : d.region = some r
  below : d.baseVa + d.sizePages * pageSize ≤ recursiveAddr

/-- The frame is mapped at a page that is not of the range. -/
def MappedElsewhere (σ : Vmm) (dirs : ℕ → Prop) (r : ℕ) (d : Pager) (f : ℕ) : Prop :=
  ∃ e q, dirs e ∧ q < windowPage ∧ ¬ (e = (σ.region r).pgDir ∧ d.Covers q) ∧
    present (σ.word e q) = true ∧ maskLow (σ.word e q) pageSize = f

/-- What a request may do. -/
structure KeepsToRange (σ : Vmm) (dirs : ℕ → Prop) (r : ℕ) (d : Pager) (req : PagerRequest)
    (reply : PagerReply) (d' : Pager) (σ' : Vmm) : Prop where
  /-- Only translations of pages of the range change, -/
  outside : ∀ e q, dirs e → q < windowPage → ¬ (e = (σ.region r).pgDir ∧ d.Covers q) →
    σ'.word e q = σ.word e q
  /-- no frame that is mapped elsewhere is freed, -/
  frees : ∀ f, σ.freePages.count f < σ'.freePages.count f → ¬ MappedElsewhere σ dirs r d f
  /-- what is reported is the translation of a page of the range, -/
  reports : (reply.pa ≠ none ∨ reply.flags ≠ none) → ∃ q, d.Covers q ∧
    present (σ.word (σ.region r).pgDir q) = true ∧
    (∀ pa ∈ reply.pa, pa = maskLow (σ.word (σ.region r).pgDir q) pageSize) ∧
    ∀ w ∈ reply.flags, w = σ.word (σ.region r).pgDir q % pageSize
  /-- and a request that is not inside the range is refused. -/
  refused : ¬ d.Contains req → reply = .of (-1) ∧ d' = d ∧ σ' = σ

/-- The first page from the target of `MAP_PHYSICAL` on that would be changed has no page
table, and there is no page for one. -/
def StopsUnchanged (σ : Vmm) (r : ℕ) (d : Pager) (req : PagerRequest) : Prop :=
  σ.freePages = [] ∧ ∃ k < req.pageCount,
    d.target req.virtualOffset / pageSize + k < windowPage ∧
    σ.hasTable (σ.region r).pgDir
      ((d.target req.virtualOffset / pageSize + k) / pageEntries) = false ∧
    ∀ i < k, σ.word (σ.region r).pgDir (d.target req.virtualOffset / pageSize + i) =
      pageEntry (u32 (req.targetPa + i * pageSize)) req.flags

/-- When a request of these types is confined. -/
def KeepsInside (σ : Vmm) (dirs : ℕ → Prop) (r : ℕ) (d : Pager) (req : PagerRequest) : Prop :=
  match req.type with
  | .free =>
    if d.Contains req then
      ∀ f ∈ freedPages (σ.word (σ.region r).pgDir) (d.baseVa % pageSize)
        (d.baseVa / pageSize + req.virtualOffset) req.pageCount, ¬ MappedElsewhere σ dirs r d f
    else d.sizePages < req.pageCount
  | .unmapPhysical | .protect =>
    d.Contains req ∨ d.outOfBounds req.virtualOffset req.pageCount
  | .query =>
    d.Contains req ∨ d.target req.virtualOffset < d.baseVa ∨ d.stop ≤ d.target req.virtualOffset ∨
      present (σ.word (σ.region r).pgDir (d.target req.virtualOffset / pageSize)) = false
  | .mapPhysical => d.Contains req ∨ StopsUnchanged σ r d req
  | _ => True

/-- The requests the law is about: of these types, and for `MAP_PHYSICAL` with a target
address in the range. -/
def InLaw (d : Pager) (req : PagerRequest) : Prop :=
  req.type = .free ∨ req.type = .unmapPhysical ∨ req.type = .protect ∨ req.type = .query ∨
    req.type = .mapPhysical ∧ d.baseVa ≤ d.target req.virtualOffset ∧
      d.target req.virtualOffset < d.stop

variable {σ σ' σ₁ σ₂ : Vmm} {dirs : ℕ → Prop} {r i n p q va pa flags dir : ℕ} {d d' : Pager}
  {req : PagerRequest} {reply : PagerReply}

/-! ### Addresses -/

namespace PagerOf

/-- An offset within the range does not wrap. -/
theorem target_eq (h : PagerOf σ dirs r d) {off : ℕ} (hoff : off ≤ d.sizePages) :
    d.target off = d.baseVa + off * pageSize := by
  have hb := h.below
  have hle : off * pageSize ≤ d.sizePages * pageSize := Nat.mul_le_mul_right _ hoff
  have hlt : d.baseVa + off * pageSize < 2 ^ 32 := by
    simp only [recursiveAddr] at hb
    omega
  rw [Pager.target, u32_of_lt (n := off * pageSize) (by omega), u32_of_lt hlt]

theorem stop_eq (h : PagerOf σ dirs r d) : d.stop = d.baseVa + d.sizePages * pageSize :=
  h.target_eq le_rfl

/-- The page of an address of the range. -/
theorem target_page (h : PagerOf σ dirs r d) {off : ℕ} (hoff : off ≤ d.sizePages) :
    d.target off / pageSize = d.baseVa / pageSize + off := by
  rw [h.target_eq hoff, page_div]

theorem target_below (h : PagerOf σ dirs r d) {off : ℕ} (hn : off + n ≤ d.sizePages) :
    d.target off + (0 + n) * pageSize ≤ recursiveAddr := by
  have hle : (off + n) * pageSize ≤ d.sizePages * pageSize := Nat.mul_le_mul_right _ hn
  rw [h.target_eq (Nat.le_of_add_right_le hn), Nat.zero_add, Nat.add_assoc, ← Nat.add_mul]
  exact (Nat.add_le_add_left hle _).trans h.below

end PagerOf

/-! ### What a handler leaves alone -/

/-- Outside `n` pages from `p` on, every address space is as before, and no page is freed. -/
structure KeptAround (σ σ' : Vmm) (dirs : ℕ → Prop) (dir p n : ℕ) : Prop where
  spaces : Spaces σ' dirs
  same : SameDescriptors σ σ'
  free : σ'.freePages.Sublist σ.freePages
  word : ∀ e q, dirs e → q < windowPage → ¬ (e = dir ∧ p ≤ q ∧ q < p + n) →
    σ'.word e q = σ.word e q

namespace KeptAround

theorem refl (h : Spaces σ dirs) : KeptAround σ σ dirs dir p n :=
  ⟨h, .refl σ, List.Sublist.refl _, fun _ _ _ _ _ => rfl⟩

theorem cons (h₁ : KeptAround σ σ₁ dirs dir p 1) (h₂ : KeptAround σ₁ σ' dirs dir (p + 1) n) :
    KeptAround σ σ' dirs dir p (n + 1) where
  spaces := h₂.spaces
  same := h₁.same.trans h₂.same
  free := h₂.free.trans h₁.free
  word e q he hq hout := (h₂.word e q he hq fun h => hout ⟨h.1, by omega, by omega⟩).trans
    (h₁.word e q he hq fun h => hout ⟨h.1, by omega, by omega⟩)

/-- Two steps on one page. -/
theorem trans (h₁ : KeptAround σ σ₁ dirs dir p n) (h₂ : KeptAround σ₁ σ' dirs dir p n) :
    KeptAround σ σ' dirs dir p n where
  spaces := h₂.spaces
  same := h₁.same.trans h₂.same
  free := h₂.free.trans h₁.free
  word e q he hq hout := (h₂.word e q he hq hout).trans (h₁.word e q he hq hout)

theorem wrote {w : ℕ} (h : Spaces σ dirs) (hw : Wrote σ σ' dirs dir p w) :
    KeptAround σ σ' dirs dir p 1 where
  spaces := hw.spaces h
  same := hw.same
  free := by rw [hw.free]
  word e q he hq hout := (hw.word e q he hq).trans (if_neg fun h => hout ⟨h.1, by omega, by omega⟩)

theorem mapped {w : ℕ} (hm : Mapped σ σ' dirs dir p w) : KeptAround σ σ' dirs dir p 1 where
  spaces := hm.spaces
  same := hm.same
  free := hm.free_sublist
  word e q he hq hout := (hm.word e q he hq).trans (if_neg fun h => hout ⟨h.1, by omega, by omega⟩)

end KeptAround

section Loops

variable (h : Spaces σ dirs) (hd : dirs (σ.region r).pgDir) (hl : Loaded σ r)
  (hle : va + (i + n) * pageSize ≤ recursiveAddr)

include h hd hl in
/-- `vmm_unmap` keeps everything but its page. -/
theorem vmmUnmap_keptAround (hva : va < recursiveAddr) : ∃ status σ', vmmUnmap r va σ = some (status, σ') ∧
    KeptAround σ σ' dirs (σ.region r).pgDir (va / pageSize) 1 := by
  rcases vmmUnmap_loaded h.toDirectories hd hl hva with ⟨-, hrun⟩ | ⟨-, σ₁, hrun, hw⟩
  · exact ⟨_, _, hrun, .refl h⟩
  · exact ⟨_, _, hrun, .wrote h hw⟩

include h hd hl in
/-- `vmm_map` keeps everything but its page. -/
theorem vmmMap_keptAround (hva : va < recursiveAddr) : ∃ status σ', vmmMap r va pa flags σ = some (status, σ') ∧
    KeptAround σ σ' dirs (σ.region r).pgDir (va / pageSize) 1 := by
  rcases vmmMap_loaded h hd hl hva pa flags with ⟨-, -, hrun⟩ | ⟨σ₁, hrun, hm⟩
  · exact ⟨_, _, hrun, .refl h⟩
  · exact ⟨_, _, hrun, .mapped hm⟩

include h hd hl hle in
theorem vmmPagerUnmapFrom_keptAround : ∃ σ', vmmPagerUnmapFrom r va n i σ = some σ' ∧
    KeptAround σ σ' dirs (σ.region r).pgDir (va / pageSize + i) n := by
  induction n generalizing i σ with
  | zero => exact ⟨σ, rfl, .refl h⟩
  | succ n ih =>
    obtain ⟨hlt, hpage, hle'⟩ := range_page hle
    obtain ⟨status, σ₁, hrun, hk⟩ := vmmUnmap_keptAround h hd hl hlt
    obtain ⟨x, hres⟩ : ∃ x, vmmResolve r (u32 (va + i * pageSize)) σ = some x :=
      ⟨_, vmmResolve_loaded hl (hlt.trans (by decide))⟩
    rw [hpage] at hk
    have hreg := congrFun hk.same.region r
    rw [vmmPagerUnmapFrom, hres]
    dsimp only [Option.bind_eq_bind, Option.bind_some]
    split
    · obtain ⟨σ', hrun', hk'⟩ := ih hk.spaces (hreg ▸ hd) (hl.of_same hk.same) hle'
      rw [hreg] at hk'
      exact ⟨σ', by rw [hrun]; exact hrun', hk.cons hk'⟩
    · obtain ⟨σ', hrun', hk'⟩ := ih h hd hl hle'
      exact ⟨σ', hrun', (KeptAround.refl h).cons hk'⟩

include h hd hl hle in
theorem vmmPagerProtectFrom_keptAround : ∃ σ', vmmPagerProtectFrom r va flags n i σ = some σ' ∧
    KeptAround σ σ' dirs (σ.region r).pgDir (va / pageSize + i) n := by
  induction n generalizing i σ with
  | zero => exact ⟨σ, rfl, .refl h⟩
  | succ n ih =>
    obtain ⟨hlt, hpage, hle'⟩ := range_page hle
    obtain ⟨x, hres⟩ : ∃ x, vmmResolve r (u32 (va + i * pageSize)) σ = some x :=
      ⟨_, vmmResolve_loaded hl (hlt.trans (by decide))⟩
    rw [vmmPagerProtectFrom, hres]
    dsimp only [Option.bind_eq_bind, Option.bind_some]
    split
    · obtain ⟨status, σ₁, hrun, hk⟩ : ∃ status σ₁, vmmMap r (u32 (va + i * pageSize)) x flags σ =
          some (status, σ₁) ∧ KeptAround σ σ₁ dirs _ _ 1 := vmmMap_keptAround h hd hl hlt
      rw [hpage] at hk
      have hreg := congrFun hk.same.region r
      obtain ⟨σ', hrun', hk'⟩ := ih hk.spaces (hreg ▸ hd) (hl.of_same hk.same) hle'
      rw [hreg] at hk'
      exact ⟨σ', by rw [hrun]; exact hrun', hk.cons hk'⟩
    · obtain ⟨σ', hrun', hk'⟩ := ih h hd hl hle'
      exact ⟨σ', hrun', (KeptAround.refl h).cons hk'⟩

include h hd hl hle in
theorem vmmPagerRemapFrom_keptAround : ∃ status σ', vmmPagerRemapFrom r va pa flags n i σ = some (status, σ') ∧
    KeptAround σ σ' dirs (σ.region r).pgDir (va / pageSize + i) n := by
  induction n generalizing i σ with
  | zero => exact ⟨0, σ, rfl, .refl h⟩
  | succ n ih =>
    obtain ⟨hlt, hpage, hle'⟩ := range_page hle
    obtain ⟨status₁, σ₁, hrun₁, hk₁⟩ := vmmUnmap_keptAround h hd hl hlt
    rw [hpage] at hk₁
    have hreg₁ := congrFun hk₁.same.region r
    obtain ⟨status₂, σ₂, hrun₂, hk₂⟩ : ∃ status σ₂, vmmMap r (u32 (va + i * pageSize))
        (u32 (pa + i * pageSize)) flags σ₁ = some (status, σ₂) ∧ KeptAround σ₁ σ₂ dirs _ _ 1 :=
      vmmMap_keptAround hk₁.spaces (hreg₁ ▸ hd) (hl.of_same hk₁.same) hlt
    rw [hpage, hreg₁] at hk₂
    have hk := hk₁.trans hk₂
    have hreg := congrFun hk.same.region r
    rw [vmmPagerRemapFrom, hrun₁]
    dsimp only [Option.bind_eq_bind, Option.bind_some]
    rw [hrun₂]
    dsimp only [Option.bind_some]
    split
    · exact ⟨_, _, rfl, hk.cons (.refl hk.spaces)⟩
    · obtain ⟨status, σ', hrun', hk'⟩ := ih hk.spaces (hreg ▸ hd) (hl.of_same hk.same) hle'
      rw [hreg] at hk'
      exact ⟨status, σ', hrun', hk.cons hk'⟩

end Loops

/-! ### When `MAP_PHYSICAL` stops without a change -/

/-- Fewer pages are free, or the directory no longer links itself as before. -/
def Spoiled (σ σ' : Vmm) (dir : ℕ) : Prop :=
  σ'.freePages.length < σ.freePages.length ∨ σ'.mem dir recursivePde ≠ σ.mem dir recursivePde

theorem not_spoiled_self : ¬ Spoiled σ σ dir := fun h => h.elim (lt_irrefl _) fun h => h rfl

/-- The pages that `vmm_map` takes: none where there is a table, and one where there is not,
if there is one. -/
theorem vmmMap_freePages {status : ℤ} (hrun : vmmMap r va pa flags σ = some (status, σ')) :
    (present (σ.pde r (pdIndex va)) = true ∧ σ'.freePages = σ.freePages) ∨
    present (σ.pde r (pdIndex va)) = false ∧ (σ.freePages = [] ∧ status = -1 ∧ σ' = σ ∨
      σ'.freePages.length < σ.freePages.length) := by
  obtain ⟨⟨status₁, σ₁⟩, hrun₁, hrun₂⟩ := Option.bind_eq_some_iff.1 hrun
  have hrest : σ'.freePages = σ₁.freePages ∧ (status₁ < 0 → status = -1 ∧ σ' = σ₁) := by
    dsimp only at hrun₂
    split at hrun₂
    · next hneg =>
      obtain ⟨rfl, rfl⟩ := Prod.mk.inj (Option.some.inj hrun₂)
      exact ⟨rfl, fun _ => ⟨rfl, rfl⟩⟩
    · next hneg =>
      obtain ⟨t, -, hrun₃⟩ := Option.bind_eq_some_iff.1 hrun₂
      obtain ⟨-, rfl⟩ := Prod.mk.inj (Option.some.inj hrun₃)
      exact ⟨rfl, fun h => absurd h hneg⟩
  unfold vmmMapTable at hrun₁
  split at hrun₁
  · next hp =>
    obtain ⟨rfl, rfl⟩ := Prod.mk.inj (Option.some.inj hrun₁)
    exact .inl ⟨hp, hrest.1⟩
  · next hp =>
    refine .inr ⟨Bool.not_eq_true _ ▸ hp, ?_⟩
    rcases hfree : σ.freePages with - | ⟨t, free⟩
    · simp only [Vmm.allocPage, hfree, if_true] at hrun₁
      obtain ⟨rfl, rfl⟩ := Prod.mk.inj (Option.some.inj hrun₁)
      exact .inl ⟨rfl, hrest.2 (by decide)⟩
    · right
      simp only [Vmm.allocPage, hfree] at hrun₁
      have hlen : σ₁.freePages = free := by
        split at hrun₁
        · obtain ⟨-, rfl⟩ := Prod.mk.inj (Option.some.inj hrun₁)
          rfl
        · obtain ⟨pt, -, hrun₁⟩ := Option.bind_eq_some_iff.1 hrun₁
          obtain ⟨-, rfl⟩ := Prod.mk.inj (Option.some.inj hrun₁)
          rfl
      rw [hrest.1, hlen]
      exact Nat.lt_succ_self _

/-- One turn of the loop: `vmm_unmap`, `vmm_map`, and the rest unless that failed. -/
theorem vmmPagerRemapFrom_succ {status : ℤ}
    (hrun : vmmPagerRemapFrom r va pa flags (n + 1) i σ = some (status, σ')) :
    ∃ s₁ σ₁ s₂ σ₂, vmmUnmap r (u32 (va + i * pageSize)) σ = some (s₁, σ₁) ∧
      vmmMap r (u32 (va + i * pageSize)) (u32 (pa + i * pageSize)) flags σ₁ = some (s₂, σ₂) ∧
      (s₂ ≠ 0 ∧ status = -1 ∧ σ' = σ₂ ∨
        s₂ = 0 ∧ vmmPagerRemapFrom r va pa flags n (i + 1) σ₂ = some (status, σ')) := by
  obtain ⟨⟨s₁, σ₁⟩, hrun₁, hrun⟩ := Option.bind_eq_some_iff.1 hrun
  obtain ⟨⟨s₂, σ₂⟩, hrun₂, hrun⟩ := Option.bind_eq_some_iff.1 hrun
  refine ⟨s₁, σ₁, s₂, σ₂, hrun₁, hrun₂, ?_⟩
  dsimp only at hrun
  split at hrun
  · next hne =>
    obtain ⟨rfl, rfl⟩ := Prod.mk.inj (Option.some.inj hrun)
    exact .inl ⟨hne, rfl, rfl⟩
  · next hne => exact .inr ⟨not_not.1 hne, hrun⟩

theorem vmmMap_free_le {status : ℤ} (hrun : vmmMap r va pa flags σ = some (status, σ')) :
    σ'.freePages.length ≤ σ.freePages.length := by
  rcases vmmMap_freePages hrun with ⟨-, hfree⟩ | ⟨-, ⟨-, -, rfl⟩ | hlt⟩
  · rw [hfree]
  · exact le_rfl
  · exact hlt.le

/-- The loop gives no page back. -/
theorem vmmPagerRemapFrom_free_le {status : ℤ}
    (hrun : vmmPagerRemapFrom r va pa flags n i σ = some (status, σ')) :
    σ'.freePages.length ≤ σ.freePages.length := by
  induction n generalizing i σ with
  | zero =>
    obtain ⟨-, rfl⟩ := Prod.mk.inj (Option.some.inj hrun)
    exact le_rfl
  | succ n ih =>
    obtain ⟨s₁, σ₁, s₂, σ₂, hrun₁, hrun₂, hrest⟩ := vmmPagerRemapFrom_succ hrun
    have hle : σ₂.freePages.length ≤ σ.freePages.length := by
      rw [← vmmUnmap_freePages hrun₁]
      exact vmmMap_free_le hrun₂
    rcases hrest with ⟨-, -, rfl⟩ | ⟨-, hrun'⟩
    · exact hle
    · exact (ih hrun').trans hle

/-- In the recursive window the loop rewrites the directory, and fails no earlier than at its
last page, where the directory loses the link to itself. -/
theorem vmmPagerRemapFrom_window (hrun : vmmPagerRemapFrom r va pa flags n i σ = some (-1, σ'))
    (hcur : σ.currentPgDir = dir) (hreg : (σ.region r).pgDir = dir)
    (hself : tableLink (σ.mem dir recursivePde) = some dir) (hlo : windowPage ≤ va / pageSize + i)
    (hhi : va / pageSize + i < windowPage + pageEntries) : Spoiled σ σ' dir := by
  induction n generalizing i σ with
  | zero => exact absurd (Prod.mk.inj (Option.some.inj hrun)).1 (by decide)
  | succ n ih =>
    have hsmall : va + i * pageSize < 2 ^ 32 := by
      simp only [windowPage, recursivePde, pageEntries, pageSize] at hhi ⊢
      omega
    have hpage : u32 (va + i * pageSize) / pageSize = va / pageSize + i := by
      rw [u32_of_lt hsmall, page_div]
    have hpd : pdIndex (u32 (va + i * pageSize)) = recursivePde := by
      rw [pdIndex_eq (u32_lt _), hpage]
      simp only [windowPage, recursivePde, pageEntries] at hlo hhi ⊢
      omega
    obtain ⟨hpresent, hmask⟩ := tableLink_eq_some.1 hself
    have hpde : present (σ.pde r recursivePde) = true := by
      rw [Vmm.pde, hreg]
      exact hpresent
    obtain ⟨s₁, σ₁, s₂, σ₂, hrun₁, hrun₂, hrest⟩ := vmmPagerRemapFrom_succ hrun
    have hunmap : vmmUnmap r (u32 (va + i * pageSize)) σ =
        some (0, σ.setWord dir (ptIndex (u32 (va + i * pageSize))) 0) := by
      rw [vmmUnmap, hpd, if_pos hpde, Vmm.recursivePt, hcur, hself]
      rfl
    obtain ⟨rfl, rfl⟩ := Prod.mk.inj (Option.some.inj (hrun₁.symm.trans hunmap))
    have hidx : ptIndex (u32 (va + i * pageSize)) = (va / pageSize + i) % pageEntries := by
      rw [ptIndex_eq, hpage]
    rcases eq_or_ne (ptIndex (u32 (va + i * pageSize))) recursivePde with hlast | hnot
    · -- the link of the directory to itself is cleared
      rw [hlast] at hrun₂
      have hzero : (σ.setWord dir recursivePde 0).pde r recursivePde = 0 := by
        change write σ.mem dir recursivePde 0 (σ.region r).pgDir recursivePde = 0
        rw [hreg, write_self]
      rcases vmmMap_freePages hrun₂ with ⟨hp, -⟩ | ⟨-, ⟨-, rfl, rfl⟩ | hlt⟩
      · rw [hpd, hzero, present_zero] at hp
        exact absurd hp Bool.false_ne_true
      · rcases hrest with ⟨-, -, rfl⟩ | ⟨h0, -⟩
        · right
          change write σ.mem dir recursivePde 0 dir recursivePde ≠ _
          rw [write_self]
          intro h0
          rw [← h0, present_zero] at hpresent
          exact Bool.false_ne_true hpresent
        · exact absurd h0 (by decide)
      · left
        rcases hrest with ⟨-, -, rfl⟩ | ⟨-, hrun'⟩
        · exact hlt
        · exact (vmmPagerRemapFrom_free_le hrun').trans_lt hlt
    · have hkeep : ∀ w, (σ.setWord dir (ptIndex (u32 (va + i * pageSize))) w).mem dir recursivePde =
          σ.mem dir recursivePde := fun w => write_of_ne_index hnot.symm
      have hmap : vmmMap r (u32 (va + i * pageSize)) (u32 (pa + i * pageSize)) flags
          (σ.setWord dir (ptIndex (u32 (va + i * pageSize))) 0) =
          some (0, (σ.setWord dir (ptIndex (u32 (va + i * pageSize))) 0).setWord dir
            (ptIndex (u32 (va + i * pageSize))) (pageEntry (u32 (pa + i * pageSize)) flags)) := by
        have hp : present ((σ.setWord dir (ptIndex (u32 (va + i * pageSize))) 0).pde r
            recursivePde) = true := by
          change present ((σ.setWord dir _ 0).mem (σ.region r).pgDir recursivePde) = true
          rw [hreg, hkeep]
          exact hpresent
        have ht : (σ.setWord dir (ptIndex (u32 (va + i * pageSize))) 0).recursivePt recursivePde =
            some dir := by
          change tableLink ((σ.setWord dir _ 0).mem σ.currentPgDir recursivePde) = some dir
          rw [hcur, hkeep]
          exact hself
        rw [vmmMap, hpd, vmmMapTable, if_pos hp]
        dsimp only [Option.bind_eq_bind, Option.bind_some]
        rw [if_neg (by decide), ht]
        rfl
      obtain ⟨rfl, rfl⟩ := Prod.mk.inj (Option.some.inj (hrun₂.symm.trans hmap))
      rcases hrest with ⟨h0, -, -⟩ | ⟨-, hrun'⟩
      · exact absurd rfl h0
      · have hmem : ((σ.setWord dir (ptIndex (u32 (va + i * pageSize))) 0).setWord dir
            (ptIndex (u32 (va + i * pageSize))) (pageEntry (u32 (pa + i * pageSize)) flags)).mem dir
              recursivePde = σ.mem dir recursivePde :=
          (write_of_ne_index hnot.symm).trans (hkeep 0)
        have hnext := ih hrun' hcur hreg (by rw [hmem]; exact hself) (by omega) (by
          simp only [windowPage, recursivePde, pageEntries] at hlo hhi hidx hnot ⊢
          omega)
        rwa [Spoiled, hmem] at hnext

/-- The loop has come to page `k` from page `i` on, which has no page table. -/
def StopsAt (σ σ' : Vmm) (dir va pa flags n i k : ℕ) : Prop :=
  k < n ∧ va / pageSize + i + k < windowPage ∧ σ.freePages = [] ∧
    σ.hasTable dir ((va / pageSize + i + k) / pageEntries) = false ∧
    (∀ j < k, σ'.word dir (va / pageSize + i + j) = pageEntry (u32 (pa + (i + j) * pageSize)) flags) ∧
    ∀ q, q < windowPage → ¬ (va / pageSize + i ≤ q ∧ q < va / pageSize + i + k) →
      σ'.word dir q = σ.word dir q

section Stops

variable (h : Spaces σ dirs) (hd : dirs (σ.region r).pgDir) (hl : Loaded σ r)

include h hd hl in
/-- **How the loop fails**: at a page without a table, or having spoilt what it cannot repair. -/
theorem vmmPagerRemapFrom_fails (hlo : va / pageSize + i ≤ windowPage)
    (hrun : vmmPagerRemapFrom r va pa flags n i σ = some (-1, σ')) :
    Spoiled σ σ' (σ.region r).pgDir ∨ ∃ k, StopsAt σ σ' (σ.region r).pgDir va pa flags n i k := by
  induction n generalizing i σ with
  | zero => exact absurd (Prod.mk.inj (Option.some.inj hrun)).1 (by decide)
  | succ n ih =>
    rcases Nat.eq_or_lt_of_le hlo with heq | hlt
    · exact .inl (vmmPagerRemapFrom_window hrun hl rfl (h.self _ hd) heq.ge
        (heq ▸ Nat.lt_add_of_pos_right (by decide)))
    · have hsmall : va + i * pageSize < recursiveAddr := by
        simp only [windowPage, recursivePde, pageEntries, pageSize, recursiveAddr] at hlt ⊢
        omega
      have hu : u32 (va + i * pageSize) = va + i * pageSize := u32_of_lt (hsmall.trans (by decide))
      obtain ⟨s₁, σ₁, s₂, σ₂, hrun₁, hrun₂, hrest⟩ := vmmPagerRemapFrom_succ hrun
      rw [hu] at hrun₁ hrun₂
      have hpage := page_div va i
      rcases vmmUnmap_loaded h.toDirectories hd hl hsmall with ⟨hnone, hunmap⟩ | ⟨hsome, τ, hunmap, hw⟩
      · obtain ⟨rfl, rfl⟩ := Prod.mk.inj (Option.some.inj (hrun₁.symm.trans hunmap))
        rw [hpage] at hnone
        rcases vmmMap_loaded h hd hl hsmall (u32 (pa + i * pageSize)) flags with
          ⟨-, hfree, hmap⟩ | ⟨τ', hmap, hm⟩
        · obtain ⟨rfl, rfl⟩ := Prod.mk.inj (Option.some.inj (hrun₂.symm.trans hmap))
          rcases hrest with ⟨-, -, rfl⟩ | ⟨h0, -⟩
          · exact .inr ⟨0, Nat.succ_pos n, hlt, hfree, hnone, by simp, fun _ _ _ => rfl⟩
          · exact absurd h0 (by decide)
        · -- a page is taken for the table, and none comes back
          obtain ⟨rfl, rfl⟩ := Prod.mk.inj (Option.some.inj (hrun₂.symm.trans hmap))
          left
          left
          rcases hm.cases with ⟨hyes, -⟩ | ⟨-, t, hfree, -⟩
          · rw [hpage, hnone] at hyes
            exact absurd hyes Bool.false_ne_true
          · rcases hrest with ⟨h0, -⟩ | ⟨-, hrun'⟩
            · exact absurd rfl h0
            · rw [hfree]
              exact Nat.lt_succ_of_le (vmmPagerRemapFrom_free_le hrun')
      · obtain ⟨rfl, rfl⟩ := Prod.mk.inj (Option.some.inj (hrun₁.symm.trans hunmap))
        have hreg := congrFun hw.same.region r
        have htable : ∀ k, σ₁.hasTable (σ.region r).pgDir k = σ.hasTable (σ.region r).pgDir k :=
          fun k => by rw [Vmm.hasTable, hw.dir _ hd, Vmm.hasTable]
        have hmaps := vmmMap_loaded (r := r) (hw.spaces h) (by rw [hreg]; exact hd)
          (hl.of_same hw.same) hsmall (u32 (pa + i * pageSize)) flags
        rw [hreg, htable] at hmaps
        rcases hmaps with ⟨hno, -⟩ | ⟨τ', hmap, hm⟩
        · exact absurd (hno.symm.trans hsome) Bool.false_ne_true
        · obtain ⟨rfl, rfl⟩ := Prod.mk.inj (Option.some.inj (hrun₂.symm.trans hmap))
          rcases hrest with ⟨h0, -⟩ | ⟨-, hrun'⟩
          · exact absurd rfl h0
          · obtain ⟨-, hfree, hlink⟩ := hm.cases.resolve_right fun hno =>
              absurd (hno.1.symm.trans ((htable _).trans hsome)) Bool.false_ne_true
            have hreg₂ := congrFun (hw.same.trans hm.same).region r
            have hmem : ∀ k, σ₂.mem (σ.region r).pgDir k = σ.mem (σ.region r).pgDir k := fun k => by
              rcases eq_or_ne k ((va + i * pageSize) / pageSize / pageEntries) with rfl | hk
              · rw [hlink, hw.dir _ hd]
              · rw [hm.dir _ _ hd fun hk' => hk hk'.2, hw.dir _ hd]
            have hword : ∀ q, q < windowPage → σ₂.word (σ.region r).pgDir q =
                if q = va / pageSize + i then pageEntry (u32 (pa + i * pageSize)) flags
                else σ.word (σ.region r).pgDir q := fun q hq => by
              have hm' := hm.word _ q hd hq
              have hw' := hw.word _ q hd hq
              rw [hpage] at hm' hw'
              simp only [true_and] at hm' hw'
              rw [hm', hw']
              split <;> rfl
            have hnext := ih (σ := σ₂) (i := i + 1) hm.spaces (by rw [hreg₂]; exact hd)
              (hl.of_same (hw.same.trans hm.same)) hlt hrun'
            rw [hreg₂] at hnext
            rcases hnext with hspoiled | ⟨k, hk, hbelow, hnil, hnone, hdone, hout⟩
            · left
              rwa [Spoiled, hfree, hw.free, hmem] at hspoiled
            · have hpq : va / pageSize + (i + 1) + k = va / pageSize + i + (k + 1) := by omega
              refine .inr ⟨k + 1, Nat.succ_lt_succ hk, hpq ▸ hbelow, ?_, ?_, fun j hj => ?_,
                fun q hq hq' => ?_⟩
              · rw [← hw.free, ← hfree]
                exact hnil
              · rw [Vmm.hasTable, ← hmem, ← hpq]
                exact hnone
              · rcases j with - | j
                · rw [Nat.add_zero, Nat.add_zero, hout _ hlt (by omega), hword _ hlt, if_pos rfl]
                · have hpj : va / pageSize + (i + 1) + j = va / pageSize + i + (j + 1) := by omega
                  have hij : i + 1 + j = i + (j + 1) := by omega
                  rw [← hpj, ← hij]
                  exact hdone j (Nat.lt_of_succ_lt_succ hj)
              · rw [hout q hq (by omega), hword q hq, if_neg (by omega)]

include h hd hl in
/-- A page that is mapped as asked for is unmapped and mapped again, and nothing has changed. -/
theorem remap_same (hva : va < recursiveAddr)
    (hword : σ.word (σ.region r).pgDir (va / pageSize) = pageEntry pa flags) :
    ∃ σ₁, vmmUnmap r va σ = some (0, σ₁) ∧ vmmMap r va pa flags σ₁ = some (0, σ) := by
  have hpd : pdIndex va = va / pageSize / pageEntries := pdIndex_eq (hva.trans (by decide))
  have hslot := pdIndex_lt_recursivePde hva
  have htable : present (σ.pde r (pdIndex va)) = true := by
    rw [hpd]
    exact hasTable_of_present (by rw [hword, present_pageEntry])
  obtain ⟨t, ht⟩ : ∃ t, tableLink (σ.pde r (pdIndex va)) = some t :=
    ⟨_, tableLink_of_present htable⟩
  have hentry : σ.mem t (ptIndex va) = pageEntry pa flags := by
    rw [← hword, word_of_link (hpd ▸ ht)]
    rfl
  have hne : (σ.region r).pgDir ≠ t := h.not_dir hd hslot ht hd
  have hpde : (σ.setWord t (ptIndex va) 0).pde r (pdIndex va) = σ.pde r (pdIndex va) :=
    congrFun (write_of_ne_page hne) _
  have hl₁ : Loaded (σ.setWord t (ptIndex va) 0) r := hl
  refine ⟨σ.setWord t (ptIndex va) 0, ?_, ?_⟩
  · rw [vmmUnmap, if_pos htable, recursivePt_loaded hl, ht]
    rfl
  · rw [vmmMap, vmmMapTable, hpde, if_pos htable]
    dsimp only [Option.bind_eq_bind, Option.bind_some]
    rw [if_neg (by decide), recursivePt_loaded hl₁, hpde, ht]
    have hback : write (write σ.mem t (ptIndex va) 0) t (ptIndex va) (pageEntry pa flags) = σ.mem := by
      funext a j
      rw [write_apply]
      split
      · next hj => rw [hj.1, hj.2, hentry]
      · next hj => rw [write_apply, if_neg hj]
    exact congrArg (fun mem => some ((0 : ℤ), { σ with mem })) hback

include h hd hl in
/-- The loop stops without a change. -/
theorem vmmPagerRemapFrom_unchanged {k : ℕ}
    (hstop : StopsAt σ σ (σ.region r).pgDir va pa flags n i k) :
    vmmPagerRemapFrom r va pa flags n i σ = some (-1, σ) := by
  induction k generalizing n i with
  | zero =>
    obtain ⟨hn, hbelow, hfree, hnone, -⟩ := hstop
    obtain ⟨n, rfl⟩ := Nat.exists_eq_succ_of_ne_zero (Nat.ne_of_gt hn)
    rw [Nat.add_zero] at hbelow hnone
    have hsmall : va + i * pageSize < recursiveAddr := by
      simp only [windowPage, recursivePde, pageEntries, pageSize, recursiveAddr] at hbelow ⊢
      omega
    have hpage := page_div va i
    rw [vmmPagerRemapFrom, u32_of_lt (hsmall.trans (by decide))]
    rcases vmmUnmap_loaded h.toDirectories hd hl hsmall with ⟨-, hunmap⟩ | ⟨hsome, -⟩
    · rcases vmmMap_loaded h hd hl hsmall (u32 (pa + i * pageSize)) flags with
        ⟨-, -, hmap⟩ | ⟨τ', -, hm⟩
      · rw [hunmap]
        dsimp only [Option.bind_eq_bind, Option.bind_some]
        rw [hmap]
        rfl
      · rcases hm.cases with ⟨hyes, -⟩ | ⟨-, t, hcons, -⟩
        · rw [hpage, hnone] at hyes
          exact absurd hyes Bool.false_ne_true
        · exact absurd (hfree.symm.trans hcons) (by simp)
    · rw [hpage, hnone] at hsome
      exact absurd hsome Bool.false_ne_true
  | succ k ih =>
    obtain ⟨hn, hbelow, hfree, hnone, hdone, hout⟩ := hstop
    obtain ⟨n, rfl⟩ := Nat.exists_eq_succ_of_ne_zero (Nat.ne_of_gt (Nat.zero_lt_of_lt hn))
    have hsmall : va + i * pageSize < recursiveAddr := by
      simp only [windowPage, recursivePde, pageEntries, pageSize, recursiveAddr] at hbelow ⊢
      omega
    have hpage := page_div va i
    have hword : σ.word (σ.region r).pgDir ((va + i * pageSize) / pageSize) =
        pageEntry (u32 (pa + i * pageSize)) flags := by
      rw [hpage]
      exact hdone 0 (Nat.succ_pos k)
    obtain ⟨σ₁, hunmap, hmap⟩ := remap_same h hd hl hsmall hword
    have hpq : ∀ j, va / pageSize + (i + 1) + j = va / pageSize + i + (j + 1) := fun j => by omega
    have hrest : vmmPagerRemapFrom r va pa flags n (i + 1) σ = some (-1, σ) := by
      refine ih ⟨Nat.lt_of_succ_lt_succ hn, ?_, hfree, ?_, fun j hj => ?_, fun _ _ _ => rfl⟩
      · rw [hpq]
        exact hbelow
      · rw [hpq]
        exact hnone
      · rw [hpq, show i + 1 + j = i + (j + 1) by omega]
        exact hdone (j + 1) (Nat.succ_lt_succ hj)
    rw [vmmPagerRemapFrom, u32_of_lt (hsmall.trans (by decide)), hunmap]
    dsimp only [Option.bind_eq_bind, Option.bind_some]
    rw [hmap]
    exact hrest

end Stops

/-! ### Requests -/

/-- The request returns and is confined. -/
def AnsweredInside (σ : Vmm) (dirs : ℕ → Prop) (r : ℕ) (d : Pager) (req : PagerRequest) : Prop :=
  ∃ reply d' σ', vmmPagerHandleRequest d req σ = some (reply, d', σ') ∧
    KeepsToRange σ dirs r d req reply d' σ'

theorem refused_ne_done : PagerReply.of 0 ≠ .of (-1) := fun h =>
  absurd (congrArg PagerReply.status h) (by decide)

/-- A request that is refused is confined. -/
theorem answered_of_refused
    (hrun : vmmPagerHandleRequest d req σ = some (.of (-1), d, σ)) :
    AnsweredInside σ dirs r d req :=
  ⟨_, _, _, hrun, fun _ _ _ _ _ => rfl, fun _ h => absurd h (lt_irrefl _),
    fun h => absurd h (by simp [PagerReply.of]), fun _ => ⟨rfl, rfl, rfl⟩⟩

/-- A request that only touches pages of the range is confined. -/
theorem answered_of_kept {status : ℤ} (hin : d.Contains req)
    (hrun : vmmPagerHandleRequest d req σ = some (.of status, d', σ'))
    (hk : KeptAround σ σ' dirs (σ.region r).pgDir p n) (hcov : ∀ q, p ≤ q → q < p + n → d.Covers q) :
    AnsweredInside σ dirs r d req := by
  refine ⟨_, _, _, hrun, fun e q he hq hout => ?_, fun f hf => ?_,
    fun h => absurd h (by simp [PagerReply.of]), fun h => absurd hin h⟩
  · exact hk.word e q he hq fun h => hout ⟨h.1, hcov q h.2.1 h.2.2⟩
  · exact absurd (hk.free.count_le f) (Nat.not_le.2 hf)

theorem covers_of_le {off : ℕ} (hle : off + n ≤ d.sizePages) :
    ∀ q, d.baseVa / pageSize + off ≤ q → q < d.baseVa / pageSize + off + n → d.Covers q :=
  fun q hlo hhi => ⟨by omega, by omega⟩

namespace PagerOf

variable (h : PagerOf σ dirs r d)
include h

/-- A handler that tests the bounds and then runs a loop over the pages. -/
theorem tested_iff (loop : Vmm → Option Vmm) (ht : req.type ≠ .query)
    (hrun : vmmPagerHandleRequest d req σ =
      if d.outOfBounds req.virtualOffset req.pageCount then some (.of (-1), d, σ)
      else (loop σ).bind fun σ' => some (.of 0, d, σ'))
    (hloop : d.target req.virtualOffset + (0 + req.pageCount) * pageSize ≤ recursiveAddr →
      ∃ σ', loop σ = some σ' ∧ KeptAround σ σ' dirs (σ.region r).pgDir
        (d.target req.virtualOffset / pageSize + 0) req.pageCount) :
    AnsweredInside σ dirs r d req ↔
      d.Contains req ∨ d.outOfBounds req.virtualOffset req.pageCount := by
  split at hrun
  · next hoob => exact iff_of_true (answered_of_refused hrun) (.inr hoob)
  · next hoob =>
    constructor
    · rintro ⟨reply, d', σ', hans, hconf⟩
      by_contra hno
      obtain ⟨σ₁, -, hres⟩ := Option.bind_eq_some_iff.1 (hrun.symm.trans hans)
      obtain ⟨rfl, -⟩ := Prod.mk.inj (Option.some.inj hres)
      exact refused_ne_done (hconf.refused fun hin => hno (.inl hin)).1
    · intro hor
      have hin := hor.resolve_right hoob
      have hle : req.virtualOffset + req.pageCount ≤ d.sizePages := by
        simpa [Pager.Contains, ht] using hin
      obtain ⟨σ', hres, hk⟩ := hloop (h.target_below hle)
      rw [h.target_page (Nat.le_of_add_right_le hle), Nat.add_zero] at hk
      rw [hres] at hrun
      exact answered_of_kept hin hrun hk (covers_of_le hle)

theorem unmap_iff (ht : req.type = .unmapPhysical) : AnsweredInside σ dirs r d req ↔
    d.Contains req ∨ d.outOfBounds req.virtualOffset req.pageCount := by
  refine h.tested_iff (vmmPagerUnmapFrom r (d.target req.virtualOffset) req.pageCount 0)
    (by simp [ht]) ?_ fun hle => vmmPagerUnmapFrom_keptAround h.spaces h.dir h.current hle
  simp [vmmPagerHandleRequest, h.region, ht, vmmPagerHandleUnmapPhysical]

theorem protect_iff (ht : req.type = .protect) : AnsweredInside σ dirs r d req ↔
    d.Contains req ∨ d.outOfBounds req.virtualOffset req.pageCount := by
  refine h.tested_iff (vmmPagerProtectFrom r (d.target req.virtualOffset) req.flags req.pageCount 0)
    (by simp [ht]) ?_ fun hle => vmmPagerProtectFrom_keptAround h.spaces h.dir h.current hle
  simp [vmmPagerHandleRequest, h.region, ht, vmmPagerHandleProtect]

theorem free_iff (ht : req.type = .free) : AnsweredInside σ dirs r d req ↔
    if d.Contains req then
      ∀ f ∈ freedPages (σ.word (σ.region r).pgDir) (d.baseVa % pageSize)
        (d.baseVa / pageSize + req.virtualOffset) req.pageCount, ¬ MappedElsewhere σ dirs r d f
    else d.sizePages < req.pageCount := by
  have hrun : vmmPagerHandleRequest d req σ = vmmPagerHandleFree r d req σ := by
    simp [vmmPagerHandleRequest, h.region, ht]
  have hcontains : d.Contains req ↔ req.virtualOffset + req.pageCount ≤ d.sizePages := by
    simp [Pager.Contains, ht]
  unfold vmmPagerHandleFree at hrun
  split at hrun
  · next hlt =>
    rw [if_neg (by rw [hcontains]; omega)]
    exact iff_of_true (answered_of_refused hrun) hlt
  · next hlt =>
    split
    · next hin =>
      have hle := hcontains.1 hin
      have hoff : d.target req.virtualOffset % pageSize = d.baseVa % pageSize := by
        rw [h.target_eq (Nat.le_of_add_right_le hle), Nat.add_mul_mod_self_right]
      obtain ⟨σ', hfree, hc, hpages⟩ :=
        vmmFreeFrom_loaded h.spaces.toDirectories h.dir h.current (h.target_below hle)
      rw [h.target_page (Nat.le_of_add_right_le hle), Nat.add_zero] at hc hpages
      rw [hoff] at hpages
      rw [vmmFree, hfree] at hrun
      have hcount : ∀ f, σ.freePages.count f < σ'.freePages.count f ↔
          f ∈ freedPages (σ.word (σ.region r).pgDir) (d.baseVa % pageSize)
            (d.baseVa / pageSize + req.virtualOffset) req.pageCount := fun f => by
        rw [hpages, List.count_append, ← List.count_pos_iff]
        omega
      constructor
      · rintro ⟨reply, d', σ'', hans, hconf⟩ f hf
        obtain ⟨-, hstate⟩ := Prod.mk.inj (Option.some.inj (hrun.symm.trans hans))
        obtain ⟨-, rfl⟩ := Prod.mk.inj hstate
        exact hconf.frees f ((hcount f).2 hf)
      · intro hall
        refine ⟨_, _, _, hrun, fun e q he hq hout => ?_, fun f hf => hall f ((hcount f).1 hf),
          fun hrep => absurd hrep (by simp [PagerReply.of]), fun hno => absurd hin hno⟩
        rw [hc.word e q he hq, if_neg]
        rintro ⟨rfl, hlo, hhi⟩
        exact hout ⟨rfl, covers_of_le hle q hlo hhi⟩
    · next hnot =>
      refine iff_of_false ?_ hlt
      rintro ⟨reply, d', σ', hans, hconf⟩
      obtain ⟨σ₁, -, hres⟩ := Option.bind_eq_some_iff.1 (hrun.symm.trans hans)
      obtain ⟨rfl, -⟩ := Prod.mk.inj (Option.some.inj hres)
      exact refused_ne_done (hconf.refused hnot).1

theorem query_iff (ht : req.type = .query) : AnsweredInside σ dirs r d req ↔
    d.Contains req ∨ d.target req.virtualOffset < d.baseVa ∨ d.stop ≤ d.target req.virtualOffset ∨
      present (σ.word (σ.region r).pgDir (d.target req.virtualOffset / pageSize)) = false := by
  have hrun : vmmPagerHandleRequest d req σ = vmmPagerHandleQuery r d req σ := by
    simp [vmmPagerHandleRequest, h.region, ht]
  have hword : vmmTableWord r (d.target req.virtualOffset) σ = some (σ.word (σ.region r).pgDir
      (d.target req.virtualOffset / pageSize)) := vmmTableWord_loaded h.current (u32_lt _)
  unfold vmmPagerHandleQuery at hrun
  dsimp only at hrun
  split at hrun
  · next hoob =>
    exact iff_of_true (answered_of_refused hrun) (.inr (hoob.elim .inl fun hs => .inr (.inl hs)))
  · next hoob =>
    rw [hword] at hrun
    dsimp only [Option.bind_eq_bind, Option.bind_some] at hrun
    split at hrun
    · next hp =>
      constructor
      · rintro ⟨reply, d', σ', hans, hconf⟩
        by_contra hno
        obtain ⟨hreply, -⟩ := Prod.mk.inj (Option.some.inj (hrun.symm.trans hans))
        have href := (hconf.refused fun hin => hno (.inl hin)).1
        rw [← hreply] at href
        exact absurd (congrArg PagerReply.status href) (by simp [PagerReply.of])
      · intro hor
        have hin : d.Contains req := hor.resolve_right fun hrest => by
          rcases hrest with hlt | hle | habs
          · exact hoob (.inl hlt)
          · exact hoob (.inr hle)
          · exact Bool.false_ne_true (habs.symm.trans hp)
        have hle : req.virtualOffset + 1 ≤ d.sizePages := by
          simpa [Pager.Contains, ht] using hin
        have hpage := h.target_page (Nat.le_of_add_right_le hle)
        refine ⟨_, _, _, hrun, fun _ _ _ _ _ => rfl, fun _ hf => absurd hf (lt_irrefl _),
          fun _ => ⟨_, covers_of_le hle (d.target req.virtualOffset / pageSize) hpage.ge
            (by omega), hp, fun pa hpa => ?_, fun w hw => ?_⟩, fun hno => absurd hin hno⟩
        · dsimp only at hpa
          split at hpa
          · exact (Option.some.inj hpa).symm
          · exact absurd hpa (by simp)
        · dsimp only at hw
          split at hw
          · exact (Option.some.inj hw).symm
          · exact absurd hw (by simp)
    · next hp =>
      exact iff_of_true (answered_of_refused hrun) (.inr (.inr (.inr (Bool.not_eq_true _ ▸ hp))))

theorem mapPhysical_iff (ht : req.type = .mapPhysical)
    (hin : d.baseVa ≤ d.target req.virtualOffset ∧ d.target req.virtualOffset < d.stop) :
    AnsweredInside σ dirs r d req ↔ d.Contains req ∨ StopsUnchanged σ r d req := by
  have hrun : vmmPagerHandleRequest d req σ = vmmPagerHandleMapPhysical r d req σ := by
    simp [vmmPagerHandleRequest, h.region, ht]
  have hcontains : d.Contains req ↔ req.virtualOffset + req.pageCount ≤ d.sizePages := by
    simp [Pager.Contains, ht]
  have hstops : StopsUnchanged σ r d req ↔ ∃ k, StopsAt σ σ (σ.region r).pgDir
      (d.target req.virtualOffset) req.targetPa req.flags req.pageCount 0 k := by
    unfold StopsUnchanged StopsAt
    simp only [Nat.add_zero, Nat.zero_add]
    constructor
    · rintro ⟨hfree, k, hk, hbelow, hnone, hdone⟩
      exact ⟨k, hk, hbelow, hfree, hnone, hdone, fun _ _ _ => trivial⟩
    · rintro ⟨k, hk, hbelow, hfree, hnone, hdone, -⟩
      exact ⟨hfree, k, hk, hbelow, hnone, hdone⟩
  unfold vmmPagerHandleMapPhysical at hrun
  dsimp only at hrun
  rw [if_neg (not_or.2 ⟨Nat.not_lt.2 hin.1, Nat.not_le.2 hin.2⟩)] at hrun
  by_cases hc : d.Contains req
  · refine iff_of_true ?_ (.inl hc)
    have hle := hcontains.1 hc
    obtain ⟨status, σ', hloop, hk⟩ : ∃ status σ', vmmPagerRemapFrom r (d.target req.virtualOffset)
        req.targetPa req.flags req.pageCount 0 σ = some (status, σ') ∧ KeptAround σ σ' dirs _ _ _ :=
      vmmPagerRemapFrom_keptAround h.spaces h.dir h.current (h.target_below hle)
    rw [h.target_page (Nat.le_of_add_right_le hle), Nat.add_zero] at hk
    rw [hloop] at hrun
    exact answered_of_kept hc hrun hk (covers_of_le hle)
  · rw [or_iff_right hc, hstops]
    constructor
    · rintro ⟨reply, d', σ', hans, hconf⟩
      obtain ⟨⟨status, σ₁⟩, hloop, hres⟩ := Option.bind_eq_some_iff.1 (hrun.symm.trans hans)
      obtain ⟨rfl, hstate⟩ := Prod.mk.inj (Option.some.inj hres)
      obtain ⟨-, rfl⟩ := Prod.mk.inj hstate
      obtain ⟨hreply, -, rfl⟩ := hconf.refused hc
      obtain rfl : status = -1 := congrArg PagerReply.status hreply
      have hlo : d.target req.virtualOffset / pageSize + 0 ≤ windowPage := by
        have hb := h.below
        have hlt := hin.2
        rw [h.stop_eq] at hlt
        simp only [windowPage, recursivePde, pageEntries, pageSize, recursiveAddr] at hb hlt ⊢
        omega
      exact (vmmPagerRemapFrom_fails h.spaces h.dir h.current hlo hloop).resolve_left
        not_spoiled_self
    · rintro ⟨k, hstop⟩
      rw [vmmPagerRemapFrom_unchanged h.spaces h.dir h.current hstop] at hrun
      exact answered_of_refused hrun

end PagerOf

/-- **The requests that stay inside the range of the pager.** -/
theorem answeredInside_iff (h : PagerOf σ dirs r d) (hlaw : InLaw d req) :
    AnsweredInside σ dirs r d req ↔ KeepsInside σ dirs r d req := by
  unfold KeepsInside
  rcases hlaw with ht | ht | ht | ht | ⟨ht, hin⟩
  · rw [ht]
    exact h.free_iff ht
  · rw [ht]
    exact h.unmap_iff ht
  · rw [ht]
    exact h.protect_iff ht
  · rw [ht]
    exact h.query_iff ht
  · rw [ht]
    exact h.mapPhysical_iff ht hin

/-- A pager of region `1` with one page, at `0x400000`. -/
def onePage : Pager := ⟨0x400000, 1, 0, some 1⟩

/-- A request for `pages` pages from page `offset` on. -/
def requestAt (type : PagerRequestType) (offset pages : ℕ) : PagerRequest :=
  ⟨type, pages, pageRw, offset, 0x9000, none, 0, false, false, false⟩

theorem pagerOf_onePage : PagerOf twoRegions
    (fun e => ∃ s, (s = 1 ∨ s = 2) ∧ (twoRegions.region s).pgDir = e) 1 onePage where
  spaces := regionSet_twoRegions.spaces
  dir := ⟨1, .inl rfl, rfl⟩
  current := rfl
  region := rfl
  below := by decide

/-- To free the page at offset `2` is not refused, and to protect two pages is. -/
theorem answeredInside_iff_onePage :
    (AnsweredInside twoRegions (fun e => ∃ s, (s = 1 ∨ s = 2) ∧ (twoRegions.region s).pgDir = e) 1
      onePage (requestAt .free 2 1) ↔ KeepsInside twoRegions
        (fun e => ∃ s, (s = 1 ∨ s = 2) ∧ (twoRegions.region s).pgDir = e) 1 onePage
          (requestAt .free 2 1)) ∧
    (AnsweredInside twoRegions (fun e => ∃ s, (s = 1 ∨ s = 2) ∧ (twoRegions.region s).pgDir = e) 1
      onePage (requestAt .protect 0 2) ↔ KeepsInside twoRegions
        (fun e => ∃ s, (s = 1 ∨ s = 2) ∧ (twoRegions.region s).pgDir = e) 1 onePage
          (requestAt .protect 0 2)) :=
  ⟨answeredInside_iff pagerOf_onePage (.inl rfl),
    answeredInside_iff pagerOf_onePage (.inr (.inr (.inl rfl)))⟩

/-- `FREE` of the page at offset `2`, of a pager with one page. -/
theorem not_answeredInside : ¬ ∀ (σ : Vmm) (dirs : ℕ → Prop) (r : ℕ) (d : Pager)
    (req : PagerRequest), PagerOf σ dirs r d → InLaw d req → AnsweredInside σ dirs r d req := by
  intro hall
  have hans := hall _ _ _ _ (requestAt .free 2 1) pagerOf_onePage (.inl rfl)
  rw [pagerOf_onePage.free_iff rfl, if_neg (by decide)] at hans
  exact absurd hans (by decide)

end Flopperating
