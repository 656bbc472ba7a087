/-
# The pager

`vmm_pager_create`, `vmm_pager_destroy` and `vmm_pager_handle_request` of
`src/mem/vmm.c`, with the handler of each type of request.  A pager keeps one range
of a region as `base_va` and `size_pages`; a request names pages by their offset
from `base_va`.

| source | here |
| --- | --- |
| `vmm_pager_desc_t` | `Pager` |
| `vmm_pager_request_t` | `PagerRequest`; the response pointers are there or `NULL` |
| the returned `int` and what is stored through the response pointers | `PagerReply` |
| an access that faults, a call that never returns | `none` |

Products and sums of addresses have 32 bits.  The pager and the request are not
`NULL`.
-/

import Flopperating.Mem.Vmm

namespace Flopperating

open Vmm

/-- `vmm_pager_request_type_t`, and any other value of the field. -/
inductive PagerRequestType
  | alloc
  | free
  | mapPhysical
  | unmapPhysical
  | protect
  | query
  | copy
  | mapShared
  | identity
  | mapDirect
  | mapAnon
  | nuke
  | other
  deriving DecidableEq

/-- `vmm_pager_request_t`. -/
structure PagerRequest where
  type : PagerRequestType
  pageCount : ℕ
  flags : ℕ
  virtualOffset : ℕ
  targetPa : ℕ
  targetRegion : Option ℕ
  targetVirtualOffset : ℕ
  responsePa : Bool
  responseFlags : Bool
  responsePtr : Bool

/-- `vmm_pager_desc_t`, without the lock and the `next` pointer. -/
structure Pager where
  baseVa : ℕ
  sizePages : ℕ
  defaultFlags : ℕ
  region : Option ℕ

/-- What a request returns, and what it stores through the response pointers. -/
structure PagerReply where
  status : ℤ
  pa : Option ℕ
  flags : Option ℕ
  ptr : Option ℕ

/-- The reply of a request that stores nothing. -/
def PagerReply.of (status : ℤ) : PagerReply := ⟨status, none, none, none⟩

namespace Pager

/-- `base_va + offset * PAGE_SIZE`. -/
def target (d : Pager) (offset : ℕ) : ℕ := u32 (d.baseVa + u32 (offset * pageSize))

/-- `base_va + size_pages * PAGE_SIZE`. -/
def stop (d : Pager) : ℕ := d.target d.sizePages

/-- `pages` pages at `va` more: the first ones give the base. -/
def grow (d : Pager) (va pages : ℕ) : Pager :=
  { d with
    baseVa := if d.sizePages = 0 then va else d.baseVa
    sizePages := u32 (d.sizePages + pages) }

end Pager

/-- What a handler makes of a pager and the machine. -/
abbrev PagerResult := Option (PagerReply × Pager × Vmm)

variable (r : ℕ) (d : Pager) (req : PagerRequest) (σ : Vmm)

/-- `vmm_pager_handle_alloc`. -/
def vmmPagerHandleAlloc : PagerResult := do
  let (va, σ) ← vmmAlloc r req.pageCount req.flags σ
  if va = minusOne then return (.of (-1), d, σ)
  return (.of 0, { d.grow va req.pageCount with defaultFlags := req.flags }, σ)

/-- `vmm_pager_handle_free`. -/
def vmmPagerHandleFree : PagerResult :=
  if d.sizePages < req.pageCount then some (.of (-1), d, σ)
  else do
    let σ ← vmmFree r (d.target req.virtualOffset) req.pageCount σ
    return (.of 0, { d with sizePages := d.sizePages - req.pageCount }, σ)

/-- The second loop of `vmm_pager_handle_map_physical` from page `i` on, for `n` pages. -/
def vmmPagerRemapFrom (va pa flags : ℕ) : ℕ → ℕ → Vmm → Option (ℤ × Vmm)
  | 0, _, σ => some (0, σ)
  | n + 1, i, σ => do
    let (_, σ) ← vmmUnmap r (u32 (va + i * pageSize)) σ
    let (status, σ) ← vmmMap r (u32 (va + i * pageSize)) (u32 (pa + i * pageSize)) flags σ
    if status ≠ 0 then return (-1, σ)
    vmmPagerRemapFrom va pa flags n (i + 1) σ

/-- `vmm_pager_handle_map_physical`.  Its first loop is that of `vmm_map_range`. -/
def vmmPagerHandleMapPhysical : PagerResult :=
  let targetVa := d.target req.virtualOffset
  if targetVa < d.baseVa ∨ d.stop ≤ targetVa then do
    let va := vmmBump r σ
    let (status, σ) ← vmmMapRange r va req.targetPa req.pageCount req.flags σ
    if status ≠ 0 then return (.of (-1), d, σ)
    return (.of 0, d.grow va req.pageCount, σ.setNextFreeVa r (u32 (va + req.pageCount * pageSize)))
  else do
    let (status, σ) ← vmmPagerRemapFrom r targetVa req.targetPa req.flags req.pageCount 0 σ
    return (.of status, d, σ)

/-- The bounds test of the handlers for `UNMAP_PHYSICAL` and `PROTECT`. -/
def Pager.outOfBounds (d : Pager) (offset pages : ℕ) : Prop :=
  d.target offset < d.baseVa ∨ d.stop < u32 (d.target offset + u32 (pages * pageSize))

instance (offset pages : ℕ) : Decidable (d.outOfBounds offset pages) :=
  inferInstanceAs (Decidable (_ ∨ _))

/-- The loop of `vmm_pager_handle_unmap_physical` from page `i` on, for `n` pages. -/
def vmmPagerUnmapFrom (va : ℕ) : ℕ → ℕ → Vmm → Option Vmm
  | 0, _, σ => some σ
  | n + 1, i, σ => do
    let pa ← vmmResolve r (u32 (va + i * pageSize)) σ
    if pa ≠ 0 then
      let (_, σ) ← vmmUnmap r (u32 (va + i * pageSize)) σ
      vmmPagerUnmapFrom va n (i + 1) σ
    else vmmPagerUnmapFrom va n (i + 1) σ

/-- `vmm_pager_handle_unmap_physical`. -/
def vmmPagerHandleUnmapPhysical : PagerResult :=
  if d.outOfBounds req.virtualOffset req.pageCount then some (.of (-1), d, σ)
  else do
    let σ ← vmmPagerUnmapFrom r (d.target req.virtualOffset) req.pageCount 0 σ
    return (.of 0, d, σ)

/-- The loop of `vmm_pager_handle_protect` from page `i` on, for `n` pages. -/
def vmmPagerProtectFrom (va flags : ℕ) : ℕ → ℕ → Vmm → Option Vmm
  | 0, _, σ => some σ
  | n + 1, i, σ => do
    let pa ← vmmResolve r (u32 (va + i * pageSize)) σ
    if pa ≠ 0 then
      let (_, σ) ← vmmMap r (u32 (va + i * pageSize)) pa flags σ
      vmmPagerProtectFrom va flags n (i + 1) σ
    else vmmPagerProtectFrom va flags n (i + 1) σ

/-- `vmm_pager_handle_protect`. -/
def vmmPagerHandleProtect : PagerResult :=
  if d.outOfBounds req.virtualOffset req.pageCount then some (.of (-1), d, σ)
  else do
    let σ ← vmmPagerProtectFrom r (d.target req.virtualOffset) req.flags req.pageCount 0 σ
    return (.of 0, d, σ)

/-- `vmm_pager_handle_query`.  Without a page table the word that is read is `0`, which is
not present either. -/
def vmmPagerHandleQuery : PagerResult :=
  let targetVa := d.target req.virtualOffset
  if targetVa < d.baseVa ∨ d.stop ≤ targetVa then some (.of (-1), d, σ)
  else do
    let entry ← vmmTableWord r targetVa σ
    if present entry then
      return (⟨0, if req.responsePa then some (maskLow entry pageSize) else none,
        if req.responseFlags then some (entry % pageSize) else none, none⟩, d, σ)
    else return (.of (-1), d, σ)

/-- `vmm_pager_handle_copy`. -/
def vmmPagerHandleCopy : PagerResult := do
  match ← vmmCopyPagemap r σ with
  | (none, σ) => return (.of (-1), d, σ)
  | (some new, σ) => return (⟨0, none, none, if req.responsePtr then some new else none⟩, d, σ)

/-- `vmm_pager_handle_map_shared`. -/
def vmmPagerHandleMapShared : PagerResult :=
  match req.targetRegion with
  | none => some (.of (-1), d, σ)
  | some b => do
    let vaA := d.target req.virtualOffset
    let vaB := u32 ((σ.region b).baseVa + u32 (req.targetVirtualOffset * pageSize))
    let (status, σ) ← vmmMapShared r b vaA vaB req.targetPa req.pageCount req.flags σ
    if status < 0 then return (.of (-1), d, σ)
    return (.of 0, d.grow vaA req.pageCount, σ)

/-- `vmm_pager_handle_identity`. -/
def vmmPagerHandleIdentity : PagerResult := do
  let (status, σ) ← vmmMapRange r req.targetPa req.targetPa req.pageCount req.flags σ
  return (.of (if status < 0 then -1 else 0), d, σ)

/-- `vmm_pager_handle_map_direct`.  The loop of `vmm_map_direct` is that of
`vmm_identity_map`. -/
def vmmPagerHandleMapDirect : PagerResult := do
  let (status, σ) ← vmmMapRange r req.targetPa req.targetPa req.pageCount req.flags σ
  return (.of (if status < 0 then -1 else 0), d, σ)

/-- `vmm_pager_handle_map_anon`. -/
def vmmPagerHandleMapAnon : PagerResult := do
  let (va, σ) ← vmmMapAnonymous r req.pageCount req.flags σ
  if va = 0 then return (.of (-1), d, σ)
  return (⟨0, if req.responsePa then some va else none, none, none⟩, d.grow va req.pageCount, σ)

/-- `vmm_pager_handle_nuke`. -/
def vmmPagerHandleNuke : PagerResult := do
  let σ ← vmmNukePagemap r σ
  return (.of 0, { d with region := none, baseVa := 0, sizePages := 0 }, σ)

/-- `vmm_pager_handle_request`. -/
def vmmPagerHandleRequest : PagerResult :=
  match d.region with
  | none => some (.of (-1), d, σ)
  | some r =>
    match req.type with
    | .alloc => vmmPagerHandleAlloc r d req σ
    | .free => vmmPagerHandleFree r d req σ
    | .mapPhysical => vmmPagerHandleMapPhysical r d req σ
    | .unmapPhysical => vmmPagerHandleUnmapPhysical r d req σ
    | .protect => vmmPagerHandleProtect r d req σ
    | .query => vmmPagerHandleQuery r d req σ
    | .copy => vmmPagerHandleCopy r d req σ
    | .mapShared => vmmPagerHandleMapShared r d req σ
    | .identity => vmmPagerHandleIdentity r d req σ
    | .mapDirect => vmmPagerHandleMapDirect r d req σ
    | .mapAnon => vmmPagerHandleMapAnon r d req σ
    | .nuke => vmmPagerHandleNuke r d σ
    | .other => some (.of (-1), d, σ)

/-- `vmm_pager_create`. -/
def vmmPagerCreate (r : ℕ) : Pager := ⟨0, 0, 0, some r⟩

/-- `vmm_pager_destroy`, up to the `kfree` of the descriptor. -/
def vmmPagerDestroy : Option Vmm :=
  match d.region with
  | none => some σ
  | some r => if d.baseVa ≠ 0 ∧ d.sizePages > 0 then vmmFree r d.baseVa d.sizePages σ else some σ

end Flopperating
