/-
# Class allocations

The class allocator of `src/mem/vmm.c`: a region has four classes, each a window
of addresses with a sorted list of the areas handed out in it.

| source | here |
| --- | --- |
| `cls->vma_head`, `area->next`, `area->prev` | `AllocClass.vmaHead`, `Area.next`, `Area.prev` |
| `vmm_insert_area`, `vmm_remove_area` | `vmmInsertArea`, `vmmRemoveArea` |
| the loop of `vmm_find_fit` | `vmmFitFrom` |
| `vmm_map_pages` | `vmmMapPages`, on the loop of the other allocators |

A walk over a list is given `vmmSteps` steps, and is `none` when they do not
suffice.
-/

import Flopperating.Data.DoublyLinked
import Flopperating.Mem.VmmIsolation

namespace Flopperating

namespace Vmm

/-- Overwrite one area descriptor. -/
def setArea (p : ℕ) (v : Area) (σ : Vmm) : Vmm := { σ with area := Function.update σ.area p v }

/-- `area->next = q`. -/
def setAreaNext (p : ℕ) (q : Option ℕ) (σ : Vmm) : Vmm := σ.setArea p { σ.area p with next := q }

/-- `area->prev = q`. -/
def setAreaPrev (p : ℕ) (q : Option ℕ) (σ : Vmm) : Vmm := σ.setArea p { σ.area p with prev := q }

/-- Overwrite one class descriptor. -/
def setClass (c : ℕ) (v : AllocClass) (σ : Vmm) : Vmm :=
  { σ with allocClass := Function.update σ.allocClass c v }

/-- `cls->vma_head = p`. -/
def setVmaHead (c : ℕ) (p : Option ℕ) (σ : Vmm) : Vmm :=
  σ.setClass c { σ.allocClass c with vmaHead := p }

/-- `cls->hint_ptr = va`. -/
def setHintPtr (c va : ℕ) (σ : Vmm) : Vmm := σ.setClass c { σ.allocClass c with hintPtr := va }

end Vmm

open Vmm

/-! ### Windows -/

/-- `vmm_internal_validator_dma`. -/
def vmmInternalValidatorDma (base size : ℕ) : Bool := !(u32 (base + size) > 0x01000000)

/-- `vmm_internal_validator_kernel`. -/
def vmmInternalValidatorKernel (base size : ℕ) : Bool :=
  if base < userSpaceEnd + 1 then false
  else if u32 (base + size) > recursiveAddr then false
  else true

/-- The `configs` of `vmm_classes_init`. -/
def classConfigs : List ClassConfig :=
  [⟨.kernel, 0xC0000000, 0xFFFFFFFF, pagePresent ||| pageRw, pageSize,
      some vmmInternalValidatorKernel⟩,
    ⟨.user, userSpaceStart, userSpaceEnd, pagePresent ||| pageRw ||| pageUser, pageSize, none⟩,
    ⟨.dma, 0x1000, 0x01000000, pagePresent ||| pageRw, 0x10000, some vmmInternalValidatorDma⟩,
    ⟨.mmio, 0xF0000000, 0xF8000000, pagePresent ||| pageRw, pageSize, none⟩]

/-! ### The lists of areas -/

/-- The walk of `vmm_insert_area` to the area that the new one comes behind. -/
def vmmInsertSeek (start : ℕ) (σ : Vmm) : ℕ → ℕ → Option ℕ
  | 0, _ => none
  | steps + 1, iter =>
    match (σ.area iter).next with
    | none => some iter
    | some next =>
      if (σ.area next).start < start then vmmInsertSeek start σ steps next else some iter

/-- `vmm_insert_area`. -/
def vmmInsertArea (c start size : ℕ) (σ : Vmm) : Option (ℤ × Vmm) :=
  match σ.kmalloc with
  | (none, σ) => some (-1, σ)
  | (some newArea, σ) =>
    let σ := σ.setArea newArea ⟨start, size, none, none⟩
    match (σ.allocClass c).vmaHead with
    | none => some (0, σ.setVmaHead c (some newArea))
    | some head =>
      if start < (σ.area head).start then
        let σ := (σ.setAreaNext newArea (some head)).setAreaPrev head (some newArea)
        some (0, σ.setVmaHead c (some newArea))
      else do
        let iter ← vmmInsertSeek start σ vmmSteps head
        let σ := (σ.setAreaNext newArea (σ.area iter).next).setAreaPrev newArea (some iter)
        let σ :=
          match (σ.area iter).next with
          | none => σ
          | some next => σ.setAreaPrev next (some newArea)
        return (0, σ.setAreaNext iter (some newArea))

/-- The walk of `vmm_remove_area` to the area that starts at `start`. -/
def vmmRemoveSeek (start : ℕ) (σ : Vmm) : ℕ → Option ℕ → Option (Option ℕ)
  | 0, _ => none
  | _ + 1, none => some none
  | steps + 1, some iter =>
    if (σ.area iter).start = start then some (some iter)
    else vmmRemoveSeek start σ steps (σ.area iter).next

/-- `vmm_remove_area`. -/
def vmmRemoveArea (c start : ℕ) (σ : Vmm) : Option Vmm := do
  match ← vmmRemoveSeek start σ vmmSteps (σ.allocClass c).vmaHead with
  | none => return σ
  | some iter =>
    let σ :=
      match (σ.area iter).prev with
      | some prev => σ.setAreaNext prev (σ.area iter).next
      | none => σ.setVmaHead c (σ.area iter).next
    let σ :=
      match (σ.area iter).next with
      | some next => σ.setAreaPrev next (σ.area iter).prev
      | none => σ
    return σ.kfree iter

/-! ### The classes of a region -/

/-- The walk of `vmm_class_get`. -/
def vmmClassSeek (type : VmClass) (σ : Vmm) : ℕ → Option ℕ → Option (Option ℕ)
  | 0, _ => none
  | _ + 1, none => some none
  | steps + 1, some iter =>
    if (σ.allocClass iter).config.type = type then some (some iter)
    else vmmClassSeek type σ steps (σ.allocClass iter).next

/-- `vmm_class_get`. -/
def vmmClassGet (r : ℕ) (type : VmClass) (σ : Vmm) : Option (Option ℕ) :=
  vmmClassSeek type σ vmmSteps (σ.region r).classList

/-- `vmm_class_register`. -/
def vmmClassRegister (r : ℕ) (config : ClassConfig) (σ : Vmm) : Option (ℤ × Vmm) := do
  match ← vmmClassGet r config.type σ with
  | some _ => return (-1, σ)
  | none =>
    match σ.kmalloc with
    | (none, σ) => return (-1, σ)
    | (some newClass, σ) =>
      let σ := σ.setClass newClass ⟨config, none, config.start, (σ.region r).classList⟩
      return (0, σ.setRegion r { σ.region r with classList := some newClass })

/-- `vmm_class_register` of each of `configs`. -/
def vmmRegisterAll (r : ℕ) : List ClassConfig → Vmm → Option Vmm
  | [], σ => some σ
  | config :: configs, σ => do
    let (_, σ) ← vmmClassRegister r config σ
    vmmRegisterAll r configs σ

/-- `vmm_classes_init`. -/
def vmmClassesInit (r : ℕ) (σ : Vmm) : Option Vmm :=
  vmmRegisterAll r classConfigs (σ.setRegion r { σ.region r with classList := none })

/-! ### Allocation -/

/-- `vmm_align_address`. -/
def vmmAlignAddress (addr align : ℕ) : ℕ :=
  if align ≤ pageSize then addr else u32 (addr + (align - 1)) &&& (2 ^ 32 - 1 - (align - 1))

/-- The areas that `vmm_find_fit` skips at first. -/
def vmmSkipAreas (candidate : ℕ) (σ : Vmm) : ℕ → Option ℕ → Option (Option ℕ)
  | 0, _ => none
  | _ + 1, none => some none
  | steps + 1, some curr =>
    if u32 ((σ.area curr).start + (σ.area curr).size) ≤ candidate then
      vmmSkipAreas candidate σ steps (σ.area curr).next
    else some (some curr)

/-- `cls->config.validator(candidate, size)`, if there is a validator. -/
def ClassConfig.valid (config : ClassConfig) (candidate size : ℕ) : Bool :=
  match config.validator with
  | none => true
  | some validator => validator candidate size

/-- The loop of `vmm_find_fit`. -/
def vmmFitFrom (c size : ℕ) (σ : Vmm) : ℕ → ℕ → Option ℕ → Bool → Option ℕ
  | 0, _, _, _ => none
  | steps + 1, candidate, curr, wrapped =>
    let config := (σ.allocClass c).config
    let gapEnd :=
      match curr with
      | some curr => (σ.area curr).start
      | none => config.stop
    if u32 (candidate + size) ≤ gapEnd then
      if config.valid candidate size then some candidate
      else
        vmmFitFrom c size σ steps (vmmAlignAddress (u32 (candidate + pageSize)) config.align) curr
          wrapped
    else
      match curr with
      | some curr =>
        vmmFitFrom c size σ steps
          (vmmAlignAddress (u32 ((σ.area curr).start + (σ.area curr).size)) config.align)
          (σ.area curr).next wrapped
      | none =>
        if wrapped then some 0
        else
          vmmFitFrom c size σ steps (vmmAlignAddress config.start config.align)
            (σ.allocClass c).vmaHead true

/-- `vmm_find_fit`. -/
def vmmFindFit (c size : ℕ) (σ : Vmm) : Option ℕ := do
  let config := (σ.allocClass c).config
  let candidate := vmmAlignAddress (σ.allocClass c).hintPtr config.align
  let candidate :=
    if candidate < config.start ∨ u32 (candidate + size) > config.stop
    then vmmAlignAddress config.start config.align else candidate
  let curr ← vmmSkipAreas candidate σ vmmSteps (σ.allocClass c).vmaHead
  vmmFitFrom c size σ vmmSteps candidate curr false

/-- `vmm_map_pages`. -/
def vmmMapPages (r c base pages : ℕ) (σ : Vmm) : Option (ℤ × Vmm) := do
  match ← vmmMapFresh true r base (σ.allocClass c).config.flags pages 0 σ with
  | (.noPage i, σ) => do
    let (_, σ) ← vmmUnmapRange r base i σ
    return (-1, σ)
  | (.noTable i pa, σ) => do
    let (_, σ) ← vmmUnmapRange r base i (σ.freePage pa)
    return (-1, σ)
  | (.done, σ) => return (0, σ)

/-- `vmm_class_alloc`. -/
def vmmClassAlloc (r : ℕ) (type : VmClass) (pages : ℕ) (σ : Vmm) : Option (ℕ × Vmm) := do
  match ← vmmClassGet r type σ with
  | none => return (0, σ)
  | some c => do
    let size := u32 (pages * pageSize)
    let va ← vmmFindFit c size σ
    if va = 0 then return (0, σ)
    let (status, σ) ← vmmInsertArea c va size σ
    if status ≠ 0 then return (0, σ)
    let (status, σ) ← vmmMapPages r c va pages σ
    if status ≠ 0 then
      let σ ← vmmRemoveArea c va σ
      return (0, σ)
    return (va, σ.setHintPtr c (u32 (va + size)))

/-- `vmm_alloc_kernel`. -/
def vmmAllocKernel (r pages : ℕ) (σ : Vmm) : Option (ℕ × Vmm) := vmmClassAlloc r .kernel pages σ

/-- `vmm_alloc_user`. -/
def vmmAllocUser (r pages : ℕ) (σ : Vmm) : Option (ℕ × Vmm) := vmmClassAlloc r .user pages σ

/-- `vmm_alloc_dma`. -/
def vmmAllocDma (r pages : ℕ) (σ : Vmm) : Option (ℕ × Vmm) := vmmClassAlloc r .dma pages σ

/-- `vmm_alloc_mmio`. -/
def vmmAllocMmio (r pages : ℕ) (σ : Vmm) : Option (ℕ × Vmm) := vmmClassAlloc r .mmio pages σ

end Flopperating
