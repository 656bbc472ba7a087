/-
# The memory system calls

`sys_mmap`, `sys_munmap`, `sys_mremap` and `sys_mprotect` of `src/sys/syscall.c`.

| source | here |
| --- | --- |
| `struct syscall_args` | `SyscallArgs` |
| what the calls read of `process_t` | `MemProc` |
| `sys_mmap_internal_rb`, `sys_munmap_internal_free_phys` | `sysMmapInternalRb`, `sysMunmapInternalFreePhys` |
| `sys_mmap_internal_alloc`, `sys_internal_mremap_expand` | `sysMmapInternalAlloc`, `sysInternalMremapExpand` |
| `return -1` | `minusOne` |

Addresses and lengths are 32-bit words.  A loop `for (va = start; va < end; va += PAGE_SIZE)`
is over `pagesBetween start end` pages: in every loop of these calls `end - start` is a
number of pages, so `va` meets `end` without passing it.

Each call comes down to one loop over a range of pages (`MemCall.action`); the laws of
the calls are laws of these loops.
-/

import Flopperating.Mem.VmmLeak

namespace Flopperating

open Vmm

/-- `struct syscall_args`: what the caller has in five registers. -/
structure SyscallArgs where
  a1 : ℕ
  a2 : ℕ
  a3 : ℕ
  a4 : ℕ
  a5 : ℕ
  word : a1 < 2 ^ 32 ∧ a2 < 2 ^ 32 ∧ a3 < 2 ^ 32 ∧ a4 < 2 ^ 32 ∧ a5 < 2 ^ 32

/-- `MAX_PROC_FDS`. -/
abbrev maxProcFds : ℕ := 128

/-- What the calls read of the process: the region, and for a descriptor whose node is
there and can be sought to an offset, what `vfs_read` and the zeroing after it leave in
each page. -/
structure MemProc where
  region : Option ℕ
  file : ℕ → ℕ → Option (ℕ → ℕ → ℕ)

/-- The pages of a loop from `start` on, up to `stop`. -/
def pagesBetween (start stop : ℕ) : ℕ := (stop - start + (pageSize - 1)) / pageSize

/-! ### Loops over pages -/

/-- The loop that unmaps and frees what it finds, from page `i` on, for `n` pages. -/
def sysFreeFrom (r start : ℕ) : ℕ → ℕ → Vmm → Option Vmm
  | 0, _, σ => some σ
  | n + 1, i, σ =>
    (vmmResolve r (u32 (start + i * pageSize)) σ).bind fun phys =>
      if phys ≠ 0 then
        (vmmUnmap r (u32 (start + i * pageSize)) σ).bind fun o =>
          sysFreeFrom r start n (i + 1) (o.2.freePage phys)
      else sysFreeFrom r start n (i + 1) σ

/-- `sys_mmap_internal_rb`. -/
def sysMmapInternalRb (r start stop : ℕ) (σ : Vmm) : Option Vmm :=
  sysFreeFrom r start (pagesBetween start stop) 0 σ

/-- `sys_munmap_internal_free_phys`. -/
def sysMunmapInternalFreePhys (r start stop : ℕ) (σ : Vmm) : Option Vmm :=
  sysFreeFrom r start (pagesBetween start stop) 0 σ

/-- The loop that maps new pages from page `i` on, for `n` pages, and rolls back when there
is none; page `i` gets the words `data i`. -/
def sysGrowFrom (data : ℕ → ℕ → ℕ) (r start flags : ℕ) : ℕ → ℕ → Vmm → Option (ℤ × Vmm)
  | 0, _, σ => some (0, σ)
  | n + 1, i, σ =>
    let (physPage, σ) := σ.allocPage
    if physPage = 0 then
      (sysMmapInternalRb r start (u32 (start + i * pageSize)) σ).map fun σ => (-1, σ)
    else
      let σ := { σ with mem := Function.update σ.mem physPage (data i) }
      (vmmMap r (u32 (start + i * pageSize)) physPage flags σ).bind fun o =>
        sysGrowFrom data r start flags n (i + 1) o.2

/-- The loop that asks whether every page resolves, from page `i` on, for `n` pages. -/
def sysResolvedFrom (r start : ℕ) (σ : Vmm) : ℕ → ℕ → Option Bool
  | 0, _ => some true
  | n + 1, i =>
    (vmmResolve r (u32 (start + i * pageSize)) σ).bind fun phys =>
      if phys = 0 then some false else sysResolvedFrom r start σ n (i + 1)

/-- The loop over `vmm_protect` from page `i` on, for `n` pages. -/
def sysProtectFrom (r start flags : ℕ) : ℕ → ℕ → Vmm → Option Vmm
  | 0, _, σ => some σ
  | n + 1, i, σ =>
    (vmmProtect r (u32 (start + i * pageSize)) flags σ).bind fun o =>
      sysProtectFrom r start flags n (i + 1) o.2

/-! ### `sys_mmap` -/

/-- `sys_mmap_internal_alloc`; without a node the pages are zeroed. -/
def sysMmapInternalAlloc (r base length flags : ℕ) (node : Option (ℕ → ℕ → ℕ)) (σ : Vmm) :
    Option (ℤ × Vmm) :=
  sysGrowFrom (node.getD fun _ _ => 0) r base flags (pagesBetween base (u32 (base + length))) 0 σ

/-- `sys_mmap_internal_get_va`, for pointers that are not `NULL`. -/
def sysMmapInternalGetVa (r requested length : ℕ) (σ : Vmm) : Option (Option ℕ) :=
  if requested = 0 then
    (vmmFindFreeRange r length σ).map fun found => if found = 0 then none else some found
  else if requested % pageSize ≠ 0 then some none
  else some (some requested)

/-- `sys_mmap_internal_find_and_seek`. -/
def sysMmapInternalFindAndSeek (proc : MemProc) (fd : ℤ) (offset : ℕ) : Option (ℕ → ℕ → ℕ) :=
  if fd < 0 ∨ fd ≥ maxProcFds then none else proc.file fd.toNat offset

/-- `sys_mmap`. -/
def sysMmap (proc : MemProc) (args : SyscallArgs) (σ : Vmm) : Option (ℕ × Vmm) :=
  if args.a1 = 0 ∨ args.a2 = 0 ∨ args.a3 = 0 ∨ args.a4 = 0 ∨ args.a5 = 0 then some (minusOne, σ)
  else
    let len := alignUp args.a2 pageSize
    match proc.region with
    | none => some (minusOne, σ)
    | some r =>
      let fd := toInt args.a4
      let node := sysMmapInternalFindAndSeek proc fd args.a5
      if fd ≥ 0 ∧ node = none then some (minusOne, σ)
      else
        (sysMmapInternalGetVa r args.a1 len σ).bind fun va =>
          match va with
          | none => some (minusOne, σ)
          | some start => (sysMmapInternalAlloc r start len args.a3 node σ).map fun o =>
              (if o.1 < 0 then minusOne else start, o.2)

/-! ### `sys_mremap` -/

/-- `sys_internal_mremap_shrink`. -/
def sysInternalMremapShrink (r addr oldLen newLen : ℕ) (σ : Vmm) : Option (ℕ × Vmm) :=
  (sysMmapInternalRb r (u32 (addr + newLen)) (u32 (addr + oldLen)) σ).map fun σ => (addr, σ)

/-- `sys_internal_mremap_expand`. -/
def sysInternalMremapExpand (r addr oldLen newLen flags : ℕ) (σ : Vmm) : Option (ℕ × Vmm) :=
  let start := u32 (addr + oldLen)
  (sysGrowFrom (fun _ _ => 0) r start flags (pagesBetween start (u32 (addr + newLen))) 0 σ).map fun o =>
    (if o.1 < 0 then minusOne else addr, o.2)

/-- `sys_mremap`. -/
def sysMremap (proc : MemProc) (args : SyscallArgs) (σ : Vmm) : Option (ℕ × Vmm) :=
  if args.a1 = 0 ∨ args.a2 = 0 ∨ args.a3 = 0 ∨ args.a4 = 0 ∨ args.a5 ≠ 0 then some (minusOne, σ)
  else
    let oldLen := alignUp args.a2 pageSize
    let newLen := alignUp args.a3 pageSize
    match proc.region with
    | none => some (minusOne, σ)
    | some r =>
      if newLen = oldLen then some (args.a1, σ)
      else if newLen < oldLen then sysInternalMremapShrink r args.a1 oldLen newLen σ
      else sysInternalMremapExpand r args.a1 oldLen newLen args.a4 σ

/-! ### `sys_munmap` and `sys_mprotect` -/

/-- `sys_munmap_internal_unmap_range`. -/
def sysMunmapInternalUnmapRange (r addr len : ℕ) (σ : Vmm) : Option (ℕ × Vmm) :=
  let stop := u32 (addr + len)
  (sysResolvedFrom r addr σ (pagesBetween addr stop) 0).bind fun all =>
    if all then (sysMunmapInternalFreePhys r addr stop σ).map fun σ => (0, σ)
    else some (minusOne, σ)

/-- `sys_munmap`. -/
def sysMunmap (proc : MemProc) (args : SyscallArgs) (σ : Vmm) : Option (ℕ × Vmm) :=
  if args.a1 = 0 ∨ args.a2 = 0 ∨ args.a3 ≠ 0 ∨ args.a4 ≠ 0 ∨ args.a5 ≠ 0 then some (minusOne, σ)
  else
    match proc.region with
    | none => some (minusOne, σ)
    | some r =>
      if args.a1 % pageSize ≠ 0 then some (minusOne, σ)
      else sysMunmapInternalUnmapRange r args.a1 (alignUp args.a2 pageSize) σ

/-- `sys_mprotect`. -/
def sysMprotect (proc : MemProc) (args : SyscallArgs) (σ : Vmm) : Option (ℕ × Vmm) :=
  if args.a1 = 0 ∨ args.a2 = 0 ∨ args.a3 = 0 ∨ args.a4 ≠ 0 ∨ args.a5 ≠ 0 then some (minusOne, σ)
  else
    match proc.region with
    | none => some (minusOne, σ)
    | some r =>
      if args.a1 % pageSize ≠ 0 then some (minusOne, σ)
      else
        let n := pagesBetween args.a1 (u32 (args.a1 + alignUp args.a2 pageSize))
        (sysResolvedFrom r args.a1 σ n 0).bind fun all =>
          if all then (sysProtectFrom r args.a1 args.a3 n 0 σ).map fun σ => (0, σ)
          else some (minusOne, σ)

/-! ### The calls as actions on a range -/

/-- A memory system call. -/
inductive MemCall
  | mmap (args : SyscallArgs)
  | munmap (args : SyscallArgs)
  | mremap (args : SyscallArgs)
  | mprotect (args : SyscallArgs)

/-- What a call does: nothing, or one of the loops, over `n` pages from `start` on. -/
inductive MemAction
  | nothing (value : ℕ)
  | shrink (value start n : ℕ)
  | unmap (start n : ℕ)
  | protect (start n flags : ℕ)
  | grow (data : ℕ → ℕ → ℕ) (value start n flags : ℕ)

namespace MemAction

def run (r : ℕ) : MemAction → Vmm → Option (ℕ × Vmm)
  | nothing value, σ => some (value, σ)
  | shrink value start n, σ => (sysFreeFrom r start n 0 σ).map fun σ => (value, σ)
  | unmap start n, σ => (sysResolvedFrom r start σ n 0).bind fun all =>
      if all then (sysFreeFrom r start n 0 σ).map fun σ => (0, σ) else some (minusOne, σ)
  | protect start n flags, σ => (sysResolvedFrom r start σ n 0).bind fun all =>
      if all then (sysProtectFrom r start flags n 0 σ).map fun σ => (0, σ) else some (minusOne, σ)
  | grow data value start n flags, σ => (sysGrowFrom data r start flags n 0 σ).map fun o =>
      (if o.1 < 0 then minusOne else value, o.2)

/-- The range of the action does not pass the end of the address space. -/
def Fits : MemAction → Prop
  | nothing _ => True
  | shrink _ start n | unmap start n | protect start n _ | grow _ _ start n _ =>
    start + n * pageSize < 2 ^ 32

end MemAction

namespace MemCall

def run (proc : MemProc) : MemCall → Vmm → Option (ℕ × Vmm)
  | mmap args => sysMmap proc args
  | munmap args => sysMunmap proc args
  | mremap args => sysMremap proc args
  | mprotect args => sysMprotect proc args

/-- The action of a call on the region of the process. -/
def action (proc : MemProc) : MemCall → MemAction
  | mmap args =>
    let node := sysMmapInternalFindAndSeek proc (toInt args.a4) args.a5
    if args.a1 = 0 ∨ args.a2 = 0 ∨ args.a3 = 0 ∨ args.a4 = 0 ∨ args.a5 = 0 ∨
      (toInt args.a4 ≥ 0 ∧ node = none) ∨ args.a1 % pageSize ≠ 0 then .nothing minusOne
    else .grow (node.getD fun _ _ => 0) args.a1 args.a1
      (pagesBetween args.a1 (u32 (args.a1 + alignUp args.a2 pageSize))) args.a3
  | munmap args =>
    if args.a1 = 0 ∨ args.a2 = 0 ∨ args.a3 ≠ 0 ∨ args.a4 ≠ 0 ∨ args.a5 ≠ 0 ∨ args.a1 % pageSize ≠ 0 then
      .nothing minusOne
    else .unmap args.a1 (pagesBetween args.a1 (u32 (args.a1 + alignUp args.a2 pageSize)))
  | mremap args =>
    let oldEnd := u32 (args.a1 + alignUp args.a2 pageSize)
    let newEnd := u32 (args.a1 + alignUp args.a3 pageSize)
    if args.a1 = 0 ∨ args.a2 = 0 ∨ args.a3 = 0 ∨ args.a4 = 0 ∨ args.a5 ≠ 0 then .nothing minusOne
    else if alignUp args.a3 pageSize = alignUp args.a2 pageSize then .nothing args.a1
    else if alignUp args.a3 pageSize < alignUp args.a2 pageSize then .shrink args.a1 newEnd (pagesBetween newEnd oldEnd)
    else .grow (fun _ _ => 0) args.a1 oldEnd (pagesBetween oldEnd newEnd) args.a4
  | mprotect args =>
    if args.a1 = 0 ∨ args.a2 = 0 ∨ args.a3 = 0 ∨ args.a4 ≠ 0 ∨ args.a5 ≠ 0 ∨ args.a1 % pageSize ≠ 0 then
      .nothing minusOne
    else .protect args.a1 (pagesBetween args.a1 (u32 (args.a1 + alignUp args.a2 pageSize))) args.a3

end MemCall

variable {proc : MemProc} {r start stop x y len n : ℕ} {σ : Vmm}

theorem dvd_alignUp (x : ℕ) : pageSize ∣ alignUp x pageSize := pageSize_dvd_maskLow _

/-- The pages between two words a number of pages apart end at the second one. -/
theorem pagesBetween_fits (hstart : start < 2 ^ 32) (hstop : stop < 2 ^ 32)
    (h : start ≤ stop → pageSize ∣ stop - start) : start + pagesBetween start stop * pageSize < 2 ^ 32 := by
  rcases Nat.lt_or_ge stop start with hlt | hle
  · have hzero : pagesBetween start stop = 0 := by
      rw [pagesBetween, Nat.sub_eq_zero_of_le hlt.le]
      rfl
    rw [hzero, Nat.zero_mul, Nat.add_zero]
    exact hstart
  · obtain ⟨k, hk⟩ := h hle
    have hpages : pagesBetween start stop = k := by
      rw [pagesBetween, hk]
      simp only [pageSize]
      omega
    rw [hpages]
    simp only [pageSize] at *
    omega

theorem dvd_sub_u32 (hx : pageSize ∣ x) (hy : pageSize ∣ y) (hle : u32 (start + x) ≤ u32 (start + y)) :
    pageSize ∣ u32 (start + y) - u32 (start + x) := by
  obtain ⟨k, rfl⟩ := hx
  obtain ⟨m, rfl⟩ := hy
  simp only [u32, pageSize] at *
  omega

theorem pagesBetween_u32_fits (hx : pageSize ∣ x) (hy : pageSize ∣ y) :
    u32 (start + x) + pagesBetween (u32 (start + x)) (u32 (start + y)) * pageSize < 2 ^ 32 :=
  pagesBetween_fits (u32_lt _) (u32_lt _) (dvd_sub_u32 hx hy)

theorem pagesBetween_start_fits (hstart : start < 2 ^ 32) (hy : pageSize ∣ y) :
    start + pagesBetween start (u32 (start + y)) * pageSize < 2 ^ 32 := by
  have h : u32 (start + 0) + pagesBetween (u32 (start + 0)) (u32 (start + y)) * pageSize < 2 ^ 32 :=
    pagesBetween_u32_fits (Nat.dvd_zero pageSize) hy
  rwa [Nat.add_zero, u32_of_lt hstart] at h

theorem MemCall.action_fits (c : MemCall) : (c.action proc).Fits := by
  cases c with
  | mmap args =>
    rw [action]
    split
    · trivial
    · exact pagesBetween_start_fits args.word.1 (dvd_alignUp _)
  | munmap args =>
    rw [action]
    split
    · trivial
    · exact pagesBetween_start_fits args.word.1 (dvd_alignUp _)
  | mremap args =>
    rw [action]
    split
    · trivial
    · split
      · trivial
      · split
        · exact pagesBetween_u32_fits (dvd_alignUp _) (dvd_alignUp _)
        · exact pagesBetween_u32_fits (dvd_alignUp _) (dvd_alignUp _)
  | mprotect args =>
    rw [action]
    split
    · trivial
    · exact pagesBetween_start_fits args.word.1 (dvd_alignUp _)

/-- A process without a region gets `-1`. -/
theorem MemCall.run_none (h : proc.region = none) (c : MemCall) : c.run proc σ = some (minusOne, σ) := by
  cases c with
  | mmap args => simp [run, sysMmap, h]
  | munmap args => simp [run, sysMunmap, h]
  | mremap args => simp [run, sysMremap, h]
  | mprotect args => simp [run, sysMprotect, h]

/-- **A call is its action.** -/
theorem MemCall.run_action (h : proc.region = some r) (c : MemCall) :
    c.run proc σ = (c.action proc).run r σ := by
  cases c with
  | mmap args =>
    rw [run, sysMmap, action, h]
    split
    · next hzero =>
      rw [if_pos (by tauto)]
      rfl
    · next hzero =>
      simp only [not_or] at hzero
      dsimp only
      split
      · next hnode =>
        rw [if_pos (by tauto)]
        rfl
      · next hnode =>
        rw [sysMmapInternalGetVa, if_neg hzero.1]
        split
        · next hdvd =>
          rw [if_pos (by tauto)]
          rfl
        · next hdvd =>
          rw [if_neg (by tauto)]
          rfl
  | munmap args =>
    rw [run, sysMunmap, action, h]
    split
    · rw [if_pos (by tauto)]
      rfl
    · dsimp only
      split
      · rw [if_pos (by tauto)]
        rfl
      · rw [if_neg (by tauto)]
        rfl
  | mremap args =>
    rw [run, sysMremap, action, h]
    split
    · rfl
    · dsimp only
      split
      · rfl
      · split
        · rw [sysInternalMremapShrink, sysMmapInternalRb]
          rfl
        · rfl
  | mprotect args =>
    rw [run, sysMprotect, action, h]
    split
    · rw [if_pos (by tauto)]
      rfl
    · dsimp only
      split
      · rw [if_pos (by tauto)]
        rfl
      · rw [if_neg (by tauto)]
        rfl

end Flopperating
