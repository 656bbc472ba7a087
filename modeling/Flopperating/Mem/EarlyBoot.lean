/-
# The early pool at boot

`init_stage_early` of `src/init/init.c`, and `early_bootstrap`, `early_release_page` and
`early_allocator_destroy` of `src/mem/early.c`.  The pool should be pages that `early_reserve_page`
has returned, and `early_allocator_destroy` should clear and release them (`PoolReal`).  The second
is so for any pool that is (`poolReal_iff`).

But `init_stage_early` calls `early_allocator_init` before `early_bootstrap`, so there is no memory
map yet and all calls of `early_reserve_page` fail: the pool is at `NULL`, whatever the map
(`initStageEarly_pool`).
-/

import Flopperating.Mem.EarlyRuns

namespace Flopperating

open ByteMemory

/-- `early_bootstrap`. -/
def earlyBootstrap (mb : MultibootInfo) (σ : Early) : Early := { σ with mbInfo := some mb }

/-- `early_release_page`, of the array of reserved pages: the last one takes the place of `p`. -/
def earlyReleasePage (p : ℕ) (reserved : List ℕ) : List ℕ :=
  if p = 0 then reserved
  else if p ∈ reserved then (reserved.set (reserved.idxOf p) (reserved.getLastD 0)).dropLast
  else reserved

/-- `early_info`, with the other globals of `early.c`. -/
structure EarlyInfo where
  early : Early
  bitmap : List (BitVec 8)
  blocksTotal : ℕ
  blocksFree : ℕ

/-- The loop of `early_allocator_destroy` over `n` pages from `p` on. -/
def earlyDestroyPages : ℕ → ℕ → Early → Early
  | 0, _, σ => σ
  | n + 1, p, σ => earlyDestroyPages n (u32 (p + pageSize))
      { σ with memory := fill σ.memory p 0 pageSize, reserved := earlyReleasePage p σ.reserved }

/-- `early_allocator_destroy`. -/
def earlyAllocatorDestroy (σ : EarlyInfo) : EarlyInfo :=
  if σ.early.initialized = false then σ
  else
    { early := { earlyDestroyPages earlyPoolPages σ.early.poolBase σ.early with poolBase := 0, initialized := false }
      bitmap := σ.bitmap.map fun _ => 0
      blocksTotal := 0
      blocksFree := 0 }

/-- `init_stage_early`, as far as the allocator goes. -/
def initStageEarly (mb : MultibootInfo) (σ : EarlyInfo) : Option EarlyInfo :=
  (earlyAllocatorInit σ.early).map fun early => { σ with early := earlyBootstrap mb early }

/-- The globals of the kernel when it is started. -/
def earlyImage (memory : Memory) : EarlyInfo := ⟨⟨memory, none, [], 0, 0, false⟩, List.replicate 64 0, 0, 0⟩

/-! ### A real pool -/

/-- A page of a region that is available. -/
def AvailablePage (mb : MultibootInfo) (p : ℕ) : Prop :=
  pageSize ∣ p ∧ ∃ e ∈ mb.entries, e.type = multibootMemoryAvailable ∧ e.addr ≤ p ∧ p + pageSize ≤ e.addr + e.len

/-- The map has as many available pages as the allocator asks for. -/
def EnoughPages (mb : MultibootInfo) : Prop :=
  ∃ pages : List ℕ, pages.Nodup ∧ pages.length = earlyPagesTotal ∧ ∀ p ∈ pages, AvailablePage mb p

/-- The pages of the pool were returned by `early_reserve_page`, of available memory, and
`early_allocator_destroy` clears them and nothing else, and releases them and no others. -/
structure PoolReal (mb : MultibootInfo) (σ : EarlyInfo) : Prop where
  in_memory : σ.early.poolBase + earlyPoolSize ≤ 2 ^ 32
  reserved : ∀ p ∈ poolPages σ.early.poolBase, p ∈ σ.early.reserved
  available : ∀ p ∈ poolPages σ.early.poolBase, AvailablePage mb p
  cleared : ∀ x, (earlyAllocatorDestroy σ).early.memory x =
    if σ.early.poolBase ≤ x ∧ x < σ.early.poolBase + earlyPoolSize then 0 else σ.early.memory x
  released : ∀ p, p ∈ (earlyAllocatorDestroy σ).early.reserved ↔
    p ∈ σ.early.reserved ∧ p ∉ poolPages σ.early.poolBase

/-! ### Destroying a pool -/

section Destroy

variable {σ : Early} {l : List ℕ} {n p x : ℕ}

/-- The page goes, and the others stay, in another order. -/
theorem earlyReleasePage_perm (hp : p ≠ 0) : (earlyReleasePage p l).Perm (l.erase p) := by
  rw [earlyReleasePage, if_neg hp]
  split
  · next hmem =>
    obtain ⟨a, b, hpa, rfl, herase⟩ := List.exists_erase_eq hmem
    have hidx : (a ++ p :: b).idxOf p = a.length := by
      rw [List.idxOf_append_of_notMem hpa, List.idxOf_cons_self, Nat.add_zero]
    rw [herase, hidx, List.set_append_right _ _ le_rfl, Nat.sub_self, List.set_cons_zero]
    rcases List.eq_nil_or_concat b with rfl | ⟨b, z, rfl⟩
    · rw [List.dropLast_concat, List.append_nil]
    · rw [List.concat_eq_append]
      have hlast : (a ++ p :: (b ++ [z])).getLastD 0 = z := by
        rw [← List.cons_append, ← List.append_assoc]
        exact List.getLastD_concat ..
      rw [hlast, ← List.cons_append, ← List.append_assoc, List.dropLast_concat]
      exact (List.perm_append_singleton z b).symm.append_left a
  · next hmem => rw [List.erase_of_not_mem hmem]

/-- The end of the last page may be the end of memory, where the address wraps. -/
theorem earlyDestroyPages_u32 (hin : p + n * pageSize ≤ 2 ^ 32) :
    earlyDestroyPages n (u32 p) σ = earlyDestroyPages n p σ := by
  cases n with
  | zero => rfl
  | succ n => rw [u32_of_lt (by simp only [pageSize] at hin; omega)]

theorem earlyDestroyPages_memory (hin : p + n * pageSize ≤ 2 ^ 32) :
    (earlyDestroyPages n p σ).memory x =
      if p ≤ x ∧ x < p + n * pageSize then 0 else σ.memory x := by
  induction n generalizing p σ with
  | zero => exact (if_neg (by omega)).symm
  | succ n ih =>
    have hnext : p + pageSize + n * pageSize ≤ 2 ^ 32 := by
      simp only [pageSize] at hin ⊢
      omega
    rw [earlyDestroyPages, earlyDestroyPages_u32 hnext, ih hnext]
    simp only [fill, pageSize]
    split_ifs <;> first | rfl | omega

/-- The pages from `p` on go, and no others. -/
theorem earlyDestroyPages_reserved (hin : p + n * pageSize ≤ 2 ^ 32) (hp : p ≠ 0)
    (hnodup : σ.reserved.Nodup) {q : ℕ} :
    q ∈ (earlyDestroyPages n p σ).reserved ↔
      q ∈ σ.reserved ∧ q ∉ (List.range n).map fun i => p + i * pageSize := by
  induction n generalizing p σ with
  | zero => simp [earlyDestroyPages]
  | succ n ih =>
    have hnext : p + pageSize + n * pageSize ≤ 2 ^ 32 := by
      simp only [pageSize] at hin ⊢
      omega
    have hperm := earlyReleasePage_perm (l := σ.reserved) hp
    rw [earlyDestroyPages, earlyDestroyPages_u32 hnext,
      ih hnext (Nat.ne_of_gt (Nat.add_pos_left (Nat.pos_of_ne_zero hp) _))
        (hperm.nodup_iff.2 (hnodup.erase p)), hperm.mem_iff, hnodup.mem_erase_iff,
      List.range_succ_eq_map, List.map_cons, List.map_map, List.mem_cons, not_or]
    have hshift : ((fun i => p + i * pageSize) ∘ Nat.succ) = fun i => p + pageSize + i * pageSize := by
      funext i
      simp only [Function.comp_apply, pageSize]
      omega
    rw [hshift, Nat.zero_mul, Nat.add_zero]
    tauto

end Destroy

variable {mb : MultibootInfo} {σ : EarlyInfo}

/-- **What `early_allocator_destroy` does**, to a pool that is in memory: its bytes are cleared and no others, and its
pages are released and no others, in whatever order they were returned. -/
theorem earlyAllocatorDestroy_pool (hinit : σ.early.initialized = true) (hnull : σ.early.poolBase ≠ 0)
    (hin : σ.early.poolBase + earlyPoolSize ≤ 2 ^ 32) (hnodup : σ.early.reserved.Nodup) :
    (∀ x, (earlyAllocatorDestroy σ).early.memory x =
      if σ.early.poolBase ≤ x ∧ x < σ.early.poolBase + earlyPoolSize then 0 else σ.early.memory x) ∧
    (∀ p, p ∈ (earlyAllocatorDestroy σ).early.reserved ↔ p ∈ σ.early.reserved ∧ p ∉ poolPages σ.early.poolBase) ∧
    (earlyAllocatorDestroy σ).early.initialized = false := by
  have hdestroy : (earlyAllocatorDestroy σ).early = { earlyDestroyPages earlyPoolPages σ.early.poolBase σ.early with
      poolBase := 0, initialized := false } := by
    rw [earlyAllocatorDestroy, if_neg (by simp [hinit])]
  rw [hdestroy]
  refine ⟨fun x => ?_, fun p => ?_, rfl⟩
  · dsimp only
    exact earlyDestroyPages_memory (n := earlyPoolPages) hin
  · dsimp only
    exact earlyDestroyPages_reserved (n := earlyPoolPages) hin hnull hnodup

/-- A pool at `0x10000`, the pages of which are reserved with two others. -/
def filledPool : EarlyInfo :=
  ⟨⟨fun _ => 1, none, 0x30000 :: (poolPages 0x10000).reverse ++ [0x8000], 0x10000, 0, true⟩, [], 0, 0⟩

theorem earlyAllocatorDestroy_pool_filled :
    (earlyAllocatorDestroy filledPool).early.memory 0xFFFF = 1 ∧ (earlyAllocatorDestroy filledPool).early.memory 0x10000 = 0 ∧
      ∀ p, p ∈ (earlyAllocatorDestroy filledPool).early.reserved ↔
        p ∈ filledPool.early.reserved ∧ p ∉ poolPages 0x10000 := by
  obtain ⟨hmemory, hreserved, -⟩ :=
    earlyAllocatorDestroy_pool (σ := filledPool) rfl (by decide) (by decide) (by decide)
  exact ⟨(hmemory _).trans (if_neg (by decide)), (hmemory _).trans (if_pos (by decide)), hreserved⟩

/-- A pool of pages that were returned is cleared and released by `early_allocator_destroy`. -/
theorem poolReal_iff (hinit : σ.early.initialized = true) (hnull : σ.early.poolBase ≠ 0)
    (hnodup : σ.early.reserved.Nodup) :
    PoolReal mb σ ↔ σ.early.poolBase + earlyPoolSize ≤ 2 ^ 32 ∧
      ∀ p ∈ poolPages σ.early.poolBase, p ∈ σ.early.reserved ∧ AvailablePage mb p := by
  constructor
  · exact fun h => ⟨h.in_memory, fun p hp => ⟨h.reserved p hp, h.available p hp⟩⟩
  · rintro ⟨hin, hpages⟩
    have hdestroy : (earlyAllocatorDestroy σ).early =
        { earlyDestroyPages earlyPoolPages σ.early.poolBase σ.early with
          poolBase := 0, initialized := false } := by
      rw [earlyAllocatorDestroy, if_neg (by simp [hinit])]
    refine ⟨hin, fun p hp => (hpages p hp).1, fun p hp => (hpages p hp).2, fun x => ?_, fun p => ?_⟩
    · rw [hdestroy]
      dsimp only
      exact earlyDestroyPages_memory (n := earlyPoolPages) hin
    · rw [hdestroy]
      dsimp only
      exact earlyDestroyPages_reserved (n := earlyPoolPages) hin hnull hnodup

/-! ### The boot -/

/-- Without a memory map no page is returned. -/
theorem earlyReservePages_none {e : Early} (he : e.mbInfo = none) (n : ℕ) :
    earlyReservePages n e = some (List.replicate n 0, e) := by
  induction n with
  | zero => rfl
  | succ n ih =>
    have hpage : earlyReservePage e = some (0, e) := by rw [earlyReservePage, he]
    rw [earlyReservePages, hpage]
    dsimp only
    rw [ih]
    rfl

theorem zero_mem_poolPages : 0 ∈ poolPages 0 := List.mem_map.2 ⟨0, List.mem_range.2 (by decide), rfl⟩

/-- **Whatever the memory map is**, the pool that `init_stage_early` builds is not a page that was
reserved: it is at `NULL`. -/
theorem initStageEarly_pool (mb : MultibootInfo) (memory : Memory) :
    ∃ σ, initStageEarly mb (earlyImage memory) = some σ ∧ σ.early.poolBase = 0 ∧
      σ.early.reserved = [] ∧ ¬ PoolReal mb σ := by
  have hmeta : earlyReservePage (earlyImage memory).early = some (0, (earlyImage memory).early) := rfl
  have hinit : earlyAllocatorInit (earlyImage memory).early =
      some (earlyInitPool (earlyImage memory).early 0) := by
    have hpages := earlyReservePages_none (e := (earlyImage memory).early) rfl earlyPoolPages
    rw [earlyAllocatorInit, if_neg (by exact Bool.false_ne_true), hmeta]
    dsimp only
    rw [hpages]
    rfl
  refine ⟨{ earlyImage memory with early := earlyBootstrap mb (earlyInitPool (earlyImage memory).early 0) },
    ?_, rfl, rfl, fun h => ?_⟩
  · rw [initStageEarly, hinit]
    rfl
  · exact List.not_mem_nil (h.reserved 0 zero_mem_poolPages)

/-- One region of a megabyte, at a megabyte. -/
def megabyteMap : MultibootInfo := ⟨0x9000, multibootInfoMemMap, 0, fun _ => ⟨0, 0⟩, 24, 0x9100,
  [⟨20, 0x100000, 0x100000, multibootMemoryAvailable⟩]⟩

theorem not_initStageEarly_pool : ¬ ∀ (mb : MultibootInfo) (memory : Memory), EnoughPages mb →
    ∀ σ, initStageEarly mb (earlyImage memory) = some σ → PoolReal mb σ := by
  intro h
  have henough : EnoughPages megabyteMap := by
    refine ⟨(List.range earlyPagesTotal).map fun i => 0x100000 + i * pageSize, by decide, by decide,
      fun p hp => ?_⟩
    obtain ⟨i, hi, rfl⟩ := List.mem_map.1 hp
    have hlt : i < 10 := List.mem_range.1 hi
    refine ⟨⟨0x100 + i, by simp only [pageSize]; omega⟩, _, List.mem_singleton.2 rfl, rfl, ?_, ?_⟩
    · exact Nat.le_add_right ..
    · simp only [pageSize]
      omega
  have hrun := h megabyteMap (fun _ => 0) henough _ rfl
  exact List.not_mem_nil (hrun.reserved 0 zero_mem_poolPages)

end Flopperating
