/-
# Runs of the early allocator

The system is the allocator with the pointers that `early_alloc` has returned and
nobody has freed, each with the size that was asked for.  Besides the calls, the
owner of a payload writes to its bytes.

`EarlySound` is what holds in every state of a run: the chunks tile the pool and
are linked both ways, no two neighbours are free, the payloads lie apart from each
other and from all headers, and a request fails only when no free chunk is large
enough.
-/

import Flopperating.Data.Transition
import Flopperating.Mem.EarlySpec

namespace Flopperating

open ByteMemory DoublyLinked Tiling Transition Headers

/-- The allocator, and the pointers handed out and not freed. -/
structure EarlySystem where
  early : Early
  live : List (ℕ × ℕ)

/-- The bytes behind the header of a pointer: as many as the header says. -/
def payload (m : Memory) (ptr : ℕ) : Extent := ⟨ptr, (loadChunk m (ptr - chunkHeaderSize)).size⟩

/-- A call, or a write of `v` to byte `i` of a payload. -/
inductive EarlyOp
  | alloc (size : ℕ)
  | free (ptr size : ℕ)
  | write (ptr size i : ℕ) (v : BitVec 8)

/-- The effect of an operation.  Only live pointers are freed and written to. -/
def EarlyOp.run : EarlyOp → EarlySystem → Option EarlySystem
  | .alloc size, σ => (earlyAlloc size σ.early).map fun (p, e) =>
      ⟨e, if p = 0 then σ.live else (p, size) :: σ.live⟩
  | .free ptr size, σ =>
      if (ptr, size) ∈ σ.live then
        some ⟨earlyFree ptr σ.early, σ.live.erase (ptr, size)⟩
      else none
  | .write ptr size i v, σ =>
      if (ptr, size) ∈ σ.live ∧ i < (payload σ.early.memory ptr).len then
        some { σ with early := { σ.early with
          memory := Function.update σ.early.memory (ptr + i) v } }
      else none

/-- The step relation of the operations. -/
def earlyStep (σ : EarlySystem) (op : EarlyOp) (σ' : EarlySystem) : Prop := op.run σ = some σ'

/-- The pages of a pool at `base`. -/
def poolPages (base : ℕ) : List ℕ := (List.range earlyPoolPages).map fun i => base + i * pageSize

/-- The pages that `early_allocator_init` reserves behind the one for metadata. -/
def reservedPool (σ : Early) : Option (List ℕ) :=
  (earlyReservePages (earlyPoolPages + 1) σ).map fun r => r.1.tail

/-- The state that `early_allocator_init` builds over a pool at `base`, with nothing handed
out: the pages it gets are next to each other, and the pool is memory like any other object,
at an address that is not `NULL` and within the address space. -/
structure EarlyStart (base : ℕ) (σ : EarlySystem) : Prop where
  built : ∃ σ₀ : Early, σ₀.initialized = false ∧ reservedPool σ₀ = some (poolPages base) ∧
    earlyAllocatorInit σ₀ = some σ.early
  not_null : 0 < base
  in_memory : base + earlyPoolSize ≤ 2 ^ 32
  live : σ.live = []

/-- What holds of the allocator, with the chunks `l`. -/
structure EarlySound (base : ℕ) (σ : EarlySystem) (l : List ℕ) : Prop where
  /-- The chunks from `early_head`, forwards and backwards. -/
  linked : Links (nextOf (loadChunk σ.early.memory)) (prevOf (loadChunk σ.early.memory))
    (chunkAt σ.early.head) l
  tiled : Tiles (spanOf (loadChunk σ.early.memory)) base l (base + earlyPoolSize)
  coalesced : Coalesced (isFree (loadChunk σ.early.memory)) l
  /-- The live pointers are those behind the headers of the used chunks, each once. -/
  nodup : (σ.live.map Prod.fst).Nodup
  used : ∀ p, p ∈ σ.live.map Prod.fst ↔
    ∃ c, Used σ.early.memory l c ∧ p = c + chunkHeaderSize
  room : ∀ o ∈ σ.live, o.2 ≤ (payload σ.early.memory o.1).len
  apart : σ.live.Pairwise fun o p =>
    (payload σ.early.memory o.1).Apart (payload σ.early.memory p.1)
  headers : ∀ o ∈ σ.live, ∀ c ∈ l, (payload σ.early.memory o.1).Apart ⟨c, chunkHeaderSize⟩
  /-- `early_alloc` returns, and with `NULL` only when no free chunk is large enough. -/
  alloc : ∀ size, ∃ p e, earlyAlloc size σ.early = some (p, e) ∧ (1 ≤ size → p = 0 →
    ∀ c ∈ l, (loadChunk σ.early.memory c).free = true → (loadChunk σ.early.memory c).size < size)
  emptied : σ.live = [] → l = [base] ∧ (loadChunk σ.early.memory base).free = true ∧
    (loadChunk σ.early.memory base).size = earlyPoolSize - chunkHeaderSize

/-- The invariant of the runs. -/
structure EarlyInv (base : ℕ) (σ : EarlySystem) (l : List ℕ) : Prop where
  initialized : σ.early.initialized = true
  head : σ.early.head = base
  not_null : 0 < base
  in_memory : base + earlyPoolSize ≤ 2 ^ 32
  pooled : Pooled σ.early.memory base (base + earlyPoolSize) l
  nodup : (σ.live.map Prod.fst).Nodup
  used : ∀ p, p ∈ σ.live.map Prod.fst ↔ ∃ c, Used σ.early.memory l c ∧ p = c + chunkHeaderSize
  room : ∀ o ∈ σ.live, o.2 ≤ (payload σ.early.memory o.1).len

variable {base : ℕ} {σ σ' : EarlySystem} {l : List ℕ}

theorem payload_add (m : Memory) (c : ℕ) :
    payload m (c + chunkHeaderSize) = ⟨c + chunkHeaderSize, (loadChunk m c).size⟩ := by
  rw [payload, Nat.add_sub_cancel]

/-! ### The start -/

/-- The pages behind the first one. -/
theorem earlyReservePages_succ {n : ℕ} {σ₀ : Early} {ps : List ℕ}
    (h : (earlyReservePages (n + 1) σ₀).map (fun r => r.1.tail) = some ps) :
    ∃ p σ₁ σ₂, earlyReservePage σ₀ = some (p, σ₁) ∧ earlyReservePages n σ₁ = some (ps, σ₂) := by
  unfold earlyReservePages at h
  rcases hp : earlyReservePage σ₀ with - | ⟨p, σ₁⟩
  · rw [hp] at h
    exact absurd h (by simp)
  · rw [hp] at h
    dsimp only at h
    rcases hps : earlyReservePages n σ₁ with - | ⟨ps', σ₂⟩
    · rw [hps] at h
      exact absurd h (by simp)
    · rw [hps] at h
      obtain rfl : ps' = ps := Option.some.inj h
      exact ⟨p, σ₁, σ₂, rfl, hps⟩

/-- What `early_allocator_init` stores at the start of the pool. -/
theorem loadChunk_earlyInitPool (σ : Early) :
    loadChunk (earlyInitPool σ base).memory base =
      ⟨earlyPoolSize - chunkHeaderSize, true, 0, 0⟩ := by
  have hclear : ∀ c ∈ [base], ∀ d ∈ [base], Clear c d := fun c hc d hd =>
    .inl ((List.mem_singleton.1 hc).trans (List.mem_singleton.1 hd).symm)
  have hb : base ∈ [base] := List.mem_singleton.2 rfl
  have h₀ : Shows σ.memory (loadChunk σ.memory) [base] := fun _ _ => rfl
  have h₁ := (h₀.setChunkSize hclear hb (v := earlyPoolSize - chunkHeaderSize)
    (by decide)).setChunkFree hclear (v := true) hb
  have h₂ := (h₁.setChunkNext hclear hb (v := 0) (by decide)).setChunkPrev hclear hb (v := 0)
    (by decide)
  refine (h₂ base hb).trans ?_
  simp only [withSize, withFree, withNext, withPrev, Function.update_self]

/-- The first state of a run. -/
theorem EarlyStart.inv (h : EarlyStart base σ) : EarlyInv base σ [base] := by
  obtain ⟨σ₀, hinit, hpool, hbuilt⟩ := h.built
  obtain ⟨p, σ₁, σ₂, hmeta, hpages⟩ := earlyReservePages_succ hpool
  have hearly : σ.early = earlyInitPool σ₂ base := by
    rw [earlyAllocatorInit, if_neg (by simp [hinit]), hmeta] at hbuilt
    dsimp only at hbuilt
    rw [hpages] at hbuilt
    exact (Option.some.inj hbuilt).symm
  have hload : loadChunk σ.early.memory base = ⟨earlyPoolSize - chunkHeaderSize, true, 0, 0⟩ := by
    rw [hearly]
    exact loadChunk_earlyInitPool σ₂
  have hspan : spanOf (loadChunk σ.early.memory) base = earlyPoolSize := by
    rw [spanOf, hload]
    rfl
  refine ⟨by rw [hearly]; rfl, by rw [hearly]; rfl, h.not_null, h.in_memory, ⟨⟨?_, ?_⟩,
    List.isChain_singleton _⟩, by simp [h.live], fun q => ?_, by simp [h.live]⟩
  · refine ⟨rfl, ?_, ?_⟩
    · rw [prevOf, hload]
      rfl
    · change nextOf (loadChunk σ.early.memory) base = none
      rw [nextOf, hload]
      rfl
  · exact ⟨rfl, by rw [hspan]; rfl⟩
  · rw [h.live]
    refine iff_of_false List.not_mem_nil ?_
    rintro ⟨c, ⟨hc, hfree⟩, -⟩
    rw [List.mem_singleton.1 hc, hload] at hfree
    exact Bool.false_ne_true hfree.symm

/-! ### Steps -/

namespace EarlyInv

/-- A live pointer is the payload of a used chunk. -/
theorem chunk_of_live (h : EarlyInv base σ l) {o : ℕ × ℕ} (ho : o ∈ σ.live) :
    ∃ c, Used σ.early.memory l c ∧ o.1 = c + chunkHeaderSize :=
  (h.used o.1).1 (List.mem_map_of_mem ho)

theorem fuel_lt (h : EarlyInv base σ l) : l.length < earlyPoolSize := by
  have hle : base + l.length * 16 ≤ base + earlyPoolSize :=
    h.pooled.chunked.tiled.length_le fun c _ => Nat.le_add_right ..
  have hsize : earlyPoolSize = 36864 := rfl
  omega

/-- What `early_alloc` returns. -/
theorem alloc_cases (h : EarlyInv base σ l) (size : ℕ) :
    (earlyAlloc size σ.early = some (0, σ.early) ∧ (1 ≤ size → ∀ c ∈ l,
      (loadChunk σ.early.memory c).free = true → (loadChunk σ.early.memory c).size < size)) ∨
    1 ≤ size ∧ ∃ l₁ c l₂, l = l₁ ++ c :: l₂ ∧ (loadChunk σ.early.memory c).free = true ∧
      size ≤ (loadChunk σ.early.memory c).size ∧ earlyAlloc size σ.early =
        some (c + chunkHeaderSize, { σ.early with memory := earlyTake σ.early.memory c size }) := by
  unfold earlyAlloc
  by_cases hzero : size = 0
  · rw [if_pos (.inr hzero)]
    exact .inl ⟨rfl, fun hs => absurd hzero (Nat.pos_iff_ne_zero.1 hs)⟩
  · rw [if_neg (by simp [h.initialized, hzero])]
    have hcur : chunkAt σ.early.head = l.head? := by
      rw [h.head, chunkAt_of_pos h.not_null]
      exact h.pooled.chunked.linked.head_eq
    have hch : Chunked (loadChunk σ.early.memory) base (base + earlyPoolSize) ([] ++ l) :=
      h.pooled.chunked
    rcases hch.earlyAllocFrom size hcur h.fuel_lt with
      ⟨hrun, hall⟩ | ⟨l₁, c, l₂, rfl, hfree, hle, hrun⟩
    · rw [hrun]
      exact .inl ⟨rfl, fun _ => hall⟩
    · refine .inr ⟨Nat.pos_of_ne_zero hzero, l₁, c, l₂, rfl, hfree, hle, ?_⟩
      have hin := h.pooled.chunked.within (c := c) (by simp)
      have hhigh := h.in_memory
      rw [hrun, u32_of_lt (by omega)]
      rfl

/-- The pointers left when one is given back. -/
theorem mem_map_erase {live : List (ℕ × ℕ)} {o : ℕ × ℕ} (hnd : (live.map Prod.fst).Nodup)
    (ho : o ∈ live) {q : ℕ} :
    q ∈ (live.erase o).map Prod.fst ↔ q ∈ live.map Prod.fst ∧ q ≠ o.1 := by
  have hlive : live.Nodup := List.Nodup.of_map _ hnd
  have hinj : ∀ o' ∈ live, o'.1 = o.1 → o' = o := fun o' ho' heq =>
    List.inj_on_of_nodup_map hnd ho' ho heq
  constructor
  · intro hq
    obtain ⟨o', ho', rfl⟩ := List.mem_map.1 hq
    obtain ⟨hne, hmem⟩ := (List.Nodup.mem_erase_iff hlive).1 ho'
    exact ⟨List.mem_map_of_mem hmem, fun heq => hne (hinj o' hmem heq)⟩
  · rintro ⟨hq, hne⟩
    obtain ⟨o', ho', rfl⟩ := List.mem_map.1 hq
    exact List.mem_map_of_mem ((List.Nodup.mem_erase_iff hlive).2 ⟨fun h => hne (h ▸ rfl), ho'⟩)

/-- A request that is met. -/
theorem alloc {l₁ l₂ : List ℕ} {c size : ℕ} (h : EarlyInv base σ (l₁ ++ c :: l₂))
    (hfree : (loadChunk σ.early.memory c).free = true)
    (hsize : size ≤ (loadChunk σ.early.memory c).size) :
    ∃ l', EarlyInv base ⟨{ σ.early with memory := earlyTake σ.early.memory c size },
      (c + chunkHeaderSize, size) :: σ.live⟩ l' := by
  obtain ⟨l', hpool, hused, hkeep, hroom⟩ := h.pooled.take h.not_null h.in_memory hfree hsize
  refine ⟨l', h.initialized, h.head, h.not_null, h.in_memory, hpool, ?_, fun p => ?_, fun o ho => ?_⟩
  · refine List.nodup_cons.2 ⟨fun hmem => ?_, h.nodup⟩
    obtain ⟨d, hd, heq⟩ := (h.used _).1 hmem
    obtain rfl : c = d := Nat.add_right_cancel heq
    exact Bool.false_ne_true (hd.2.symm.trans hfree)
  · rw [List.map_cons, List.mem_cons, h.used p]
    constructor
    · rintro (rfl | ⟨d, hd, rfl⟩)
      · exact ⟨c, (hused c).2 (.inl rfl), rfl⟩
      · exact ⟨d, (hused d).2 (.inr hd), rfl⟩
    · rintro ⟨d, hd, rfl⟩
      rcases (hused d).1 hd with rfl | hd
      · exact .inl rfl
      · exact .inr ⟨d, hd, rfl⟩
  · rcases List.mem_cons.1 ho with rfl | ho
    · rw [payload_add]
      exact hroom
    · obtain ⟨d, hd, heq⟩ := h.chunk_of_live ho
      have hold := h.room o ho
      rw [heq, payload_add] at hold ⊢
      exact hold.trans_eq (hkeep d hd).symm

/-- A pointer that is given back. -/
theorem free {ptr size : ℕ} (h : EarlyInv base σ l) (hlive : (ptr, size) ∈ σ.live) :
    ∃ l', EarlyInv base ⟨earlyFree ptr σ.early, σ.live.erase (ptr, size)⟩ l' := by
  obtain ⟨c, hc, rfl⟩ : ∃ c, Used σ.early.memory l c ∧ ptr = c + chunkHeaderSize :=
    h.chunk_of_live hlive
  obtain ⟨l₁, l₂, rfl⟩ := List.append_of_mem hc.1
  have hin := h.pooled.chunked.within hc.1
  have hlow := h.not_null
  have hhigh := h.in_memory
  have hsize : earlyPoolSize = 36864 := rfl
  have hchunk : u32 (c + chunkHeaderSize + (2 ^ 32 - chunkHeaderSize)) = c := by
    have hh : chunkHeaderSize = 16 := rfl
    unfold u32
    omega
  obtain ⟨m', hm'⟩ : ∃ m', m' = earlyCoalesce (Flopperating.setChunkFree σ.early.memory c true) c := ⟨_, rfl⟩
  obtain ⟨l', hpool, hused, hkeep⟩ := h.pooled.free h.not_null h.in_memory hm'
  have hrun : earlyFree (c + chunkHeaderSize) σ.early = { σ.early with memory := m' } := by
    rw [earlyFree, if_neg (by simp [h.initialized]), hchunk, hm']
  rw [hrun]
  refine ⟨l', h.initialized, h.head, h.not_null, h.in_memory, hpool, ?_, fun p => ?_, fun o ho => ?_⟩
  · exact h.nodup.sublist (List.erase_sublist.map _)
  · rw [mem_map_erase h.nodup hlive, h.used p]
    constructor
    · rintro ⟨⟨d, hd, rfl⟩, hne⟩
      exact ⟨d, (hused d).2 ⟨hd, fun heq => hne (heq ▸ rfl)⟩, rfl⟩
    · rintro ⟨d, hd, rfl⟩
      obtain ⟨hd, hne⟩ := (hused d).1 hd
      exact ⟨⟨d, hd, rfl⟩, fun heq => hne (Nat.add_right_cancel heq)⟩
  · have hmem := List.mem_of_mem_erase ho
    obtain ⟨d, hd, heq⟩ := h.chunk_of_live hmem
    have hold := h.room o hmem
    have hne : d ≠ c := by
      rintro rfl
      have hq := (mem_map_erase h.nodup hlive).1 (List.mem_map_of_mem (f := Prod.fst) ho)
      exact hq.2 heq
    rw [heq, payload_add] at hold ⊢
    exact hold.trans_eq (hkeep d hd hne).symm

/-- A byte that its owner writes. -/
theorem write {ptr size i : ℕ} {v : BitVec 8} (h : EarlyInv base σ l) (hlive : (ptr, size) ∈ σ.live)
    (hi : i < (payload σ.early.memory ptr).len) :
    EarlyInv base { σ with early := { σ.early with
      memory := Function.update σ.early.memory (ptr + i) v } } l := by
  obtain ⟨c, hc, rfl⟩ : ∃ c, Used σ.early.memory l c ∧ ptr = c + chunkHeaderSize :=
    h.chunk_of_live hlive
  rw [payload_add] at hi
  -- the byte is behind the header of its chunk, and outside every other chunk
  have hkeep : ∀ d ∈ l, loadChunk (Function.update σ.early.memory (c + chunkHeaderSize + i) v) d =
      loadChunk σ.early.memory d := fun d hd => by
    refine loadChunk_congr fun x hx hx' => Function.update_of_ne ?_ ..
    rcases eq_or_ne d c with rfl | hne
    · omega
    · have hap := h.pooled.chunked.tiled.apart hd hc.1 hne
      simp only [Extent.Apart, spanOf] at hap hi
      omega
  have hused : ∀ e, Used (Function.update σ.early.memory (c + chunkHeaderSize + i) v) l e ↔
      Used σ.early.memory l e := fun e => and_congr_right fun he => by rw [hkeep e he]
  refine ⟨h.initialized, h.head, h.not_null, h.in_memory,
    ⟨h.pooled.chunked.congr hkeep, Coalesced.keep h.pooled.coalesced fun e he =>
      congrArg EarlyChunk.free (hkeep e he)⟩, h.nodup, fun p => ?_, fun o ho => ?_⟩
  · rw [h.used p]
    simp only [hused]
  · obtain ⟨d, hd, heq⟩ := h.chunk_of_live ho
    have hold := h.room o ho
    rw [heq, payload_add] at hold ⊢
    rwa [hkeep d hd.1]

/-- **One step** keeps the invariant. -/
theorem step (h : EarlyInv base σ l) {op : EarlyOp} (hstep : earlyStep σ op σ') :
    ∃ l', EarlyInv base σ' l' := by
  unfold earlyStep at hstep
  cases op with
  | alloc size =>
    obtain ⟨⟨p, e⟩, hrun, rfl⟩ := Option.map_eq_some_iff.1 hstep
    rcases h.alloc_cases size with ⟨hres, -⟩ | ⟨-, l₁, c, l₂, rfl, hfree, hle, hres⟩
    · obtain ⟨rfl, rfl⟩ := Prod.mk.inj (Option.some.inj (hres.symm.trans hrun))
      exact ⟨l, h⟩
    · obtain ⟨rfl, rfl⟩ := Prod.mk.inj (Option.some.inj (hres.symm.trans hrun))
      have hne : c + chunkHeaderSize ≠ 0 := Nat.add_eq_zero_iff.not.2 fun h0 => absurd h0.2 (by decide)
      dsimp only
      rw [if_neg hne]
      exact h.alloc hfree hle
  | free ptr size =>
    rw [EarlyOp.run] at hstep
    split at hstep
    · next hlive =>
      obtain rfl := Option.some.inj hstep
      exact h.free hlive
    · exact absurd hstep (by simp)
  | write ptr size i v =>
    rw [EarlyOp.run] at hstep
    split at hstep
    · next hlive =>
      obtain rfl := Option.some.inj hstep
      exact ⟨l, h.write hlive.1 hlive.2⟩
    · exact absurd hstep (by simp)

/-- **What the invariant says.** -/
theorem sound (h : EarlyInv base σ l) : EarlySound base σ l := by
  have hh : chunkHeaderSize = 16 := rfl
  have hap : ∀ c ∈ l, ∀ d ∈ l, c ≠ d → (Extent.mk c (chunkHeaderSize +
      (loadChunk σ.early.memory c).size)).Apart ⟨d, chunkHeaderSize +
        (loadChunk σ.early.memory d).size⟩ :=
    fun c hc d hd hne => h.pooled.chunked.tiled.apart hc hd hne
  refine ⟨?_, h.pooled.chunked.tiled, h.pooled.coalesced, h.nodup, h.used, h.room, ?_,
    fun o ho c hc => ?_, fun size => ?_, fun hempty => ?_⟩
  · rw [h.head, chunkAt_of_pos h.not_null]
    exact h.pooled.chunked.linked
  · refine (List.pairwise_map.1 h.nodup).imp_of_mem fun {o p} ho hp hne => ?_
    obtain ⟨c, hc, heq⟩ := h.chunk_of_live ho
    obtain ⟨d, hd, heq'⟩ := h.chunk_of_live hp
    rw [heq, heq', payload_add, payload_add]
    refine (hap c hc.1 d hd.1 fun hcd => hne (by rw [heq, heq', hcd])).mono ?_ ?_ <;>
      exact ⟨Nat.le_add_right .., by simp only; omega⟩
  · obtain ⟨d, hd, heq⟩ := h.chunk_of_live ho
    rw [heq, payload_add]
    rcases eq_or_ne d c with rfl | hne
    · exact .inr le_rfl
    · exact (hap d hd.1 c hc hne).mono ⟨Nat.le_add_right .., by simp only; omega⟩
        ⟨le_rfl, Nat.add_le_add_left (Nat.le_add_right ..) _⟩
  · rcases h.alloc_cases size with ⟨hres, hall⟩ | ⟨-, l₁, c, l₂, rfl, -, -, hres⟩
    · exact ⟨_, _, hres, fun hs _ => hall hs⟩
    · exact ⟨_, _, hres, fun _ hp => by omega⟩
  · have hall : ∀ c ∈ l, (loadChunk σ.early.memory c).free = true := fun c hc => by
      by_contra hfree
      have hmem := (h.used (c + chunkHeaderSize)).2 ⟨c, ⟨hc, by simpa using hfree⟩, rfl⟩
      rw [hempty] at hmem
      exact absurd hmem List.not_mem_nil
    have hlen := h.pooled.coalesced.length_le_one hall
    have hch := h.pooled.chunked
    rcases l with - | ⟨c, - | ⟨d, l⟩⟩
    · exact absurd hch.linked.head_eq (by simp)
    · obtain ⟨rfl, hspan⟩ := hch.tiled
      refine ⟨rfl, hall c (by simp), ?_⟩
      have hspan' : c + (chunkHeaderSize + (loadChunk σ.early.memory c).size) =
        c + earlyPoolSize := hspan
      omega
    · exact absurd hlen (by simp)

end EarlyInv

/-- **The early allocator is sound**: in every state that any sequence of calls and writes
reaches. -/
theorem early_sound (h : Reach (EarlyStart base) earlyStep σ) : ∃ l, EarlySound base σ l := by
  obtain ⟨l, hinv⟩ := h.invariant (P := fun σ => ∃ l, EarlyInv base σ l)
    (fun _ hs => ⟨_, hs.inv⟩) fun _ _ _ _ ⟨_, hinv⟩ hstep => hinv.step hstep
  exact ⟨l, hinv.sound⟩

/-! ### A run -/

/-- The boot state over one megabyte of memory. -/
def earlyBoot : Early where
  memory := fun _ => 0
  mbInfo := some ⟨0x9000, multibootInfoMemMap, 0, fun _ => ⟨0, 0⟩, 24, 0x9100,
    [⟨20, 0x100000, 0x100000, multibootMemoryAvailable⟩]⟩
  reserved := []
  poolBase := 0
  head := 0
  initialized := false

/-- The allocator built there. -/
def earlyBuilt : EarlySystem := ⟨(earlyAllocatorInit earlyBoot).getD earlyBoot, []⟩

theorem earlyBuilt_start : EarlyStart 0x101000 earlyBuilt := by
  refine ⟨⟨earlyBoot, rfl, by decide +kernel, ?_⟩, by decide, by decide, rfl⟩
  have hsome : (earlyAllocatorInit earlyBoot).isSome = true := by decide +kernel
  obtain ⟨e, he⟩ := Option.isSome_iff_exists.1 hsome
  rw [earlyBuilt, he]
  rfl

/-- Two requests that are met and one that is too large, a write, and a pointer given back. -/
theorem early_sound_run : ∃ σ, [EarlyOp.alloc 100, .alloc 50, .alloc 40000,
    .write 0x101010 100 99 0xff, .free 0x101010 100].foldlM (fun s a => EarlyOp.run a s) earlyBuilt = some σ ∧
      σ.live = [(0x101084, 50)] ∧ ∃ l, EarlySound 0x101000 σ l := by
  have hrun : ([EarlyOp.alloc 100, .alloc 50, .alloc 40000, .write 0x101010 100 99 0xff,
      .free 0x101010 100].foldlM (fun s a => EarlyOp.run a s) earlyBuilt).map EarlySystem.live =
        some [(0x101084, 50)] := by decide +kernel
  obtain ⟨σ, hσ, hlive⟩ := Option.map_eq_some_iff.1 hrun
  exact ⟨σ, hσ, hlive, early_sound (Reach.of_foldlM (.init earlyBuilt_start) hσ)⟩

end Flopperating
