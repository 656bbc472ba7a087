/-
# Runs of the heap

The system is the heap with the list of the objects that `kmalloc` and
`krealloc` have returned and nobody has freed, each with its size.  Besides the
calls, the owner of an object writes to its bytes, and the rest of the kernel
uses the page allocator, without touching the pages of the heap.

`boxes_sound` is the invariant of the boxes over runs of small objects: the
bitmaps, the objects and the list of the boxes agree, and a page is given back
with its last object.
-/

import Flopperating.Data.Transition
import Flopperating.Mem.HeapSpec

namespace Flopperating

open ByteMemory Bitmap LinkedList Transition

/-- The heap, and the objects handed out and not freed. -/
structure HeapSystem (pa : PageAllocator) where
  heap : Heap pa.traced
  live : List (ℕ × ℕ)

/-- A call, a write of `v` to byte `i` of an object, or a change of the page
allocator by others. -/
inductive HeapOp (pa : PageAllocator)
  | init
  | alloc (size : ℕ)
  | free (ptr size : ℕ)
  | realloc (ptr size newSize : ℕ)
  | write (ptr size i : ℕ) (v : BitVec 8)
  | pages (s : pa.State)

variable {pa : PageAllocator}

/-- The effect of an operation.  Only live objects are freed and written to. -/
def HeapOp.run : HeapOp pa → HeapSystem pa → Option (HeapSystem pa)
  | .init, σ => (heapInit σ.heap).map fun h => ⟨h, σ.live⟩
  | .alloc size, σ => (kmalloc size σ.heap).map fun (p, h) =>
      ⟨h, if p = 0 then σ.live else (p, size) :: σ.live⟩
  | .free ptr size, σ =>
      if (ptr, size) ∈ σ.live then
        (kfree ptr σ.heap).map fun h => ⟨h, σ.live.erase (ptr, size)⟩
      else none
  | .realloc ptr size newSize, σ =>
      if ptr = 0 ∨ (ptr, size) ∈ σ.live then
        (krealloc ptr newSize σ.heap).map fun (n, h) =>
          ⟨h, if newSize = 0 then σ.live.erase (ptr, size)
            else if n = 0 then σ.live else (n, newSize) :: σ.live.erase (ptr, size)⟩
      else none
  | .write ptr size i v, σ =>
      if (ptr, size) ∈ σ.live ∧ i < size then
        some { σ with heap := { σ.heap with mem := Function.update σ.heap.mem (ptr + i) v } }
      else none
  | .pages s, σ =>
      some { σ with heap := { σ.heap with pages := ⟨s, σ.heap.held, σ.heap.returned⟩ } }

/-- The step relation of the operations. -/
def heapStep (σ : HeapSystem pa) (op : HeapOp pa) (σ' : HeapSystem pa) : Prop := op.run σ = some σ'

/-- The heap before its first call, over memory that holds anything. -/
structure HeapStart (Owned : pa.State → List (ℕ × ℕ) → Prop) (σ : HeapSystem pa) : Prop where
  boxes : σ.heap.boxes = none
  initialized : σ.heap.initialized = false
  held : σ.heap.held = []
  live : σ.live = []
  owned : Owned σ.heap.pageState []

/-- The operations under which the heap keeps its account: sizes for which the
number of pages is right, and objects freed while their size word stands for
their blocks or pages. -/
def KeepsSpans (Owned : pa.State → List (ℕ × ℕ) → Prop) (Together : ℕ → pa.State → Prop)
    (σ : HeapSystem pa) : HeapOp pa → Prop
  | .init => True
  | .alloc size => Fits Together σ.heap size
  | .free ptr size => SameSpan σ.heap ptr size
  | .realloc ptr size newSize =>
      Fits Together σ.heap newSize ∧ (ptr ≠ 0 → SameSpan σ.heap ptr size)
  | .write _ _ _ _ => True
  | .pages s => Owned s σ.heap.held

instance (Owned : pa.State → List (ℕ × ℕ) → Prop) (Together : ℕ → pa.State → Prop)
    [∀ s held, Decidable (Owned s held)] [∀ n s, Decidable (Together n s)] (σ : HeapSystem pa)
    (op : HeapOp pa) : Decidable (KeepsSpans Owned Together σ op) :=
  match op with
  | .init => inferInstanceAs (Decidable True)
  | .alloc _ => inferInstanceAs (Decidable (Fits _ _ _))
  | .free _ _ => inferInstanceAs (Decidable (SameSpan _ _ _))
  | .realloc _ _ _ => inferInstanceAs (Decidable (_ ∧ _))
  | .write _ _ _ _ => inferInstanceAs (Decidable True)
  | .pages s => inferInstanceAs (Decidable (Owned s σ.heap.held))

variable {Owned : pa.State → List (ℕ × ℕ) → Prop} {Together : ℕ → pa.State → Prop}
  {σ σ' : HeapSystem pa} {l : List ℕ}

theorem HeapStart.inv (h : HeapStart Owned σ) :
    HeapInv Owned σ.heap σ.live [] ∧ Started σ.heap [] := by
  refine ⟨⟨h.boxes, by simp, by rw [h.held]; exact h.owned, by simp [h.held], by simp [h.held],
    by simp [h.held, h.live, largeObjects], by simp [h.live], by simp [h.live], by simp [h.live],
    by simp⟩, fun _ => rfl⟩

/-- **One step** that keeps the account keeps the invariant. -/
theorem HeapInv.step (C : PageContract pa Owned Together) (hI : HeapInv Owned σ.heap σ.live l)
    (hst : Started σ.heap l) {op : HeapOp pa} (hok : KeepsSpans Owned Together σ op)
    (hstep : heapStep σ op σ') : ∃ l', HeapInv Owned σ'.heap σ'.live l' ∧ Started σ'.heap l' := by
  unfold heapStep at hstep
  cases op with
  | init =>
    obtain ⟨g, hg, rfl⟩ := Option.map_eq_some_iff.1 hstep
    rcases hI.heapInit_spec C hst hg with ⟨rfl, -⟩ | ⟨l', hI', -, -, hinit⟩
    · exact ⟨l, hI, hst⟩
    · exact ⟨l', hI', fun hf => absurd (hf.symm.trans hinit) Bool.false_ne_true⟩
  | alloc size =>
    obtain ⟨⟨p, g⟩, hg, rfl⟩ := Option.map_eq_some_iff.1 hstep
    obtain ⟨l', hout, hst'⟩ := hI.kmalloc_spec C hst hok hg
    cases hout with
    | null hI' => exact ⟨l', hI', hst'⟩
    | object hp hI' =>
      refine ⟨l', ?_, hst'⟩
      simp only [if_neg hp]
      exact hI'
  | free ptr size =>
    simp only [HeapOp.run] at hstep
    split at hstep
    · next ho =>
      obtain ⟨g, hg, rfl⟩ := Option.map_eq_some_iff.1 hstep
      rcases Nat.lt_or_ge pageSize size with hs | hs
      · obtain ⟨hI', hst', -⟩ := hI.kfree_large C hst ho hs hok hg
        exact ⟨l, hI', hst'⟩
      · obtain ⟨l', hI', hst', -⟩ := hI.kfree_small C hst ho hs hok hg
        exact ⟨l', hI', hst'⟩
    · exact absurd hstep (by simp)
  | realloc ptr size newSize =>
    simp only [HeapOp.run] at hstep
    split at hstep
    · next ho =>
      obtain ⟨⟨n, g⟩, hg, rfl⟩ := Option.map_eq_some_iff.1 hstep
      rcases eq_or_ne ptr 0 with rfl | hp
      · -- `krealloc(NULL, …)` is `kmalloc`, and no object is at `NULL`
        have hnot : (0, size) ∉ σ.live := fun hm => by simpa using hI.objectAlign_le hm
        have hg' : kmalloc newSize σ.heap = some (n, g) := hg
        obtain ⟨l', hout, hst'⟩ := hI.kmalloc_spec C hst hok.1 hg'
        simp only [List.erase_of_not_mem hnot]
        cases hout with
        | null hI' => exact ⟨l', by simpa using hI', hst'⟩
        | object hn hI' =>
          refine ⟨l', ?_, hst'⟩
          have hne : newSize ≠ 0 := by
            rintro rfl
            simp [kmalloc, hn.symm] at hg'
          simpa only [if_neg hne, if_neg hn] using hI'
      · obtain ⟨l', hI', hst', -⟩ := hI.krealloc_spec C hst (ho.resolve_left hp) hok.1 (hok.2 hp) hg
        exact ⟨l', hI', hst'⟩
    · exact absurd hstep (by simp)
  | write ptr size i v =>
    simp only [HeapOp.run] at hstep
    split at hstep
    · next ho =>
      obtain rfl := Option.some.inj hstep
      exact ⟨l, hI.writePayload ho.1 fun x hx => Function.update_of_ne (by omega) _ _, hst⟩
    · exact absurd hstep (by simp)
  | pages s =>
    obtain rfl := Option.some.inj hstep
    exact ⟨l, ⟨hI.chain, hI.formed, hok, hI.valid, hI.heldApart, hI.held, hI.placed, hI.room,
      hI.apart, hI.bits⟩, hst⟩

/-! ### The boxes -/

/-- Calls for objects of at most a page, freed with their header intact. -/
def SmallIntact (Owned : pa.State → List (ℕ × ℕ) → Prop) (σ : HeapSystem pa) : HeapOp pa → Prop
  | .init => True
  | .alloc size => 0 < size ∧ size ≤ pageSize
  | .free ptr size => σ.heap.objectSize (ptr - objectAlign) = size
  | .realloc _ _ _ => False
  | .write _ _ _ _ => True
  | .pages s => Owned s σ.heap.held

instance [∀ s held, Decidable (Owned s held)] (σ : HeapSystem pa) (op : HeapOp pa) :
    Decidable (SmallIntact Owned σ op) :=
  match op with
  | .init => inferInstanceAs (Decidable True)
  | .alloc _ => inferInstanceAs (Decidable (_ ∧ _))
  | .free _ _ => inferInstanceAs (Decidable (_ = _))
  | .realloc _ _ _ => inferInstanceAs (Decidable False)
  | .write _ _ _ _ => inferInstanceAs (Decidable True)
  | .pages s => inferInstanceAs (Decidable (Owned s σ.heap.held))

/-- The object is one of the box, by its header, and has block `i` of it. -/
def OwnsBlock (h : Heap pa) (b i : ℕ) (o : ℕ × ℕ) : Prop :=
  h.objectBox (o.1 - objectAlign) = b ∧
    (reserved o).Has ((h.box b).dataPointer + i * blockSize)

/-- The step gives back exactly the page of the box whose last object it frees. -/
structure ReturnsExactly (l : List ℕ) (σ : HeapSystem pa) (op : HeapOp pa) (σ' : HeapSystem pa) :
    Prop where
  atMostOne : σ'.heap.returned = σ.heap.returned ∨
    ∃ b ∈ l, σ'.heap.returned = (b, 1) :: σ.heap.returned
  last : ∀ b ∈ l, σ'.heap.returned = (b, 1) :: σ.heap.returned ↔
    ∃ ptr size, op = .free ptr size ∧ InPage b (ptr, size) ∧ ∀ o ∈ σ'.live, ¬ InPage b o

/-- What holds of the boxes `l`. -/
structure BoxesSound (Owned : pa.State → List (ℕ × ℕ) → Prop) (σ : HeapSystem pa) (l : List ℕ) :
    Prop where
  registered : Chain σ.heap.next σ.heap.boxes l
  bits : ∀ b ∈ l, ∀ i < (σ.heap.box b).totalBlocks, bit (σ.heap.box b).map i = true ↔
    ∃! o, o ∈ σ.live ∧ OwnsBlock σ.heap b i o
  disjoint : σ.live.Pairwise fun o p => (reserved o).Apart (reserved p)
  /-- A run of blocks past `box_t` and the bitmap, in the page of the box. -/
  inside : ∀ o ∈ σ.live, ∃ b ∈ l, ∃ k, σ.heap.objectBox (o.1 - objectAlign) = b ∧
    (reserved o).start = (σ.heap.box b).dataPointer + k * blockSize ∧
    (reserved o).len = neededBlocks o.2 * blockSize ∧
    k + neededBlocks o.2 ≤ (σ.heap.box b).totalBlocks ∧
    b + sizeofBox + mapBytes ≤ (reserved o).start ∧
    (reserved o).start + (reserved o).len ≤ b + pageSize
  room : ∀ o ∈ σ.live, objectAlign + o.2 ≤ (reserved o).len
  pages : σ.heap.held.Perm (l.map (·, 1))
  returns : ∀ op σ', SmallIntact Owned σ op → heapStep σ op σ' → ReturnsExactly l σ op σ'

theorem SmallIntact.keepsSpans {op : HeapOp pa} (h : SmallIntact Owned σ op) :
    KeepsSpans Owned Together σ op := by
  cases op with
  | init => trivial
  | alloc size => exact .inl h.2
  | free ptr size =>
    have hword : σ.heap.objectSize (ptr - objectAlign) = size := h
    simp only [KeepsSpans, SameSpan, hword, ite_self]
  | realloc => exact h.elim
  | write => trivial
  | pages s => exact h

/-- Every object is small. -/
def AllSmall (live : List (ℕ × ℕ)) : Prop := ∀ o ∈ live, o.2 ≤ pageSize

theorem SmallIntact.allSmall {op : HeapOp pa} (h : SmallIntact Owned σ op) (hs : AllSmall σ.live)
    (hstep : heapStep σ op σ') : AllSmall σ'.live := by
  unfold heapStep at hstep
  cases op with
  | init =>
    obtain ⟨g, -, rfl⟩ := Option.map_eq_some_iff.1 hstep
    exact hs
  | alloc size =>
    obtain ⟨⟨p, g⟩, -, rfl⟩ := Option.map_eq_some_iff.1 hstep
    simp only
    split
    · exact hs
    · exact List.forall_mem_cons.2 ⟨h.2, hs⟩
  | free ptr size =>
    simp only [HeapOp.run] at hstep
    split at hstep
    · obtain ⟨g, -, rfl⟩ := Option.map_eq_some_iff.1 hstep
      exact fun o ho => hs o (List.mem_of_mem_erase ho)
    · exact absurd hstep (by simp)
  | realloc => exact h.elim
  | write ptr size i v =>
    simp only [HeapOp.run] at hstep
    split at hstep
    · obtain rfl := Option.some.inj hstep
      exact hs
    · exact absurd hstep (by simp)
  | pages s =>
    obtain rfl := Option.some.inj hstep
    exact hs

/-- An operation other than `kfree` gives no page back. -/
theorem SmallIntact.returned (C : PageContract pa Owned Together) (hI : HeapInv Owned σ.heap σ.live l)
    (hst : Started σ.heap l) {op : HeapOp pa} (h : SmallIntact Owned σ op)
    (hop : ∀ ptr size, op ≠ .free ptr size) (hstep : heapStep σ op σ') :
    σ'.heap.returned = σ.heap.returned := by
  unfold heapStep at hstep
  cases op with
  | init =>
    obtain ⟨g, hg, rfl⟩ := Option.map_eq_some_iff.1 hstep
    rcases hI.heapInit_spec C hst hg with ⟨rfl, -⟩ | ⟨l', -, -, hret, -⟩
    · rfl
    · exact hret
  | alloc size =>
    obtain ⟨⟨p, g⟩, hg, rfl⟩ := Option.map_eq_some_iff.1 hstep
    obtain ⟨l', hout, -⟩ := hI.kmalloc_spec C hst (.inl h.2) hg
    cases hout with
    | null _ _ hret => exact hret
    | object _ _ _ hret => exact hret
  | free ptr size => exact absurd rfl (hop ptr size)
  | realloc => exact h.elim
  | write ptr size i v =>
    simp only [HeapOp.run] at hstep
    split at hstep
    · obtain rfl := Option.some.inj hstep
      rfl
    · exact absurd hstep (by simp)
  | pages s =>
    obtain rfl := Option.some.inj hstep
    rfl

/-- **A page is given back with the last object of its box**, and only then. -/
theorem HeapInv.returnsExactly (C : PageContract pa Owned Together)
    (hI : HeapInv Owned σ.heap σ.live l) (hst : Started σ.heap l) (hs : AllSmall σ.live)
    {op : HeapOp pa} (hok : SmallIntact Owned σ op) (hstep : heapStep σ op σ') :
    ReturnsExactly l σ op σ' := by
  by_cases hop : ∃ ptr size, op = .free ptr size
  · obtain ⟨ptr, size, rfl⟩ := hop
    have hspan : KeepsSpans Owned Together σ (.free ptr size) := hok.keepsSpans
    have hrun := hstep
    simp only [heapStep, HeapOp.run] at hrun
    split at hrun
    · next ho =>
      obtain ⟨g, hg, rfl⟩ := Option.map_eq_some_iff.1 hrun
      obtain ⟨l', -, -, -, b, hb, hin, hret⟩ := hI.kfree_small C hst ho (hs _ ho) hspan hg
      have hbox : ∀ b' ∈ l, InPage b' (ptr, size) → b' = b := fun b' hb' hin' => by
        by_contra hne
        exact (hI.boxes_apart hb' hb hne).not_has hin' hin
      split at hret
      · next hlast =>
        refine ⟨.inr ⟨b, hb, hret⟩, fun b' hb' => ⟨fun he => ?_, ?_⟩⟩
        · obtain rfl : b = b' := by simpa using hret.symm.trans he
          exact ⟨ptr, size, rfl, hin, hlast⟩
        · rintro ⟨ptr', size', he, hin', -⟩
          obtain ⟨rfl, rfl⟩ := (HeapOp.free.injEq ..).mp he
          rw [hbox b' hb' hin']
          exact hret
      · next hmore =>
        refine ⟨.inl hret, fun b' hb' => ⟨fun he => ?_, ?_⟩⟩
        · exact absurd (hret.symm.trans he) (by simp)
        · rintro ⟨ptr', size', he, hin', hlast⟩
          obtain ⟨rfl, rfl⟩ := (HeapOp.free.injEq ..).mp he
          exact absurd (hbox b' hb' hin' ▸ hlast) hmore
    · exact absurd hrun (by simp)
  · have hret := hok.returned C hI hst (fun ptr size he => hop ⟨ptr, size, he⟩) hstep
    refine ⟨.inl hret, fun b _ => ⟨fun he => ?_, fun ⟨ptr, size, he, _⟩ => absurd ⟨ptr, size, he⟩ hop⟩⟩
    exact absurd (hret.symm.trans he) (by simp)

/-- **A block is marked** when it belongs to exactly one object of the box. -/
theorem HeapInv.bit_iff_owner (hI : HeapInv Owned σ.heap σ.live l) {b : ℕ} (hb : b ∈ l) {i : ℕ}
    (hi : i < (σ.heap.box b).totalBlocks) : bit (σ.heap.box b).map i = true ↔
      ∃! o, o ∈ σ.live ∧ OwnsBlock σ.heap b i o := by
  obtain ⟨-, hdata, htotal⟩ := hI.formed b hb
  rw [htotal] at hi
  have haddr : (σ.heap.box b).dataPointer + i * blockSize = blockAddr b i := hdata ▸ rfl
  rw [hI.bits b hb i (by simp only [mapBytes, blocksPerBox_eq] at *; omega)]
  simp only [OwnsBlock, haddr]
  constructor
  · rintro ⟨-, o, ho, hhas⟩
    obtain ⟨k, -, -, he, hobj⟩ := (hI.inPage_iff hb ho).1 (hI.inPage_of_has hb hi ho hhas)
    refine ⟨o, ⟨ho, by rw [he]; exact hobj, hhas⟩, fun o' ⟨ho', _, hhas'⟩ => ?_⟩
    by_contra hne
    exact (hI.apart.forall ho' ho hne).not_has hhas' hhas
  · rintro ⟨o, ⟨ho, -, hhas⟩, -⟩
    exact ⟨hi, o, ho, hhas⟩

/-- The invariant, for small objects, in the words of the boxes. -/
theorem HeapInv.boxesSound (C : PageContract pa Owned Together)
    (hI : HeapInv Owned σ.heap σ.live l) (hst : Started σ.heap l) (hs : AllSmall σ.live) :
    BoxesSound Owned σ l := by
  refine ⟨hI.chain, fun b hb i hi => hI.bit_iff_owner hb hi, hI.apart, fun o ho => ?_, hI.room, ?_,
    fun op σ' hok hstep => hI.returnsExactly C hst hs hok hstep⟩
  · obtain ⟨p, size⟩ := o
    obtain ⟨hs', b, hb, k, hp, hk, hobj⟩ | ⟨hl, -⟩ := hI.placed _ ho
    · obtain rfl : p = blockAddr b k + objectAlign := hp
      obtain ⟨-, hdata, htotal⟩ := hI.formed b hb
      rw [show reserved (blockAddr b k + objectAlign, size) = _ from reserved_objectAt hs']
      have hin := (run_within (b := b) hk).2
      refine ⟨b, hb, k, hobj, ?_, rfl, htotal ▸ hk, Nat.le_add_right _ _, by simpa [pageRange] using hin⟩
      rw [hdata]
      rfl
    · exact absurd hl (Nat.not_lt.2 (hs _ ho))
  · have hnone : largeObjects σ.live = [] :=
      List.filter_eq_nil_iff.2 fun o ho => by simpa using hs o ho
    simpa [hnone] using hI.held

/-- **The boxes are sound** after every run of calls for objects of at most a page. -/
theorem boxes_sound (C : PageContract pa Owned Together)
    (hr : Reach (HeapStart Owned) (fun σ op σ' => SmallIntact Owned σ op ∧ heapStep σ op σ') σ) :
    ∃ l, BoxesSound Owned σ l := by
  obtain ⟨l, hI, hst, hs⟩ : ∃ l, HeapInv Owned σ.heap σ.live l ∧ Started σ.heap l ∧ AllSmall σ.live :=
    hr.invariant (P := fun σ => ∃ l, HeapInv Owned σ.heap σ.live l ∧ Started σ.heap l ∧ AllSmall σ.live)
      (fun σ hσ => ⟨[], hσ.inv.1, hσ.inv.2, by simp [AllSmall, hσ.live]⟩)
      fun σ op σ' _ ⟨_, hI, hst, hs⟩ hstep => by
        obtain ⟨l', hI', hst'⟩ := hI.step C hst hstep.1.keepsSpans hstep.2
        exact ⟨l', hI', hst', hstep.1.allSmall hs hstep.2⟩
  exact ⟨l, hI.boxesSound C hst hs⟩

/-! ### A page allocator -/

/-- Take a page off a stack of free pages. -/
def popPages : ℕ → List ℕ → ℕ × List ℕ
  | 1, addr :: s => (addr, s)
  | _, s => (0, s)

/-- Free pages on a stack, handed out one at a time. -/
abbrev pageStack : PageAllocator where
  State := List ℕ
  allocPages count s := some (popPages count s)
  freePages addr _ s := some (addr :: s)

/-- The pages on the stack and in the heap are different, aligned and not at `0`. -/
def StackOwned (s : List ℕ) (held : List (ℕ × ℕ)) : Prop :=
  (s.map (·, 1) ++ held).Nodup ∧
    ∀ r ∈ s.map (·, 1) ++ held, r.2 = 1 ∧ 0 < r.1 ∧ pageSize ∣ r.1 ∧ r.1 + pageSize ≤ 2 ^ 32

instance (s : List ℕ) (held : List (ℕ × ℕ)) : Decidable (StackOwned s held) :=
  inferInstanceAs (Decidable (_ ∧ _))

theorem StackOwned.perm {s s' : List ℕ} {held held' : List (ℕ × ℕ)} (h : StackOwned s held)
    (hp : (s.map (·, 1) ++ held).Perm (s'.map (·, 1) ++ held')) : StackOwned s' held' :=
  ⟨hp.nodup_iff.1 h.1, fun r hr => h.2 r (hp.mem_iff.2 hr)⟩

theorem StackOwned.pop {s s' : List ℕ} {held : List (ℕ × ℕ)} {count addr : ℕ}
    (h : StackOwned s held) (hrun : popPages count s = (addr, s')) :
    (addr = 0 ∧ s' = s) ∨ addr ≠ 0 ∧ s = addr :: s' ∧ count = 1 := by
  unfold popPages at hrun
  split at hrun
  · obtain ⟨rfl, rfl⟩ := Prod.mk.inj hrun
    exact .inr ⟨(h.2 (_, 1) (by simp)).2.1.ne', rfl, rfl⟩
  · obtain ⟨rfl, rfl⟩ := Prod.mk.inj hrun
    exact .inl ⟨rfl, rfl⟩

/-- Pages that are taken off the stack are apart from those of the heap. -/
theorem StackOwned.apart {s : List ℕ} {held : List (ℕ × ℕ)} {addr : ℕ}
    (h : StackOwned (addr :: s) held) {r : ℕ × ℕ} (hr : r ∈ held) :
    (pageRange (addr, 1)).Apart (pageRange r) := by
  obtain ⟨-, -, ⟨x, hx⟩, -⟩ := h.2 (addr, 1) (by simp)
  obtain ⟨hone, -, ⟨y, hy⟩, -⟩ := h.2 r (by simp [hr])
  have hne : r.1 ≠ addr := fun he => (List.nodup_cons.1 h.1).1 (by
    rw [← he, ← hone]
    exact List.mem_append_right _ hr)
  simp only [Extent.Apart, pageRange, hone, pageSize] at *
  omega

theorem StackOwned.push {s : List ℕ} {held : List (ℕ × ℕ)} (h : StackOwned s held) {r : ℕ × ℕ}
    (hr : r ∈ held) : StackOwned (r.1 :: s) (held.erase r) := by
  have hone : (r.1, 1) = r := Prod.ext rfl (h.2 r (by simp [hr])).1.symm
  refine h.perm (((List.perm_cons_erase hr).append_left _).trans ?_)
  rw [List.map_cons, hone]
  exact List.perm_middle

/-- The stack is a page allocator as the heap expects it. -/
theorem pageStack_contract : PageContract pageStack StackOwned fun count _ => count = 1 where
  together_one _ := rfl
  alloc hown hcount hrun h0 := by
    subst hcount
    obtain ⟨-, rfl, -⟩ := (hown.pop (Option.some.inj hrun)).resolve_left fun he => h0 he.1
    obtain ⟨-, -, -, hle⟩ := hown.2 (_, 1) List.mem_cons_self
    exact ⟨hown.perm List.perm_middle.symm, by simpa using hle, fun r hr => hown.apart hr⟩
  alloc_zero hrun := (Prod.mk.inj (Option.some.inj hrun)).1.symm
  alloc_null hown hrun := by
    rcases hown.pop (Option.some.inj hrun) with ⟨-, he⟩ | ⟨h0, -⟩
    · exact he
    · exact absurd rfl h0
  free hown hr hrun := by
    obtain rfl := Option.some.inj hrun
    exact hown.push hr

/-- The heap before its first call, over clear memory, with two free pages. -/
def twoPageHeap : HeapSystem pageStack where
  heap :=
    { boxes := none
      box := fun _ => ⟨none, 0, 0, fun _ => 0, 0, 0⟩
      mem := fun _ => 0
      boxHash := boxHashZero
      initialized := false
      nextBoxId := 0
      pages := ⟨[0x1000, 0x2000], [], []⟩ }
  live := []

theorem heapStart_twoPageHeap : HeapStart StackOwned twoPageHeap := ⟨rfl, rfl, rfl, rfl, by decide⟩

/-- Two objects that do not fit into one box; the second is freed again. -/
theorem boxes_sound_twoPageHeap : ∃ σ : HeapSystem pageStack, σ.live = [(0x1030, 64)] ∧
    σ.heap.returned = [(0x2000, 1)] ∧ ∃ l, BoxesSound StackOwned σ l := by
  have hrun : (([.alloc 64, .alloc 3900, .free 0x2030 3900] : List (HeapOp pageStack)).foldlM
      (fun (σ : HeapSystem pageStack) op => if SmallIntact StackOwned σ op then op.run σ else none)
      twoPageHeap).map
        (fun σ => (σ.live, σ.heap.returned)) = some ([(0x1030, 64)], [(0x2000, 1)]) := by
    decide +kernel
  obtain ⟨σ, hσ, he⟩ := Option.map_eq_some_iff.1 hrun
  obtain ⟨hlive, hret⟩ := Prod.mk.inj he
  exact ⟨σ, hlive, hret,
    boxes_sound pageStack_contract (Reach.of_guarded heapStart_twoPageHeap hσ)⟩

end Flopperating
