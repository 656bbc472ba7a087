/-
# What the heap does to its state

There is one lemma for each thing that the functions of the heap do to its
state, each from `HeapInv` to `HeapInv`:

* `HeapInv.register`, a new page becomes a box;
* `HeapInv.place`, an object takes a run of clear blocks;
* `HeapInv.placeLarge`, an object takes new pages;
* `HeapInv.clearRun`, an object gives its run back;
* `HeapInv.dropBox`, a box without objects is unlinked and given back;
* `HeapInv.freeLarge`, an object gives its pages back;
* `HeapInv.setMem`, a write that leaves the headers.
-/

import Flopperating.Mem.HeapInvariant

namespace Flopperating

open ByteMemory Bitmap LinkedList

variable {pa : PageAllocator} {Owned : pa.State → List (ℕ × ℕ) → Prop}

namespace HeapInv

variable {h : Heap pa.traced} {live : List (ℕ × ℕ)} {l : List ℕ}

theorem objectAlign_le (hI : HeapInv Owned h live l) {o : ℕ × ℕ} (ho : o ∈ live) :
    objectAlign ≤ o.1 := by
  rcases hI.placed o ho with ⟨-, b, -, k, hp, -⟩ | ⟨-, hp, -⟩
  · rw [hp]
    exact Nat.le_add_left _ _
  · exact hp.le

/-- The invariant does not depend on `heap_initialized`. -/
theorem of_initialized (hI : HeapInv Owned h live l) (v : Bool) :
    HeapInv Owned { h with initialized := v } live l :=
  ⟨hI.chain, hI.formed, hI.owned, hI.valid, hI.heldApart, hI.held, hI.placed, hI.room, hI.apart,
    hI.bits⟩

/-- **A write that leaves the headers.** -/
theorem setMem (hI : HeapInv Owned h live l) {m : Memory}
    (hm : ∀ o ∈ live, readWord m (o.1 - objectAlign) = readWord h.mem (o.1 - objectAlign)) :
    HeapInv Owned { h with mem := m } live l where
  chain := hI.chain
  formed := hI.formed
  owned := hI.owned
  valid := hI.valid
  heldApart := hI.heldApart
  held := hI.held
  placed o ho := by
    rcases hI.placed o ho with ⟨hs, b, hb, k, hp, hk, hobj⟩ | ⟨hs, hp, hobj⟩
    · exact .inl ⟨hs, b, hb, k, hp, hk, (hm o ho).trans hobj⟩
    · exact .inr ⟨hs, hp, (hm o ho).trans hobj⟩
  room := hI.room
  apart := hI.apart
  bits := hI.bits

/-- The first words of an object's extent are its header. -/
theorem word_within (hI : HeapInv Owned h live l) {o : ℕ × ℕ} (ho : o ∈ live) {k : ℕ} (hk : k ≤ 4) :
    (Extent.mk (o.1 - objectAlign + k) 4).Within (reserved o) := by
  have hlen : 8 ≤ (reserved o).len := by
    have hroom := hI.room o ho
    obtain ⟨p, size⟩ := o
    rcases hI.placed _ ho with ⟨hs, -⟩ | ⟨hs, -⟩
    · have hpos : 0 < neededBlocks size := neededBlocks_pos hs
      rw [reserved_small hs]
      simp only [blockSize]
      omega
    · simp only [pageSize, objectAlign] at *
      omega
  have hstart : (reserved o).start = o.1 - objectAlign := rfl
  simp only [Extent.Within, hstart]
  omega

/-- A write into extents apart from an object leaves its header. -/
theorem header_congr (hI : HeapInv Owned h live l) {o : ℕ × ℕ} (ho : o ∈ live) {e : Extent}
    (hap : e.Apart (reserved o)) {m : Memory} (hm : ∀ x, ¬ e.Has x → m x = h.mem x) {k : ℕ}
    (hk : k ≤ 4) : readWord m (o.1 - objectAlign + k) = readWord h.mem (o.1 - objectAlign + k) :=
  readWord_congr fun x hx hx' => hm x fun hin =>
    (hap.mono ⟨le_rfl, le_rfl⟩ (hI.word_within ho hk)).not_has hin ⟨hx, hx'⟩

/-- **A write into the payload of an object.** -/
theorem writePayload {p size : ℕ} (hI : HeapInv Owned h live l) (ho : (p, size) ∈ live)
    {m : Memory} (hm : ∀ x, (x < p ∨ p + size ≤ x) → m x = h.mem x) :
    HeapInv Owned { h with mem := m } live l := by
  refine hI.setMem fun o ho' => ?_
  by_cases he : o = (p, size)
  · rw [he]
    refine readWord_congr fun x hx hx' => hm x (.inl ?_)
    have hp : objectAlign ≤ p := hI.objectAlign_le ho
    simp only [objectAlign] at *
    omega
  · have hap : (reserved (p, size)).Apart (reserved o) :=
      hI.apart.forall ho ho' fun e => he e.symm
    refine hI.header_congr ho' hap (fun x hx => hm x ?_) (Nat.zero_le 4)
    have hroom := hI.room _ ho
    have hstart : (reserved (p, size)).start = p - objectAlign := rfl
    unfold Extent.Has at hx
    rw [hstart] at hx
    simp only [objectAlign] at *
    omega

/-! ### Boxes -/

/-- **A new page becomes a box.** -/
theorem register (hI : HeapInv Owned h live l) {b : ℕ} {h' : Heap pa.traced} (hmem : h'.mem = h.mem)
    (hhead : h'.boxes = some b) (hnext : h'.next b = h.boxes)
    (hbox : ∀ b' ≠ b, h'.box b' = h.box b') (hformed : FormedBox b (h'.box b))
    (hclear : ∀ i < 8 * mapBytes, bit (h'.box b).map i = false)
    (hheld : h'.held = (b, 1) :: h.held) (howned : Owned h'.pageState h'.held) (h0 : b ≠ 0)
    (hle : b + 1 * pageSize ≤ 2 ^ 32)
    (hap : ∀ r ∈ h.held, (pageRange (b, 1)).Apart (pageRange r)) :
    HeapInv Owned h' live (b :: l) := by
  have hbl : ∀ b' ∈ l, b' ≠ b := fun b' hb' he => by
    have hself := hap _ (hI.box_mem hb')
    unfold Extent.Apart pageRange at hself
    simp only [pageSize] at hself
    omega
  refine ⟨⟨hhead, ?_⟩, ?_, howned, ?_, ?_, ?_, fun o ho => ?_, hI.room, hI.apart, ?_⟩
  · rw [hnext]
    refine hI.chain.congr fun b' hb' => ?_
    rw [Heap.next, hbox b' (hbl b' hb'), Heap.next]
  · refine List.forall_mem_cons.2 ⟨hformed, fun b' hb' => ?_⟩
    rw [hbox b' (hbl b' hb')]
    exact hI.formed b' hb'
  · rw [hheld]
    exact List.forall_mem_cons.2 ⟨⟨Nat.pos_of_ne_zero h0, hle⟩, hI.valid⟩
  · rw [hheld]
    exact List.pairwise_cons.2 ⟨hap, hI.heldApart⟩
  · rw [hheld]
    exact hI.held.cons _
  · rcases hI.placed o ho with ⟨hs, b', hb', hrest⟩ | ⟨hs, hp, hobj⟩
    · refine .inl ⟨hs, b', List.mem_cons_of_mem _ hb', ?_⟩
      rw [Heap.objectBox, hmem]
      exact hrest
    · refine .inr ⟨hs, hp, ?_⟩
      rw [Heap.objectBox, hmem]
      exact hobj
  · intro b' hb' i hi
    rcases List.mem_cons.1 hb' with rfl | hb'
    · -- no object lies in the new page
      rw [hclear i hi]
      simp only [Bool.false_eq_true, false_iff, not_and, not_exists]
      intro hi' o ho hhas
      obtain ⟨r, hr, hin⟩ := hI.exists_range ho
      exact ((hap r hr).mono ⟨le_rfl, le_rfl⟩ hin).not_has (pageRange_has_blockAddr hi') hhas
    · rw [hbox b' (hbl b' hb')]
      exact hI.bits b' hb' i hi

/-- **A box without objects is unlinked and given back.** -/
theorem dropBox (hI : HeapInv Owned h live l) {b : ℕ} {h' : Heap pa.traced} (hb : b ∈ l)
    (hclear : ∀ i < 8 * mapBytes, bit (h.box b).map i = false) (hmem : h'.mem = h.mem)
    (hchain : Chain h'.next h'.boxes (l.erase b))
    (hbox : ∀ b', { h'.box b' with next := (h.box b').next } = h.box b')
    (hheld : h'.held = h.held.erase (b, 1)) (howned : Owned h'.pageState h'.held) :
    HeapInv Owned h' live (l.erase b) := by
  have hperm : h.held.Perm ((b, 1) :: h'.held) := hheld ▸ List.perm_cons_erase (hI.box_mem hb)
  have hmap : ∀ b', (h'.box b').map = (h.box b').map := fun b' => by rw [← hbox b']
  refine ⟨hchain, fun b' hb' => ?_, howned, ?_, ?_, ?_, fun o ho => ?_, hI.room, hI.apart, ?_⟩
  · obtain ⟨h₁, h₂, h₃⟩ := hI.formed b' (List.mem_of_mem_erase hb')
    rw [← hbox b'] at h₁ h₂ h₃
    exact ⟨h₁, h₂, h₃⟩
  · rw [hheld]
    exact fun r hr => hI.valid r (List.mem_of_mem_erase hr)
  · rw [hheld]
    exact hI.heldApart.sublist List.erase_sublist
  · refine (List.perm_cons (b, 1)).1 ((hperm.symm.trans hI.held).trans ?_)
    rw [← List.cons_append, ← List.map_cons (f := (·, 1))]
    exact ((List.perm_cons_erase hb).map _).append_right _
  · rcases hI.placed o ho with ⟨hs, b', hb', k, hp, hk, hobj⟩ | ⟨hs, hp, hobj⟩
    · refine .inl ⟨hs, b', (List.mem_erase_of_ne fun he => ?_).2 hb', k, hp, hk, ?_⟩
      · -- the first block of an object in the box would be set
        have hpos := neededBlocks_pos hs
        have hk' : k < blocksPerBox := by omega
        have hset := (hI.bits b hb k (by simp only [mapBytes, blocksPerBox_eq] at *; omega)).2
          ⟨hk', o, ho, ?_⟩
        · rw [hclear k (by simp only [mapBytes, blocksPerBox_eq] at *; omega)] at hset
          exact absurd hset Bool.false_ne_true
        · obtain ⟨p, size⟩ := o
          obtain rfl : p = blockAddr b k + objectAlign := he ▸ hp
          exact reserved_small hs ▸ has_blockAddr_iff.2 ⟨le_rfl, by omega⟩
      · rw [Heap.objectBox, hmem]
        exact hobj
    · refine .inr ⟨hs, hp, ?_⟩
      rw [Heap.objectBox, hmem]
      exact hobj
  · intro b' hb' i hi
    rw [hmap]
    exact hI.bits b' (List.mem_of_mem_erase hb') i hi

/-! ### Objects in boxes -/

/-- A run of clear blocks is apart from every object. -/
theorem run_apart (hI : HeapInv Owned h live l) {b k n : ℕ} (hb : b ∈ l) (hn : 0 < n)
    (hk : k + n ≤ blocksPerBox)
    (hclear : ∀ i, k ≤ i → i < k + n → bit (h.box b).map i = false) {o : ℕ × ℕ} (ho : o ∈ live) :
    (Extent.mk (blockAddr b k) (n * blockSize)).Apart (reserved o) := by
  have hfree : ∀ i, k ≤ i → i < k + n → ¬ (reserved o).Has (blockAddr b i) := fun i hi hi' hhas => by
    have hset := (hI.bits b hb i (by simp only [mapBytes, blocksPerBox_eq] at *; omega)).2
      ⟨by omega, o, ho, hhas⟩
    rw [hclear i hi hi'] at hset
    exact absurd hset Bool.false_ne_true
  obtain ⟨p, size⟩ := o
  rcases hI.placed _ ho with ⟨hs, b', hb', k', hp, hk', -⟩ | ⟨hs, -, -⟩
  · obtain rfl : p = blockAddr b' k' + objectAlign := hp
    have hres := reserved_objectAt (b := b') (k := k') hs
    rw [objectAt] at hres
    by_cases hbb : b = b'
    · subst hbb
      rw [hres] at hfree ⊢
      refine runs_apart (fun hin => ?_) fun hin => ?_
      · exact hfree k' hin.1 hin.2 (has_blockAddr_iff.2 ⟨le_rfl, by have := neededBlocks_pos hs; omega⟩)
      · exact hfree k le_rfl (by omega) (has_blockAddr_iff.2 hin)
    · rw [hres]
      exact (hI.boxes_apart hb hb' hbb).mono (run_within hk) (run_within hk')
  · rw [reserved_large hs]
    exact (hI.box_apart_pagesOf hb ho hs).mono (run_within hk) ⟨le_rfl, le_rfl⟩

/-- The objects of other boxes have no part of a box's blocks. -/
theorem objectAt_has_iff (hI : HeapInv Owned h live l) {b b' k i size : ℕ} (hb : b ∈ l)
    (hb' : b' ∈ l) (hs : size ≤ pageSize) (hk : k + neededBlocks size ≤ blocksPerBox)
    (hi : i < blocksPerBox) :
    (reserved (objectAt b k size)).Has (blockAddr b' i) ↔
      b' = b ∧ k ≤ i ∧ i < k + neededBlocks size := by
  rw [reserved_objectAt hs]
  by_cases hbb : b' = b
  · rw [hbb, has_blockAddr_iff]
    exact (and_iff_right rfl).symm
  · refine iff_of_false (fun hhas => ?_) fun hand => hbb hand.1
    exact ((hI.boxes_apart hb hb' fun e => hbb e.symm).mono (run_within hk) ⟨le_rfl, le_rfl⟩).not_has
      hhas (pageRange_has_blockAddr hi)

/-- **An object takes a run of clear blocks.** -/
theorem place (hI : HeapInv Owned h live l) {b k size : ℕ} (hb : b ∈ l) (hs : size ≤ pageSize)
    (hk : k + neededBlocks size ≤ blocksPerBox)
    (hclear : ∀ i, k ≤ i → i < k + neededBlocks size → bit (h.box b).map i = false) :
    HeapInv Owned ((h.setBox b { h.box b with
        map := setRun (h.box b).map k (neededBlocks size) true }).writeObject (blockAddr b k) b size)
      (objectAt b k size :: live) l := by
  set h' := (h.setBox b { h.box b with
    map := setRun (h.box b).map k (neededBlocks size) true }).writeObject (blockAddr b k) b size with hh'
  have hpos := neededBlocks_pos hs
  have hap : ∀ o ∈ live, (reserved (objectAt b k size)).Apart (reserved o) := fun o ho =>
    reserved_objectAt (b := b) (k := k) hs ▸ hI.run_apart hb hpos hk hclear ho
  have hlt : b < 2 ^ 32 := by
    have := (hI.valid _ (hI.box_mem hb)).2
    simp only [pageSize] at this
    omega
  -- the header written is the one read, and those of the other objects stay
  have hself : h'.objectBox (blockAddr b k) = b := Heap.objectBox_writeObject hlt
  have hother : ∀ o ∈ live, h'.objectBox (o.1 - objectAlign) = h.objectBox (o.1 - objectAlign) :=
    fun o ho => by
      have hhead : (Extent.mk (blockAddr b k) 8).Within (reserved (objectAt b k size)) := by
        rw [reserved_objectAt hs]
        simp only [Extent.Within, blockSize]
        omega
      have hword : readWord h'.mem (o.1 - objectAlign + 0) = readWord h.mem (o.1 - objectAlign + 0) :=
        hI.header_congr ho ((hap o ho).mono hhead ⟨le_rfl, le_rfl⟩) (fun x hx => by
          simp only [Extent.Has] at hx
          exact Heap.writeObject_mem (by omega)) (Nat.zero_le 4)
      exact hword
  have hmap : (h'.box b).map = setRun (h.box b).map k (neededBlocks size) true :=
    congrArg Box.map Heap.setBox_box_self
  have hbox : ∀ b' ≠ b, h'.box b' = h.box b' := fun b' hne => Heap.setBox_box_of_ne hne
  refine ⟨?_, fun b' hb' => ?_, hI.owned, hI.valid, hI.heldApart, ?_, ?_, ?_, ?_, ?_⟩
  · have hnext : h'.next = h.next := Heap.setBox_next rfl
    rw [hnext]
    exact hI.chain
  · obtain ⟨h₁, h₂, h₃⟩ := hI.formed b' hb'
    rcases eq_or_ne b' b with rfl | hne
    · rw [show h'.box b' = _ from Heap.setBox_box_self]
      exact ⟨h₁, h₂, h₃⟩
    · rw [hbox b' hne]
      exact ⟨h₁, h₂, h₃⟩
  · rw [largeObjects_cons_small hs]
    exact hI.held
  · refine List.forall_mem_cons.2 ⟨.inl ⟨hs, b, hb, k, rfl, hk, hself⟩, fun o ho => ?_⟩
    rcases hI.placed o ho with ⟨hs', b', hb', k', hp, hk', hobj⟩ | ⟨hs', hp, hobj⟩
    · exact .inl ⟨hs', b', hb', k', hp, hk', (hother o ho).trans hobj⟩
    · exact .inr ⟨hs', hp, (hother o ho).trans hobj⟩
  · refine List.forall_mem_cons.2 ⟨?_, hI.room⟩
    rw [reserved_objectAt hs]
    simp only [objectAt, neededBlocks_eq hs, blockSize, objectAlign]
    omega
  · exact List.pairwise_cons.2 ⟨hap, hI.apart⟩
  · intro b' hb' i hi
    have hcover := fun hi' => hI.objectAt_has_iff (i := i) hb hb' hs hk hi'
    have hold := hI.bits b' hb' i hi
    rcases eq_or_ne b' b with rfl | hne
    · rw [hmap, bit_setRun]
      split
      · next hin => exact iff_of_true rfl ⟨by omega, _, List.mem_cons_self,
          (hcover (by omega)).2 ⟨rfl, hin⟩⟩
      · next hin =>
        rw [hold]
        refine and_congr_right fun hi' => ?_
        simp only [List.mem_cons, exists_eq_or_imp, hcover hi', hin, and_false, false_or]
    · rw [hbox b' hne, hold]
      refine and_congr_right fun hi' => ?_
      simp only [List.mem_cons, exists_eq_or_imp, hcover hi', hne, false_and, false_or]

/-- **An object gives its run back.** -/
theorem clearRun {b k size : ℕ} (hI : HeapInv Owned h (objectAt b k size :: live) l) (hb : b ∈ l)
    (hs : size ≤ pageSize) (hk : k + neededBlocks size ≤ blocksPerBox) :
    HeapInv Owned (h.setBox b { h.box b with
      map := setRun (h.box b).map k (neededBlocks size) false }) live l := by
  set h' := h.setBox b { h.box b with
    map := setRun (h.box b).map k (neededBlocks size) false } with hh'
  have hmap : (h'.box b).map = setRun (h.box b).map k (neededBlocks size) false :=
    congrArg Box.map Heap.setBox_box_self
  have hbox : ∀ b' ≠ b, h'.box b' = h.box b' := fun b' hne => Heap.setBox_box_of_ne hne
  obtain ⟨hap, hapart⟩ := List.pairwise_cons.1 hI.apart
  refine ⟨?_, fun b' hb' => ?_, hI.owned, hI.valid, hI.heldApart, ?_,
    fun o ho => hI.placed o (List.mem_cons_of_mem _ ho),
    fun o ho => hI.room o (List.mem_cons_of_mem _ ho), hapart, ?_⟩
  · have hnext : h'.next = h.next := Heap.setBox_next rfl
    rw [hnext]
    exact hI.chain
  · obtain ⟨h₁, h₂, h₃⟩ := hI.formed b' hb'
    rcases eq_or_ne b' b with rfl | hne
    · rw [show h'.box b' = _ from Heap.setBox_box_self]
      exact ⟨h₁, h₂, h₃⟩
    · rw [hbox b' hne]
      exact ⟨h₁, h₂, h₃⟩
  · have hheld := hI.held
    rwa [largeObjects_cons_small hs] at hheld
  · intro b' hb' i hi
    have hcover := fun hi' => hI.objectAt_has_iff (i := i) hb hb' hs hk hi'
    have hold := hI.bits b' hb' i hi
    rcases eq_or_ne b' b with rfl | hne
    · rw [hmap, bit_setRun]
      split
      · next hin =>
        -- the blocks of the object belong to no other
        refine iff_of_false Bool.false_ne_true fun ⟨hi', o, ho, hhas⟩ => ?_
        exact (hap o ho).not_has ((hcover hi').2 ⟨rfl, hin⟩) hhas
      · next hin =>
        rw [hold]
        refine and_congr_right fun hi' => ?_
        simp only [List.mem_cons, exists_eq_or_imp, hcover hi', hin, and_false, false_or]
    · rw [hbox b' hne, hold]
      refine and_congr_right fun hi' => ?_
      simp only [List.mem_cons, exists_eq_or_imp, hcover hi', hne, false_and, false_or]

/-! ### Objects in pages of their own -/

/-- **An object takes new pages.** -/
theorem placeLarge (hI : HeapInv Owned h live l) {a size : ℕ} {h' : Heap pa.traced}
    (hbox : h'.box = h.box) (hhead : h'.boxes = h.boxes) (hs : pageSize < size)
    (hlen : objectAlign + size ≤ neededPages size * pageSize) (hword : h'.objectBox a = 0)
    (hmem : ∀ x, x < a ∨ a + 8 ≤ x → h'.mem x = h.mem x)
    (hheld : h'.held = (a, neededPages size) :: h.held) (howned : Owned h'.pageState h'.held)
    (h0 : a ≠ 0) (hle : a + neededPages size * pageSize ≤ 2 ^ 32)
    (hap : ∀ r ∈ h.held, (pageRange (a, neededPages size)).Apart (pageRange r)) :
    HeapInv Owned h' ((a + objectAlign, size) :: live) l := by
  have hpages : pagesOf (a + objectAlign, size) = (a, neededPages size) := rfl
  have hres : reserved (a + objectAlign, size) = pageRange (a, neededPages size) := reserved_large hs
  have happ : ∀ o ∈ live, (pageRange (a, neededPages size)).Apart (reserved o) := fun o ho => by
    obtain ⟨r, hr, hin⟩ := hI.exists_range ho
    exact (hap r hr).mono ⟨le_rfl, le_rfl⟩ hin
  have hother : ∀ o ∈ live, h'.objectBox (o.1 - objectAlign) = h.objectBox (o.1 - objectAlign) :=
    fun o ho => by
      refine hI.header_congr ho (happ o ho) (fun x hx => hmem x ?_) (Nat.zero_le 4)
      simp only [Extent.Has, pageRange, pageSize, objectAlign] at hx hs hlen
      omega
  refine ⟨?_, fun b hb => ?_, howned, ?_, ?_, ?_, ?_, ?_, ?_, fun b hb i hi => ?_⟩
  · have hnext : h'.next = h.next := by
      funext b
      rw [Heap.next, hbox, Heap.next]
    rw [hnext, hhead]
    exact hI.chain
  · rw [hbox]
    exact hI.formed b hb
  · rw [hheld]
    exact List.forall_mem_cons.2 ⟨⟨Nat.pos_of_ne_zero h0, hle⟩, hI.valid⟩
  · rw [hheld]
    exact List.pairwise_cons.2 ⟨hap, hI.heldApart⟩
  · rw [hheld, largeObjects_cons_large hs, List.map_cons, hpages]
    exact (hI.held.cons _).trans List.perm_middle.symm
  · refine List.forall_mem_cons.2 ⟨.inr ⟨hs, ?_, hword⟩, fun o ho => ?_⟩
    · exact Nat.lt_add_of_pos_left (Nat.pos_of_ne_zero h0)
    · rcases hI.placed o ho with ⟨hs', b', hb', k', hp, hk', hobj⟩ | ⟨hs', hp, hobj⟩
      · exact .inl ⟨hs', b', hb', k', hp, hk', (hother o ho).trans hobj⟩
      · exact .inr ⟨hs', hp, (hother o ho).trans hobj⟩
  · refine List.forall_mem_cons.2 ⟨?_, hI.room⟩
    rw [hres]
    exact hlen
  · refine List.pairwise_cons.2 ⟨fun o ho => ?_, hI.apart⟩
    rw [hres]
    exact happ o ho
  · rw [hbox, hI.bits b hb i hi]
    refine and_congr_right fun hi' => ?_
    have hnot : ¬ (reserved (a + objectAlign, size)).Has (blockAddr b i) := fun hhas => by
      rw [hres] at hhas
      exact (hap _ (hI.box_mem hb)).not_has hhas (pageRange_has_blockAddr hi')
    simp only [List.mem_cons, exists_eq_or_imp, hnot, false_or]

/-- **An object gives its pages back.** -/
theorem freeLarge {o : ℕ × ℕ} (hI : HeapInv Owned h (o :: live) l) (hs : pageSize < o.2)
    {h' : Heap pa.traced} (hbox : h'.box = h.box) (hhead : h'.boxes = h.boxes)
    (hmem : h'.mem = h.mem) (hheld : h'.held = h.held.erase (pagesOf o))
    (howned : Owned h'.pageState h'.held) : HeapInv Owned h' live l := by
  have hperm : h.held.Perm (pagesOf o :: h'.held) :=
    hheld ▸ List.perm_cons_erase (hI.pagesOf_mem List.mem_cons_self hs)
  obtain ⟨-, hapart⟩ := List.pairwise_cons.1 hI.apart
  refine ⟨?_, fun b hb => ?_, howned, ?_, ?_, ?_, fun o' ho => ?_,
    fun o' ho => hI.room o' (List.mem_cons_of_mem _ ho), hapart, fun b hb i hi => ?_⟩
  · have hnext : h'.next = h.next := by
      funext b
      rw [Heap.next, hbox, Heap.next]
    rw [hnext, hhead]
    exact hI.chain
  · rw [hbox]
    exact hI.formed b hb
  · rw [hheld]
    exact fun r hr => hI.valid r (List.mem_of_mem_erase hr)
  · rw [hheld]
    exact hI.heldApart.sublist List.erase_sublist
  · have hold := hperm.symm.trans hI.held
    rw [largeObjects_cons_large hs, List.map_cons] at hold
    exact (List.perm_cons _).1 (hold.trans List.perm_middle)
  · have hobj : h'.objectBox (o'.1 - objectAlign) = h.objectBox (o'.1 - objectAlign) := by
      rw [Heap.objectBox, hmem, Heap.objectBox]
    rcases hI.placed o' (List.mem_cons_of_mem _ ho) with ⟨hs', b, hb, k, hp, hk, hw⟩ | ⟨hs', hp, hw⟩
    · exact .inl ⟨hs', b, hb, k, hp, hk, hobj.trans hw⟩
    · exact .inr ⟨hs', hp, hobj.trans hw⟩
  · rw [hbox, hI.bits b hb i hi]
    refine and_congr_right fun hi' => ?_
    have hnot : ¬ (reserved o).Has (blockAddr b i) := by
      rw [show reserved o = pageRange (pagesOf o) from reserved_large hs]
      exact (hI.box_apart_pagesOf hb List.mem_cons_self hs).not_has (pageRange_has_blockAddr hi')
    simp only [List.mem_cons, exists_eq_or_imp, hnot, false_or]

end HeapInv

end Flopperating
