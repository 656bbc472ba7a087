/-
# The headers of objects

`kmalloc` returns `mem + OBJECT_ALIGN`, four bytes past the header that it has
written, and the header has two words: its second word, `obj->size`, is the
first word of the payload.  What `kfree` gives back (`freed`) and what
`krealloc` copies follows from what the owner has stored there.

`headers_sound` says when the heap is right all the same: in runs where every
size word that a call reads stands for as many blocks, pages or bytes to copy as
the size of the object does.  `headers_overwritten` is an object whose owner has
stored zero.
-/

import Flopperating.Mem.HeapRuns

namespace Flopperating

open ByteMemory Bitmap LinkedList Transition

variable {pa : PageAllocator}

/-- What `kfree` clears or gives back, by the header that it reads. -/
def freed (h : Heap pa) (ptr : ℕ) : Extent :=
  ⟨ptr - objectAlign, if h.objectBox (ptr - objectAlign) = 0
    then neededPages (h.objectSize (ptr - objectAlign)) * pageSize
    else neededBlocks (h.objectSize (ptr - objectAlign)) * blockSize⟩

/-- The call `kfree(o.1)`, from `h` to `h'`, gives back the extent `e`: it clears
exactly the blocks in it, or frees exactly its pages. -/
def GivesBack (l : List ℕ) (h h' : Heap pa.traced) (o : ℕ × ℕ) (e : Extent) : Prop :=
  if o.2 ≤ pageSize then
    ∀ b ∈ l, ∀ i, bit (h'.box b).map i = true ↔ bit (h.box b).map i = true ∧
      ¬ (h.objectBox (o.1 - objectAlign) = b ∧ e.Has (blockAddr b i))
  else h'.returned = (e.start, e.len / pageSize) :: h.returned

/-- `krealloc` has moved the object `o` to `n`: it has copied the bytes that both
have room for, and written to the new object only. -/
structure Moved (h : Heap pa) (o : ℕ × ℕ) (newSize n : ℕ) (h' : Heap pa) : Prop where
  copied : ∃ h₁, kmalloc newSize h = some (n, h₁) ∧
    h'.mem = copy h₁.mem n o.1 (min o.2 newSize)
  bytes : ∀ i < min o.2 newSize, h'.mem (n + i) = h.mem (o.1 + i)
  inside : ∀ x, x < n - objectAlign ∨ n + max newSize objectAlign ≤ x → h'.mem x = h.mem x

/-- A size word that is read for the number of bytes to copy gives the right one. -/
def KeepsCopies (σ : HeapSystem pa) : HeapOp pa → Prop
  | .realloc ptr size newSize => ptr ≠ 0 →
      min (σ.heap.objectSize (ptr - objectAlign)) newSize = min size newSize
  | _ => True

instance (σ : HeapSystem pa) (op : HeapOp pa) : Decidable (KeepsCopies σ op) :=
  match op with
  | .realloc _ _ _ => inferInstanceAs (Decidable (_ → _))
  | .init | .alloc _ | .free _ _ | .write _ _ _ _ | .pages _ => inferInstanceAs (Decidable True)

/-- The operations that read size words which stand for the right numbers. -/
def KeepsHeaders (Owned : pa.State → List (ℕ × ℕ) → Prop) (Together : ℕ → pa.State → Prop)
    (σ : HeapSystem pa) (op : HeapOp pa) : Prop :=
  KeepsSpans Owned Together σ op ∧ KeepsCopies σ op

instance (Owned : pa.State → List (ℕ × ℕ) → Prop) (Together : ℕ → pa.State → Prop)
    [∀ s held, Decidable (Owned s held)] [∀ n s, Decidable (Together n s)] (σ : HeapSystem pa)
    (op : HeapOp pa) : Decidable (KeepsHeaders Owned Together σ op) :=
  inferInstanceAs (Decidable (_ ∧ _))

/-- What holds of the headers of the objects, with the boxes `l`. -/
structure HeadersSound (Owned : pa.State → List (ℕ × ℕ) → Prop)
    (Together : ℕ → pa.State → Prop) (σ : HeapSystem pa) (l : List ℕ) : Prop where
  registered : Chain σ.heap.next σ.heap.boxes l
  bits : ∀ b ∈ l, ∀ i < (σ.heap.box b).totalBlocks, bit (σ.heap.box b).map i = true ↔
    ∃! o, o ∈ σ.live ∧ OwnsBlock σ.heap b i o
  pages : σ.heap.held.Perm (l.map (·, 1) ++ (largeObjects σ.live).map pagesOf)
  disjoint : σ.live.Pairwise fun o p => (reserved o).Apart (reserved p)
  room : ∀ o ∈ σ.live, objectAlign + o.2 ≤ (reserved o).len
  /-- A call of `kfree` gives back what the header says, -/
  frees : ∀ o ∈ σ.live, ∀ h', kfree o.1 σ.heap = some h' →
    GivesBack l σ.heap h' o (freed σ.heap o.1)
  /-- and this is what was set aside for the object exactly when the size word
  stands for as much. -/
  exact_iff : ∀ o ∈ σ.live, freed σ.heap o.1 = reserved o ↔ SameSpan σ.heap o.1 o.2
  moves : ∀ o ∈ σ.live, ∀ newSize n h', KeepsHeaders Owned Together σ (.realloc o.1 o.2 newSize) →
    krealloc o.1 newSize σ.heap = some (n, h') → newSize ≠ 0 → n ≠ 0 →
    Moved σ.heap o newSize n h'

variable {Owned : pa.State → List (ℕ × ℕ) → Prop} {Together : ℕ → pa.State → Prop}
  {σ σ' : HeapSystem pa} {l : List ℕ}

/-! ### What `kfree` gives back -/

/-- Giving a box back leaves its map. -/
theorem heapBoxFree_map {h h' : Heap pa} {b : ℕ} (hrun : heapBoxFree b h = some h') (b' : ℕ) :
    (h'.box b').map = (h.box b').map := by
  unfold heapBoxFree at hrun
  split at hrun
  · split at hrun
    · exact absurd hrun (by simp)
    · simp only at hrun
      split at hrun
      · exact absurd hrun (by simp)
      · obtain ⟨pages, -, rfl⟩ := Option.map_eq_some_iff.1 hrun
        rfl
  · obtain rfl := Option.some.inj hrun
    rfl

namespace HeapInv

variable {h h' : Heap pa.traced} {live : List (ℕ × ℕ)}

/-- `kfree` gives back what the header says. -/
theorem givesBack_freed (hI : HeapInv Owned h live l) {o : ℕ × ℕ} (ho : o ∈ live)
    (hrun : kfree o.1 h = some h') : GivesBack l h h' o (freed h o.1) := by
  obtain ⟨p, size⟩ := o
  unfold GivesBack
  rcases hI.placed _ ho with ⟨hs, b, hb, k, hp, hk, hobj⟩ | ⟨hs, hp, hobj⟩
  · obtain rfl : p = blockAddr b k + objectAlign := hp
    have hk' : k < blocksPerBox := lt_of_lt_of_le (Nat.lt_add_of_pos_right (neededBlocks_pos hs)) hk
    have hb0 : b ≠ 0 := Nat.pos_iff_ne_zero.1 (hI.valid _ (hI.box_mem hb)).1
    have hptr : blockAddr b k + objectAlign - objectAlign = blockAddr b k := Nat.add_sub_cancel ..
    have hfetch := heapFetchBlockIndex_blockAddr (hI.formed b hb) hk'
    have hp0 : blockAddr b k + objectAlign ≠ 0 := by simp
    simp only [if_pos hs, hptr] at hobj ⊢
    unfold kfree at hrun
    simp only [if_neg hp0, hptr, hobj, if_neg hb0, hfetch, heapMapSet] at hrun
    have hmap : ∀ b', (h'.box b').map = ((h.setBox b { h.box b with
        map := setRun (h.box b).map k (neededBlocks (h.objectSize (blockAddr b k))) false }).box
          b').map := fun b' => by
      split at hrun
      · exact heapBoxFree_map hrun b'
      · obtain rfl := Option.some.inj hrun
        rfl
    intro b' hb' i
    rw [hmap b', hobj]
    simp only [freed, hptr, hobj, if_neg hb0]
    rcases eq_or_ne b' b with rfl | hne
    · rw [Heap.setBox_box_self, bit_setRun, has_blockAddr_iff]
      split
      · next hin => simp [hin]
      · next hin => simp [hin]
    · rw [Heap.setBox_box_of_ne hne]
      simp [hne.symm]
  · have hp0 : p ≠ 0 := fun h0 => absurd hp (h0 ▸ Nat.not_lt_zero _)
    simp only [if_neg (Nat.not_le.2 hs), freed, hobj, if_true,
      Nat.mul_div_cancel _ (show 0 < pageSize by decide)]
    unfold kfree at hrun
    simp only [if_neg hp0, hobj, if_true] at hrun
    obtain ⟨t, hfree, rfl⟩ := Option.map_eq_some_iff.1 hrun
    obtain ⟨s, -, rfl⟩ := Option.map_eq_some_iff.1 hfree
    rfl

/-- **What is given back is what was set aside** exactly when the size word stands
for as many blocks or pages. -/
theorem freed_eq_reserved_iff (hI : HeapInv Owned h live l) {o : ℕ × ℕ} (ho : o ∈ live) :
    freed h o.1 = reserved o ↔ SameSpan h o.1 o.2 := by
  obtain ⟨p, size⟩ := o
  rcases hI.placed _ ho with ⟨hs, b, hb, -, -, -, hobj⟩ | ⟨hs, -, hobj⟩
  · have hb0 : b ≠ 0 := Nat.pos_iff_ne_zero.1 (hI.valid _ (hI.box_mem hb)).1
    rw [freed, reserved, hobj, if_neg hb0, if_pos hs, SameSpan, if_pos hs, Extent.mk.injEq,
      Nat.mul_left_inj (by decide)]
    exact and_iff_right rfl
  · rw [freed, reserved, hobj, if_pos rfl, if_neg (Nat.not_le.2 hs), SameSpan,
      if_neg (Nat.not_le.2 hs), Extent.mk.injEq, Nat.mul_left_inj (by decide)]
    exact and_iff_right rfl

/-- **What `krealloc` copies** when the size word gives the right number of bytes. -/
theorem moved (C : PageContract pa Owned Together) (hI : HeapInv Owned h live l)
    (hst : Started h l) {o : ℕ × ℕ} (ho : o ∈ live) {newSize n : ℕ} (hfit : Fits Together h newSize)
    (hspan : SameSpan h o.1 o.2)
    (hcount : min (h.objectSize (o.1 - objectAlign)) newSize = min o.2 newSize)
    (hrun : krealloc o.1 newSize h = some (n, h')) (hnew : newSize ≠ 0) (hn : n ≠ 0) :
    Moved h o newSize n h' := by
  obtain ⟨-, -, -, hmove⟩ := hI.krealloc_spec C hst ho hfit hspan hrun
  obtain ⟨h₁, l₁, hk, hI₁, hmem, hcopy⟩ := hmove hnew hn
  rw [hcount] at hcopy
  have hap := (List.pairwise_cons.1 hI₁.apart).1 o ho
  have hroom := hI₁.room _ List.mem_cons_self
  have hroom' := hI.room o ho
  have hn4 : objectAlign ≤ n := hI₁.objectAlign_le List.mem_cons_self
  have ho4 := hI.objectAlign_le ho
  have hstart : (reserved (n, newSize)).start = n - objectAlign := rfl
  have hstart' : (reserved o).start = o.1 - objectAlign := rfl
  have hlen := (hI₁.word_within List.mem_cons_self (le_refl 4)).2
  simp only [Extent.Apart, hstart, hstart', objectAlign] at hap hroom hroom' hn4 ho4 hlen
  refine ⟨⟨h₁, hk, hcopy⟩, fun i hi => ?_, fun x hx => ?_⟩
  · -- the two objects are apart, so the bytes copied are those of the old object
    rw [hcopy, copy_of_mem (by omega) hi]
    exact hmem _ (by simp only [objectAlign]; omega)
  · simp only [objectAlign] at hx hmem
    rw [hcopy, copy_of_not_mem (by omega)]
    exact hmem x (by omega)

end HeapInv

/-- **The headers are sound** in every run whose calls read the right numbers. -/
theorem headers_sound (C : PageContract pa Owned Together)
    (hr : Reach (HeapStart Owned)
      (fun σ op σ' => KeepsHeaders Owned Together σ op ∧ heapStep σ op σ') σ) :
    ∃ l, HeadersSound Owned Together σ l := by
  obtain ⟨l, hI, hst⟩ : ∃ l, HeapInv Owned σ.heap σ.live l ∧ Started σ.heap l :=
    hr.invariant (P := fun σ => ∃ l, HeapInv Owned σ.heap σ.live l ∧ Started σ.heap l)
      (fun σ hσ => ⟨[], hσ.inv⟩)
      fun σ op σ' _ ⟨_, hI, hst⟩ hstep => hI.step C hst hstep.1.1 hstep.2
  refine ⟨l, hI.chain, fun b hb i hi => hI.bit_iff_owner hb hi, hI.held, hI.apart, hI.room,
    fun o ho h' hrun => hI.givesBack_freed ho hrun, fun o ho => hI.freed_eq_reserved_iff ho,
    fun o ho newSize n h' hok hrun hnew hn => ?_⟩
  have hptr : o.1 ≠ 0 := Nat.pos_iff_ne_zero.1 (lt_of_lt_of_le (by decide) (hI.objectAlign_le ho))
  exact hI.moved C hst ho hok.1.1 (hok.1.2 hptr) (hok.2 hptr) hrun hnew hn

/-- A run in which the owner stores a word that stands for as many blocks as the
size, and the object is moved. -/
theorem headers_sound_twoPageHeap : ∃ σ : HeapSystem pageStack, σ.live = [(0x1090, 40)] ∧
    ∃ l, HeadersSound StackOwned (fun count _ => count = 1) σ l := by
  have hrun : (([.alloc 64, .write 0x1030 64 0 70, .realloc 0x1030 64 40] :
      List (HeapOp pageStack)).foldlM (fun (σ : HeapSystem pageStack) op =>
        if KeepsHeaders StackOwned (fun count _ => count = 1) σ op then op.run σ else none)
      twoPageHeap).map HeapSystem.live = some [(0x1090, 40)] := by
    decide +kernel
  obtain ⟨σ, hσ, hlive⟩ := Option.map_eq_some_iff.1 hrun
  exact ⟨σ, hlive, headers_sound pageStack_contract (Reach.of_guarded heapStart_twoPageHeap hσ)⟩

/-- An object of 64 bytes, the first of which is set to zero. -/
def overwritten : Option (HeapSystem pageStack) :=
  ([.alloc 64, .write 0x1030 64 0 0] : List (HeapOp pageStack)).foldlM (fun σ op => op.run σ)
    twoPageHeap

/-- **A header that its owner has overwritten**: `kfree` clears one of the three
blocks of the object, and the box keeps two that belong to no object; `krealloc`
would copy nothing. -/
theorem headers_overwritten : HeapStart StackOwned twoPageHeap ∧
    ∃ σ σ' : HeapSystem pageStack, Reach (HeapStart StackOwned) heapStep σ ∧
      σ.live = [(0x1030, 64)] ∧ freed σ.heap 0x1030 ≠ reserved (0x1030, 64) ∧
      kreallocCopy 0x1030 100 σ.heap = 0 ∧ heapStep σ (.free 0x1030 64) σ' ∧ σ'.live = [] ∧
      (List.range 4).map (bit (σ'.heap.box 0x1000).map) = [false, true, true, false] := by
  refine ⟨heapStart_twoPageHeap, ?_⟩
  have hrun : overwritten.map (fun σ => (σ.live, (freed σ.heap 0x1030).len,
      kreallocCopy 0x1030 100 σ.heap)) = some ([(0x1030, 64)], 32, 0) := by
    decide +kernel
  have hfree : (overwritten.bind (HeapOp.free 0x1030 64).run).map (fun σ' => (σ'.live,
      (List.range 4).map (bit (σ'.heap.box 0x1000).map))) = some ([], [false, true, true, false]) := by
    decide +kernel
  obtain ⟨σ, hσ, he⟩ := Option.map_eq_some_iff.1 hrun
  obtain ⟨hlive, hlen, hcopy⟩ := (Prod.mk.injEq ..).mp he |>.imp_right (Prod.mk.injEq ..).mp
  rw [hσ] at hfree
  obtain ⟨σ', hσ', he'⟩ := Option.map_eq_some_iff.1 hfree
  obtain ⟨hlive', hbits⟩ := Prod.mk.inj he'
  refine ⟨σ, σ', Reach.of_foldlM (.init heapStart_twoPageHeap) hσ, hlive, fun heq => ?_, hcopy, hσ',
    hlive', hbits⟩
  rw [heq] at hlen
  exact absurd hlen (by decide)

end Flopperating
