/-
# What the functions of the heap do

`HeapInv.kmalloc_spec`, `HeapInv.kfree_small`, `HeapInv.kfree_large` and
`HeapInv.krealloc_spec` describe a call on a heap that satisfies its invariant.  A call that returns keeps the
invariant, with the object added or taken out (`Outcome`).  A `kfree` goes by
the size word that it reads, which lies in the payload: it does what it should
when that word stands for as many blocks or pages as the size does
(`SameSpan`).
-/

import Flopperating.Mem.HeapMoves

namespace Flopperating

open ByteMemory Bitmap LinkedList

variable {pa : PageAllocator}

/-- There is no box before the heap is initialised. -/
def Started (h : Heap pa.traced) (l : List ℕ) : Prop := h.initialized = false → l = []

/-- What `kmalloc` and the functions under it leave when they return `p`. -/
inductive Outcome (Owned : pa.State → List (ℕ × ℕ) → Prop) (h : Heap pa.traced)
    (live : List (ℕ × ℕ)) (size : ℕ) (l : List ℕ) : ℕ → Heap pa.traced → Prop
  | null {h' : Heap pa.traced} : HeapInv Owned h' live l → h'.mem = h.mem →
      h'.returned = h.returned → Outcome Owned h live size l 0 h'
  | object {p : ℕ} {h' : Heap pa.traced} : p ≠ 0 → HeapInv Owned h' ((p, size) :: live) l →
      (∀ x, x < p - objectAlign ∨ p + objectAlign ≤ x → h'.mem x = h.mem x) →
      h'.returned = h.returned → Outcome Owned h live size l p h'

/-- A size for which the number of pages has room for the object, and the pages lie
next to each other.  With no pages `kmalloc` fails. -/
def Fits (Together : ℕ → pa.State → Prop) (h : Heap pa.traced) (size : ℕ) : Prop :=
  size ≤ pageSize ∨ neededPages size = 0 ∨
    objectAlign + size ≤ neededPages size * pageSize ∧ Together (neededPages size) h.pageState

instance (Together : ℕ → pa.State → Prop) [∀ n s, Decidable (Together n s)] (h : Heap pa.traced)
    (size : ℕ) : Decidable (Fits Together h size) := inferInstanceAs (Decidable (_ ∨ _))

/-- The size word of an object stands for as many blocks or pages as its size. -/
def SameSpan (h : Heap pa) (p size : ℕ) : Prop :=
  if size ≤ pageSize then neededBlocks (h.objectSize (p - objectAlign)) = neededBlocks size
  else neededPages (h.objectSize (p - objectAlign)) = neededPages size

instance (h : Heap pa) (p size : ℕ) : Decidable (SameSpan h p size) :=
  inferInstanceAs (Decidable (if size ≤ pageSize then _ = _ else _ = _))

variable {Owned : pa.State → List (ℕ × ℕ) → Prop} {Together : ℕ → pa.State → Prop}

/-- What an outcome is relative to is the memory and the account. -/
theorem Outcome.congr {h₀ h h' : Heap pa.traced} {live : List (ℕ × ℕ)} {size p : ℕ} {l : List ℕ}
    (ho : Outcome Owned h live size l p h') (hmem : h.mem = h₀.mem)
    (hret : h.returned = h₀.returned) : Outcome Owned h₀ live size l p h' := by
  cases ho with
  | null hI hm hr => exact .null hI (hm.trans hmem) (hr.trans hret)
  | object hp hI hm hr => exact .object hp hI (fun x hx => (hm x hx).trans (congrFun hmem x)) (hr.trans hret)

namespace HeapInv

variable {h h' : Heap pa.traced} {live : List (ℕ × ℕ)} {l : List ℕ}

/-! ### Boxes -/

/-- **`heap_create_box`** makes a box of a new page, or changes nothing. -/
theorem heapCreateBox_spec (C : PageContract pa Owned Together) (hI : HeapInv Owned h live l)
    {r : Option ℕ} (hrun : heapCreateBox h = some (r, h')) :
    (r = none ∧ h' = h) ∨ ∃ b, r = some b ∧ HeapInv Owned h' live (b :: l) ∧ h'.mem = h.mem ∧
      h'.returned = h.returned ∧ h'.initialized = h.initialized := by
  unfold heapCreateBox at hrun
  split at hrun
  · exact absurd hrun (by simp)
  · next page pages halloc =>
    rcases C.traced_alloc hI.owned (C.together_one _) halloc with
      ⟨rfl, rfl⟩ | ⟨h0, hheld, hret, hown, hle, hap⟩
    · simp only [if_true, Option.some.injEq, Prod.mk.injEq] at hrun
      exact .inl ⟨hrun.1.symm, hrun.2.symm⟩
    · simp only [if_neg h0] at hrun
      obtain ⟨g, hreg, he⟩ := Option.map_eq_some_iff.1 hrun
      rw [Prod.mk.injEq] at he
      obtain ⟨rfl, rfl⟩ := he
      obtain ⟨t, -, rfl⟩ := Option.map_eq_some_iff.1 hreg
      refine .inr ⟨page, rfl, hI.register rfl rfl ?_ (fun b' hne => ?_) ?_ (fun i hi => ?_) hheld hown
        h0 hle hap, rfl, hret, rfl⟩
      · exact congrArg Box.next Heap.setBox_box_self
      · exact (Heap.setBox_box_of_ne hne).trans (Heap.setBox_box_of_ne hne)
      · simp only [Heap.setBox_box_self]
        exact ⟨rfl, rfl, rfl⟩
      · simp only [Heap.setBox_box_self, boxInit, bit]
        rw [if_pos (by omega)]
        exact BitVec.getLsbD_zero

/-- **`heap_box_alloc`** in one of the boxes. -/
theorem heapBoxAlloc_spec (hI : HeapInv Owned h live l) {b size : ℕ} (hb : b ∈ l) (hs : size ≤ pageSize) :
    Outcome Owned h live size l (heapBoxAlloc b size h).1 (heapBoxAlloc b size h).2 ∧
      (heapBoxAlloc b size h).2.initialized = h.initialized := by
  obtain ⟨-, hdata, htotal⟩ := hI.formed b hb
  cases hfind : heapMapFindFree (h.box b).map (h.box b).totalBlocks (neededBlocks size) with
  | none =>
    have hrun : heapBoxAlloc b size h = (0, h) := by simp only [heapBoxAlloc, hfind]
    exact hrun ▸ ⟨.null hI rfl rfl, rfl⟩
  | some k =>
    have hrun : heapBoxAlloc b size h = (blockAddr b k + objectAlign, (h.setBox b { h.box b with
        map := setRun (h.box b).map k (neededBlocks size) true }).writeObject (blockAddr b k) b size) := by
      have haddr : (h.box b).dataPointer + k * blockSize = blockAddr b k := hdata ▸ rfl
      simp only [heapBoxAlloc, hfind, Heap.setBox_box_self, haddr, heapMapSet]
    rw [htotal] at hfind
    obtain ⟨hk, hclear⟩ := findRun_spec (neededBlocks_pos hs) hfind
    rw [hrun]
    refine ⟨.object (by simp) (hI.place hb hs hk hclear) (fun x hx => ?_) rfl, rfl⟩
    refine Heap.writeObject_mem ?_
    simp only [objectAlign] at hx
    omega

/-- **`heap_box_iterate`** tries the boxes in their order. -/
theorem heapBoxIterateFrom_spec (hI : HeapInv Owned h live l) {size : ℕ} (hs : size ≤ pageSize) {cur : Option ℕ}
    {rest : List ℕ} (hseg : Chain h.next cur rest) (hrest : rest ⊆ l) {steps : ℕ}
    (hsteps : rest.length < steps) :
    ∃ p h', heapBoxIterateFrom size h steps cur = some (p, h') ∧
      Outcome Owned h live size l p h' ∧ (p = 0 → h' = h) ∧ h'.initialized = h.initialized := by
  induction rest generalizing cur steps with
  | nil =>
    obtain rfl : cur = none := hseg
    obtain ⟨m, rfl⟩ : ∃ m, steps = m + 1 := ⟨steps - 1, by omega⟩
    exact ⟨0, h, rfl, .null hI rfl rfl, fun _ => rfl, rfl⟩
  | cons b rest ih =>
    obtain ⟨rfl, hseg⟩ := hseg
    obtain ⟨m, rfl⟩ : ∃ m, steps = m + 1 := ⟨steps - 1, by simp at hsteps; omega⟩
    obtain ⟨hb, hrest⟩ := List.cons_subset.1 hrest
    unfold heapBoxIterateFrom
    split
    · next hne =>
      obtain ⟨hout, hinit⟩ := hI.heapBoxAlloc_spec hb hs
      exact ⟨_, _, rfl, hout, fun h0 => absurd h0 hne, hinit⟩
    · exact ih hseg hrest (by simpa using hsteps)

theorem heapBoxIterate_spec (hI : HeapInv Owned h live l) {size : ℕ} (hs : size ≤ pageSize) :
    ∃ p h', heapBoxIterate size h = some (p, h') ∧ Outcome Owned h live size l p h' ∧
      (p = 0 → h' = h) ∧ h'.initialized = h.initialized :=
  hI.heapBoxIterateFrom_spec hs hI.chain (List.Subset.refl l) hI.length_lt

/-! ### Objects -/

theorem kmallocSmall_spec (C : PageContract pa Owned Together) (hI : HeapInv Owned h live l) {p size : ℕ}
    (hs : size ≤ pageSize) (hrun : kmallocSmall size h = some (p, h')) :
    ∃ l', Outcome Owned h live size l' p h' ∧ h'.initialized = h.initialized := by
  obtain ⟨r, g, hit, hout, hnull, hinit⟩ := hI.heapBoxIterate_spec hs
  unfold kmallocSmall at hrun
  rw [hit] at hrun
  simp only at hrun
  split at hrun
  · simp only [Option.some.injEq, Prod.mk.injEq] at hrun
    obtain ⟨rfl, rfl⟩ := hrun
    exact ⟨l, hout, hinit⟩
  · next h0 =>
    obtain rfl := hnull (not_not.1 h0)
    split at hrun
    · exact absurd hrun (by simp)
    · next hcreate =>
      simp only [Option.some.injEq, Prod.mk.injEq] at hrun
      obtain ⟨rfl, rfl⟩ := hrun
      rcases hI.heapCreateBox_spec C hcreate with ⟨-, rfl⟩ | ⟨b, hb, -⟩
      · exact ⟨l, .null hI rfl rfl, rfl⟩
      · exact absurd hb (by simp)
    · next b g' hcreate =>
      rw [Option.some.injEq] at hrun
      rcases hI.heapCreateBox_spec C hcreate with ⟨hb, -⟩ | ⟨b', hb, hI', hmem, hret, hinit'⟩
      · exact absurd hb (by simp)
      · obtain rfl := Option.some.inj hb
        obtain ⟨hout', hinit''⟩ := hI'.heapBoxAlloc_spec List.mem_cons_self hs
        rw [hrun] at hout' hinit''
        exact ⟨_, hout'.congr hmem hret, hinit''.trans hinit'⟩

theorem kmallocLarge_spec (C : PageContract pa Owned Together) (hI : HeapInv Owned h live l) {p size : ℕ}
    (hs : pageSize < size) (hfit : Fits Together h size)
    (hrun : kmallocLarge size h = some (p, h')) :
    Outcome Owned h live size l p h' ∧ h'.initialized = h.initialized := by
  obtain ⟨⟨a, t⟩, halloc, he⟩ := Option.map_eq_some_iff.1 hrun
  have hnull : a = 0 → t = h.pages → Outcome Owned h live size l p h' ∧
      h'.initialized = h.initialized := by
    rintro rfl rfl
    simp only [if_true, Prod.mk.injEq] at he
    obtain ⟨rfl, rfl⟩ := he
    exact ⟨.null hI rfl rfl, rfl⟩
  rcases hfit.resolve_left (Nat.not_le.2 hs) with hzero | ⟨hlen, htog⟩
  · rw [hzero] at halloc
    obtain ⟨h0, ht⟩ := C.traced_alloc_zero hI.owned halloc
    exact hnull h0 ht
  · rcases C.traced_alloc hI.owned htog halloc with ⟨h0, ht⟩ | ⟨h0, hheld, hret, hown, hle, hap⟩
    · exact hnull h0 ht
    · simp only [if_neg h0, Prod.mk.injEq] at he
      obtain ⟨rfl, rfl⟩ := he
      refine ⟨.object (by simp) (hI.placeLarge rfl rfl hs hlen
        (Heap.objectBox_writeObject (by decide)) (fun x hx => Heap.writeObject_mem hx) hheld hown h0
        hle hap) (fun x hx => Heap.writeObject_mem ?_) hret, rfl⟩
      simp only [objectAlign] at hx
      omega

/-- **`heap_init`** makes the first box, or changes nothing. -/
theorem heapInit_spec (C : PageContract pa Owned Together) (hI : HeapInv Owned h live l) (hst : Started h l)
    (hrun : heapInit h = some h') : (h' = h ∧ (h.initialized = false → heapCreateBox h = some (none, h))) ∨
      ∃ l', HeapInv Owned h' live l' ∧ h'.mem = h.mem ∧ h'.returned = h.returned ∧
        h'.initialized = true := by
  unfold heapInit at hrun
  split at hrun
  · next hinit =>
    rw [Option.some.injEq] at hrun
    exact .inl ⟨hrun.symm, fun hf => absurd (hf.symm.trans hinit) Bool.false_ne_true⟩
  · next hinit =>
    have hinit' : h.initialized = false := Bool.not_eq_true _ ▸ hinit
    obtain rfl := hst hinit'
    have hempty : h.boxes = none := hI.chain
    have hsame : ({ h with boxes := none } : Heap pa.traced) = h := by rw [← hempty]
    rw [hsame] at hrun
    split at hrun
    · exact absurd hrun (by simp)
    · next g hcreate =>
      rw [Option.some.injEq] at hrun
      rcases hI.heapCreateBox_spec C hcreate with ⟨-, rfl⟩ | ⟨b, hb, -⟩
      · exact .inl ⟨hrun.symm, fun _ => hcreate⟩
      · exact absurd hb (by simp)
    · next b g hcreate =>
      rw [Option.some.injEq] at hrun
      rcases hI.heapCreateBox_spec C hcreate with ⟨hb, -⟩ | ⟨b', hb, hI', hmem, hret, -⟩
      · exact absurd hb (by simp)
      · exact .inr ⟨[b'], hrun ▸ hI'.of_initialized true, hrun ▸ hmem, hrun ▸ hret, hrun ▸ rfl⟩

/-- **`kmalloc`** returns `NULL` and leaves the objects as they are, or adds one. -/
theorem kmalloc_spec (C : PageContract pa Owned Together) (hI : HeapInv Owned h live l)
    (hst : Started h l) {p size : ℕ} (hfit : Fits Together h size)
    (hrun : kmalloc size h = some (p, h')) :
    ∃ l', Outcome Owned h live size l' p h' ∧ Started h' l' := by
  unfold kmalloc at hrun
  split at hrun
  · simp only [Option.some.injEq, Prod.mk.injEq] at hrun
    obtain ⟨rfl, rfl⟩ := hrun
    exact ⟨l, .null hI rfl rfl, hst⟩
  · split at hrun
    · next hs =>
      obtain ⟨hout, hinit⟩ := hI.kmallocLarge_spec C hs hfit hrun
      exact ⟨l, hout, fun hf => hst (hinit ▸ hf)⟩
    · next hs =>
      have hs := Nat.not_lt.1 hs
      split at hrun
      · next hinit =>
        obtain ⟨l', hout, hinit'⟩ := hI.kmallocSmall_spec C hs hrun
        exact ⟨l', hout, fun hf => absurd (hf.symm.trans (hinit'.trans hinit)) Bool.false_ne_true⟩
      · next hinit =>
        have hinit : h.initialized = false := Bool.not_eq_true _ ▸ hinit
        obtain ⟨g, hg, hsmall⟩ := Option.bind_eq_some_iff.1 hrun
        rcases hI.heapInit_spec C hst hg with ⟨rfl, hfail⟩ | ⟨l', hI', hmem, hret, hinit'⟩
        · -- no page for the first box, and again none for the object
          obtain rfl := hst hinit
          have hempty : g.boxes = none := hI.chain
          have hit : heapBoxIterate size g = some (0, g) := by
            rw [heapBoxIterate, hempty]
            rfl
          unfold kmallocSmall at hsmall
          simp only [hit, ne_eq, not_true_eq_false, if_false, hfail hinit, Option.some.injEq,
            Prod.mk.injEq] at hsmall
          obtain ⟨rfl, rfl⟩ := hsmall
          exact ⟨[], .null hI rfl rfl, fun _ => rfl⟩
        · obtain ⟨l'', hout, hinit''⟩ := hI'.kmallocSmall_spec C hs hsmall
          exact ⟨l'', hout.congr hmem hret, fun hf =>
            absurd (hf.symm.trans (hinit''.trans hinit')) Bool.false_ne_true⟩

/-! ### Giving objects back -/

/-- **A box is empty** when no object lies in it. -/
theorem heapBoxIsEmpty_iff (hI : HeapInv Owned h live l) {b : ℕ} (hb : b ∈ l) :
    heapBoxIsEmpty b h ↔ ∀ o ∈ live, ¬ InPage b o := by
  have hclear : heapBoxIsEmpty b h ↔ ∀ i < 8 * mapBytes, bit (h.box b).map i = false := by
    rw [heapBoxIsEmpty, (hI.formed b hb).totalBlocks]
    exact allClear_iff
  rw [hclear]
  constructor
  · intro hc o ho hin
    obtain ⟨k, hs, hk, hobj, -⟩ := (hI.inPage_iff hb ho).1 hin
    have hpos := neededBlocks_pos hs
    have hk' : k < 8 * mapBytes := by simp only [mapBytes, blocksPerBox_eq] at *; omega
    have hset := (hI.bits b hb k hk').2 ⟨by omega, o, ho, ?_⟩
    · exact absurd ((hc k hk').symm.trans hset) Bool.false_ne_true
    · rw [hobj, reserved_objectAt hs, has_blockAddr_iff]
      omega
  · intro hno i hi
    by_contra hset
    obtain ⟨hi', o, ho, hhas⟩ := (hI.bits b hb i hi).1 (Bool.not_eq_false _ ▸ hset)
    exact hno o ho (hI.inPage_of_has hb hi' ho hhas)

/-- A block of a box is found by its address. -/
theorem heapFetchBlockIndex_blockAddr {v : Box} {b k : ℕ} (hv : FormedBox b v)
    (hk : k < blocksPerBox) : heapFetchBlockIndex v (blockAddr b k) = some k := by
  have hle : ¬ blockAddr b k < boxData b := Nat.not_lt.2 (Nat.le_add_right _ _)
  have hsub : blockAddr b k - boxData b = k * blockSize := Nat.add_sub_cancel_left ..
  unfold heapFetchBlockIndex
  rw [hv.dataPointer, hv.totalBlocks, if_neg hle]
  simp only [hsub, Nat.mul_mod_left, ne_eq, not_true_eq_false, if_false,
    Nat.mul_div_cancel k (show 0 < blockSize by decide), hk, if_true]

/-- **`heap_box_free`** gives an empty box back. -/
theorem heapBoxFree_spec (C : PageContract pa Owned Together) (hI : HeapInv Owned h live l) {b : ℕ}
    (hb : b ∈ l) (hempty : heapBoxIsEmpty b h) (hrun : heapBoxFree b h = some h') :
    HeapInv Owned h' live (l.erase b) ∧ h'.mem = h.mem ∧ h'.initialized = h.initialized ∧
      h'.returned = (b, 1) :: h.returned := by
  obtain ⟨head, next, hun, hchain, -⟩ := unlink_spec b hI.chain hI.length_lt
  unfold heapBoxFree at hrun
  simp only [if_pos hempty, hun] at hrun
  split at hrun
  · exact absurd hrun (by simp)
  · obtain ⟨t, hfree, rfl⟩ := Option.map_eq_some_iff.1 hrun
    have hpage : (h.box b).page = b := (hI.formed b hb).page
    rw [show ((h.setNext next).box b).page = b from hpage] at hfree
    obtain ⟨hheld, hret, hown⟩ := C.traced_free hI.owned (hI.box_mem hb) hfree
    have hclear := hempty
    rw [heapBoxIsEmpty, (hI.formed b hb).totalBlocks] at hclear
    exact ⟨hI.dropBox hb (allClear_iff.1 hclear) rfl hchain (fun _ => rfl) hheld hown, rfl, rfl, hret⟩

/-- **`kfree`** of an object in a box clears its blocks, and gives the box back
when no object is left in it. -/
theorem kfree_small (C : PageContract pa Owned Together) (hI : HeapInv Owned h live l)
    (hst : Started h l) {p size : ℕ} (ho : (p, size) ∈ live) (hs : size ≤ pageSize)
    (hspan : SameSpan h p size) (hrun : kfree p h = some h') :
    ∃ l', HeapInv Owned h' (live.erase (p, size)) l' ∧ Started h' l' ∧ h'.mem = h.mem ∧
      ∃ b ∈ l, InPage b (p, size) ∧
        if ∀ o ∈ live.erase (p, size), ¬ InPage b o then h'.returned = (b, 1) :: h.returned
        else h'.returned = h.returned := by
  obtain ⟨hs', b, hb, k, hp, hk, hobj⟩ | ⟨hl, -⟩ := hI.placed _ ho
  swap
  · exact absurd hl (Nat.not_lt.2 hs)
  obtain rfl : p = blockAddr b k + objectAlign := hp
  have hb0 : b ≠ 0 := (Nat.pos_iff_ne_zero.1 (hI.valid _ (hI.box_mem hb)).1)
  have hk' : k < blocksPerBox := lt_of_lt_of_le (Nat.lt_add_of_pos_right (neededBlocks_pos hs)) hk
  have hI₁ := (hI.perm (List.perm_cons_erase ho)).clearRun hb hs hk
  have hptr : blockAddr b k + objectAlign - objectAlign = blockAddr b k := Nat.add_sub_cancel ..
  rw [hptr] at hobj
  rw [SameSpan, if_pos hs, hptr] at hspan
  have hp0 : blockAddr b k + objectAlign ≠ 0 := by simp
  have hfetch := heapFetchBlockIndex_blockAddr (hI.formed b hb) hk'
  unfold kfree at hrun
  simp only [if_neg hp0, hptr, hobj, if_neg hb0, hfetch, hspan, heapMapSet] at hrun
  split at hrun
  · next hempty =>
    obtain ⟨hI₂, hmem, hinit, hret⟩ := hI₁.heapBoxFree_spec C hb hempty hrun
    have hnone := (hI₁.heapBoxIsEmpty_iff hb).1 hempty
    refine ⟨_, hI₂, fun hf => ?_, hmem, b, hb, inPage_objectAt hk', ?_⟩
    · have hlb := hst (hinit ▸ hf)
      rw [hlb] at hb
      exact absurd hb List.not_mem_nil
    · rw [if_pos hnone]
      exact hret
  · next hfull =>
    rw [Option.some.injEq] at hrun
    subst hrun
    refine ⟨l, hI₁, hst, rfl, b, hb, inPage_objectAt hk', ?_⟩
    rw [if_neg (mt (hI₁.heapBoxIsEmpty_iff hb).2 hfull)]
    rfl

/-- **`kfree`** of a large object gives its pages back. -/
theorem kfree_large (C : PageContract pa Owned Together) (hI : HeapInv Owned h live l)
    (hst : Started h l) {p size : ℕ} (ho : (p, size) ∈ live) (hs : pageSize < size)
    (hspan : SameSpan h p size) (hrun : kfree p h = some h') :
    HeapInv Owned h' (live.erase (p, size)) l ∧ Started h' l ∧ h'.mem = h.mem ∧
      h'.returned = pagesOf (p, size) :: h.returned := by
  obtain ⟨hl, -⟩ | ⟨-, hp, hobj⟩ := hI.placed _ ho
  · exact absurd hs (Nat.not_lt.2 hl)
  have hp0 : p ≠ 0 := fun h0 => absurd hp (h0 ▸ Nat.not_lt_zero _)
  rw [SameSpan, if_neg (Nat.not_le.2 hs)] at hspan
  unfold kfree at hrun
  simp only [if_neg hp0, hobj, if_true, hspan] at hrun
  obtain ⟨t, hfree, rfl⟩ := Option.map_eq_some_iff.1 hrun
  obtain ⟨hheld, hret, hown⟩ := C.traced_free hI.owned (hI.pagesOf_mem ho hs) hfree
  exact ⟨(hI.perm (List.perm_cons_erase ho)).freeLarge hs rfl rfl rfl hheld hown, hst, rfl, hret⟩

/-- An object that is handed out is none of the others. -/
theorem ne_of_mem {o o' : ℕ × ℕ} (hI : HeapInv Owned h (o :: live) l) (ho' : o' ∈ live) : o ≠ o' := by
  rintro rfl
  have hself := (List.pairwise_cons.1 hI.apart).1 _ ho'
  have hroom := hI.room _ List.mem_cons_self
  simp only [Extent.Apart, objectAlign] at hself hroom
  omega

/-- **`krealloc`** of a live object returns `NULL` and frees it or leaves it, or
moves it: the new object holds as many bytes of the old one as the size word
read says, and only the new object was written to. -/
theorem krealloc_spec (C : PageContract pa Owned Together) (hI : HeapInv Owned h live l)
    (hst : Started h l) {p size n newSize : ℕ} (ho : (p, size) ∈ live)
    (hfit : Fits Together h newSize) (hspan : SameSpan h p size)
    (hrun : krealloc p newSize h = some (n, h')) :
    ∃ l', HeapInv Owned h' (if newSize = 0 then live.erase (p, size)
        else if n = 0 then live else (n, newSize) :: live.erase (p, size)) l' ∧ Started h' l' ∧
      (newSize ≠ 0 → n ≠ 0 → ∃ h₁ l₁, kmalloc newSize h = some (n, h₁) ∧
        HeapInv Owned h₁ ((n, newSize) :: live) l₁ ∧
        (∀ x, x < n - objectAlign ∨ n + objectAlign ≤ x → h₁.mem x = h.mem x) ∧
        h'.mem = copy h₁.mem n p (min (h.objectSize (p - objectAlign)) newSize)) := by
  have hp0 : p ≠ 0 := fun h0 => by
    have := hI.objectAlign_le ho
    simp [h0] at this
  have hfree : ∀ {g g' : Heap pa.traced} {live' l'}, HeapInv Owned g live' l' → Started g l' →
      (p, size) ∈ live' → SameSpan g p size → kfree p g = some g' →
      ∃ l'', HeapInv Owned g' (live'.erase (p, size)) l'' ∧ Started g' l'' ∧ g'.mem = g.mem := by
    intro g g' live' l' hI hst ho hspan hrun
    rcases Nat.lt_or_ge pageSize size with hs | hs
    · obtain ⟨hI', hst', hmem, -⟩ := hI.kfree_large C hst ho hs hspan hrun
      exact ⟨l', hI', hst', hmem⟩
    · obtain ⟨l'', hI', hst', hmem, -⟩ := hI.kfree_small C hst ho hs hspan hrun
      exact ⟨l'', hI', hst', hmem⟩
  unfold krealloc at hrun
  rw [if_neg hp0] at hrun
  split at hrun
  · next h0 =>
    obtain ⟨g, hg, he⟩ := Option.map_eq_some_iff.1 hrun
    simp only [Prod.mk.injEq] at he
    obtain ⟨-, rfl⟩ := he
    obtain ⟨l', hI', hst', -⟩ := hfree hI hst ho hspan hg
    exact ⟨l', by rwa [if_pos h0], hst', fun hne => absurd h0 hne⟩
  · next hne =>
    split at hrun
    · exact absurd hrun (by simp)
    · next r g hg =>
      obtain ⟨l₁, hout, hst₁⟩ := hI.kmalloc_spec C hst hfit hg
      rw [if_neg hne]
      cases hout with
      | null hI₁ hmem hret =>
        simp only [if_true, Option.some.injEq, Prod.mk.injEq] at hrun
        obtain ⟨rfl, rfl⟩ := hrun
        exact ⟨l₁, hI₁, hst₁, fun _ hn => absurd rfl hn⟩
      | object hr0 hI₁ hmem hret =>
        simp only [if_neg hr0] at hrun
        obtain ⟨g', hg', he⟩ := Option.map_eq_some_iff.1 hrun
        simp only [Prod.mk.injEq] at he
        obtain ⟨rfl, rfl⟩ := he
        have hap := (List.pairwise_cons.1 hI₁.apart).1 _ ho
        have hroom := hI₁.room _ List.mem_cons_self
        have hr4 : objectAlign ≤ r := hI₁.objectAlign_le List.mem_cons_self
        have hstart : (reserved (r, newSize)).start = r - objectAlign := rfl
        -- neither the new header nor the copy reaches the old header
        have hword : g.objectSize (p - objectAlign) = h.objectSize (p - objectAlign) := by
          have hin := hI₁.word_within List.mem_cons_self (le_refl 4)
          refine hI.header_congr ho hap (fun x hx => hmem x ?_) le_rfl
          simp only [Extent.Has, Extent.Within, hstart, objectAlign] at hx hin hr4 ⊢
          omega
        have hcount : kreallocCopy p newSize g = min (h.objectSize (p - objectAlign)) newSize := by
          rw [kreallocCopy, hword]
          split <;> omega
        rw [hcount] at hg'
        set c := min (h.objectSize (p - objectAlign)) newSize with hc
        have hI₂ := hI₁.writePayload List.mem_cons_self (m := copy g.mem r p c) fun x hx =>
          copy_of_not_mem (by omega)
        have hword' : readWord (copy g.mem r p c) (p - objectAlign + 4) =
            readWord g.mem (p - objectAlign + 4) := by
          refine hI₁.header_congr (List.mem_cons_of_mem _ ho) hap (fun x hx => copy_of_not_mem ?_) le_rfl
          simp only [Extent.Has, hstart, objectAlign] at hx hr4 hroom
          omega
        have hspan' : SameSpan { g with mem := copy g.mem r p c } p size := by
          unfold SameSpan Heap.objectSize
          rw [hword']
          unfold SameSpan at hspan
          rwa [← hword] at hspan
        obtain ⟨l', hI', hst', hmem'⟩ := hfree hI₂ hst₁ (List.mem_cons_of_mem _ ho) hspan' hg'
        rw [List.erase_cons_tail (by simpa using hI₁.ne_of_mem ho)] at hI'
        exact ⟨l', by rwa [if_neg hr0], hst', fun _ _ => ⟨g, l₁, hg, hI₁, hmem, hmem'⟩⟩

end HeapInv

end Flopperating
