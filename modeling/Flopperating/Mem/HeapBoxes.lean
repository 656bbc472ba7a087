/-
# The boxes of the heap in the hash table

Every box of the list is entered in `box_hash` under its id when it is
registered, and taken out when it is freed (`Hashed`).  The ids are those of a
counter that wraps, so two boxes may have one id; what is kept is how often each
id is in the table.

The table has `BOX_HASH_SIZE` slots, so a box can be registered exactly when
there are fewer boxes than that (`Hashed.register_isSome_iff`).
-/

import Flopperating.Mem.HeapRuns

namespace Flopperating

open ByteMemory Bitmap LinkedList LinearProbing Transition

variable {pa : PageAllocator}

/-- The table holds the ids of the boxes `l`, where a probe looks. -/
structure Hashed (h : Heap pa) (l : List ℕ) : Prop where
  reached : Reached boxHashSize boxHashResolveIndex h.boxHash
  keys : keys boxHashSize h.boxHash = (l.map fun b => (h.box b).id : List ℕ)

/-- The table holds the ids of the boxes on the list. -/
def BoxesHashed (h : Heap pa) : Prop := ∃ l, Chain h.next h.boxes l ∧ Hashed h l

section Table

variable {h h' : Heap pa} {l : List ℕ} {b : ℕ}

/-- A change that keeps the table, the ids and the list. -/
structure SameBoxes (h h' : Heap pa) : Prop where
  boxHash : h'.boxHash = h.boxHash
  ids : ∀ b, (h'.box b).id = (h.box b).id
  next : h'.next = h.next
  boxes : h'.boxes = h.boxes

theorem SameBoxes.refl (h : Heap pa) : SameBoxes h h := ⟨rfl, fun _ => rfl, rfl, rfl⟩

theorem SameBoxes.trans {h'' : Heap pa} (h₁ : SameBoxes h h') (h₂ : SameBoxes h' h'') : SameBoxes h h'' :=
  ⟨h₂.boxHash.trans h₁.boxHash, fun b => (h₂.ids b).trans (h₁.ids b), h₂.next.trans h₁.next,
    h₂.boxes.trans h₁.boxes⟩

theorem Hashed.congr (hH : Hashed h l) (hs : SameBoxes h h') : Hashed h' l := by
  refine ⟨hs.boxHash ▸ hH.reached, ?_⟩
  rw [hs.boxHash, hH.keys]
  exact congrArg _ (List.map_congr_left fun b _ => (hs.ids b).symm)

theorem BoxesHashed.congr (hB : BoxesHashed h) (hs : SameBoxes h h') : BoxesHashed h' := by
  obtain ⟨l, hl, hH⟩ := hB
  exact ⟨l, by rw [hs.next, hs.boxes]; exact hl, hH.congr hs⟩

/-- Changing the bitmap of a box. -/
theorem sameBoxes_setMap (h : Heap pa) (b : ℕ) (m : Bytes) :
    SameBoxes h (h.setBox b { h.box b with map := m }) := by
  refine ⟨rfl, fun b' => ?_, Heap.setBox_next rfl, rfl⟩
  rcases eq_or_ne b' b with rfl | hne
  · rw [Heap.setBox_box_self]
  · rw [Heap.setBox_box_of_ne hne]

/-- The heap with `box_init` done in a page that was allocated. -/
def initBox (h : Heap pa) (page : ℕ) (pages : pa.State) : Heap pa :=
  ({ h with pages := pages } : Heap pa).setBox page (boxInit page (h.box page))

theorem sameBoxes_initBox (h : Heap pa) (page : ℕ) (pages : pa.State) :
    SameBoxes h (initBox h page pages) := by
  refine ⟨rfl, fun b' => ?_, Heap.setBox_next (σ := { h with pages := pages }) rfl, rfl⟩
  rcases eq_or_ne b' page with rfl | hne
  · rw [initBox, Heap.setBox_box_self]
    rfl
  · rw [initBox, Heap.setBox_box_of_ne hne]

/-- With a page, `heap_create_box` registers the box in it. -/
theorem heapCreateBox_of_page {page : ℕ} {pages : pa.State}
    (halloc : pa.allocPages 1 h.pages = some (page, pages)) (h0 : page ≠ 0) :
    heapCreateBox h = (heapBoxRegister page (initBox h page pages)).map fun h => (some page, h) := by
  unfold heapCreateBox
  rw [halloc]
  simp only [if_neg h0]
  rfl

theorem Hashed.exists_not_used_iff (hH : Hashed h l) :
    (∃ e < boxHashSize, ¬ Used h.boxHash e) ↔ l.length < boxHashSize := by
  rw [LinearProbing.exists_not_used_iff, hH.keys, Multiset.coe_card, List.length_map]

/-- **A box can be registered** when there are fewer than `BOX_HASH_SIZE`. -/
theorem Hashed.register_isSome_iff (hH : Hashed h l) :
    (heapBoxRegister b h).isSome ↔ l.length < boxHashSize := by
  rw [heapBoxRegister, Option.isSome_map, boxHashInsert, insert_isSome_iff boxHashResolveIndex_lt]
  exact hH.exists_not_used_iff

/-- What a registration changes in the boxes and the table. -/
theorem heapBoxRegister_some (hrun : heapBoxRegister b h = some h') :
    boxHashInsert h.nextBoxId b h.boxHash = some h'.boxHash ∧
      h'.box b = { h.box b with id := h.nextBoxId, next := h.boxes } ∧
      (∀ b', b' ≠ b → h'.box b' = h.box b') ∧ h'.pages = h.pages := by
  obtain ⟨t, hins, rfl⟩ := Option.map_eq_some_iff.1 hrun
  exact ⟨hins, Heap.setBox_box_self, fun b' hne => Heap.setBox_box_of_ne hne, rfl⟩

/-- Registering a box enters it into the table. -/
theorem Hashed.register (hH : Hashed h l) (hb : b ∉ l) (hrun : heapBoxRegister b h = some h') :
    Hashed h' (b :: l) := by
  obtain ⟨hins, hself, hother, -⟩ := heapBoxRegister_some hrun
  obtain ⟨hR, hent⟩ := hH.reached.insert boxHashResolveIndex_lt hins
  refine ⟨hR, ?_⟩
  have hids : (l.map fun b => (h'.box b).id) = l.map fun b => (h.box b).id :=
    List.map_congr_left fun b' hb' => by rw [hother b' fun he => hb (he ▸ hb')]
  rw [LinearProbing.keys, hent, Multiset.map_cons, List.map_cons, hids, hself, ← Multiset.cons_coe,
    ← hH.keys]
  rfl

/-- Taking a box out of the list and the table. -/
theorem Hashed.remove (hH : Hashed h l) (hb : b ∈ l) :
    ∃ t, boxHashRemove (h.box b).id h.boxHash = some t ∧
      ∀ h' : Heap pa, h'.boxHash = t → (∀ b, (h'.box b).id = (h.box b).id) → Hashed h' (l.erase b) := by
  have hid : (h.box b).id ∈ LinearProbing.keys boxHashSize h.boxHash := by
    rw [hH.keys]
    exact List.mem_map_of_mem (f := fun b => (h.box b).id) hb
  obtain ⟨t, v, hrun, hR, hent⟩ := hH.reached.remove boxHashResolveIndex_lt hid
  refine ⟨t, hrun, fun h' ht hids => ⟨ht ▸ hR, ?_⟩⟩
  have hkeys : (h.box b).id ::ₘ LinearProbing.keys boxHashSize t =
      (h.box b).id ::ₘ ((l.erase b).map fun b => (h.box b).id : List ℕ) := by
    have hold := hH.keys
    rw [LinearProbing.keys, hent, Multiset.map_cons] at hold
    refine hold.trans (Multiset.coe_eq_coe.2 ?_)
    exact (List.perm_cons_erase hb).map _
  rw [ht, (Multiset.cons_inj_right _).1 hkeys]
  exact congrArg _ (List.map_congr_left fun b _ => (hids b).symm)

end Table

/-! ### The calls -/

section Calls

variable {Owned : pa.State → List (ℕ × ℕ) → Prop} {Together : ℕ → pa.State → Prop}
  {h h' : Heap pa.traced} {live : List (ℕ × ℕ)} {l : List ℕ}

theorem BoxesHashed.of_chain {h : Heap pa} (hB : BoxesHashed h) (hl : Chain h.next h.boxes l) :
    Hashed h l := by
  obtain ⟨l', hl', hH⟩ := hB
  exact hl.unique hl' ▸ hH

/-- The box that `heap_create_box` makes is in a page it allocated. -/
theorem heapCreateBox_some {h h' : Heap pa} {b : ℕ} (hrun : heapCreateBox h = some (some b, h')) :
    ∃ pages, pa.allocPages 1 h.pages = some (b, pages) ∧
      heapBoxRegister b (initBox h b pages) = some h' := by
  cases halloc : pa.allocPages 1 h.pages with
  | none => simp [heapCreateBox, halloc] at hrun
  | some r =>
    obtain ⟨page, pages⟩ := r
    by_cases h0 : page = 0
    · simp [heapCreateBox, halloc, h0] at hrun
    · rw [heapCreateBox_of_page halloc h0] at hrun
      obtain ⟨g, hreg, he⟩ := Option.map_eq_some_iff.1 hrun
      obtain ⟨hb, rfl⟩ := Prod.mk.inj he
      obtain rfl := Option.some.inj hb
      exact ⟨pages, rfl, hreg⟩

/-- A box that is made is entered into the table. -/
theorem BoxesHashed.create (hB : BoxesHashed h) (C : PageContract pa Owned Together)
    (hI : HeapInv Owned h live l) {r : Option ℕ} (hrun : heapCreateBox h = some (r, h')) :
    BoxesHashed h' := by
  rcases hI.heapCreateBox_spec C hrun with ⟨-, rfl⟩ | ⟨b, rfl, hI', -⟩
  · exact hB
  · obtain ⟨pages, -, hreg⟩ := heapCreateBox_some hrun
    have hb : b ∉ l := (List.nodup_cons.1 hI'.chain.nodup).1
    exact ⟨b :: l, hI'.chain, ((hB.of_chain hI.chain).congr (sameBoxes_initBox h b pages)).register hb hreg⟩

/-- `heap_box_alloc` changes a bitmap and a header. -/
theorem sameBoxes_heapBoxAlloc (h : Heap pa) (b size : ℕ) : SameBoxes h (heapBoxAlloc b size h).2 := by
  cases hfind : heapMapFindFree (h.box b).map (h.box b).totalBlocks (neededBlocks size) with
  | none =>
    simp only [heapBoxAlloc, hfind]
    exact SameBoxes.refl h
  | some k =>
    simp only [heapBoxAlloc, hfind]
    exact (sameBoxes_setMap h b _).trans ⟨rfl, fun _ => rfl, rfl, rfl⟩

theorem sameBoxes_heapBoxIterateFrom {h h' : Heap pa} {size steps p : ℕ} {cur : Option ℕ}
    (hrun : heapBoxIterateFrom size h steps cur = some (p, h')) : SameBoxes h h' := by
  induction steps generalizing cur with
  | zero => exact absurd hrun (by simp [heapBoxIterateFrom])
  | succ steps ih =>
    cases cur with
    | none =>
      obtain ⟨-, rfl⟩ := Prod.mk.inj (Option.some.inj hrun)
      exact SameBoxes.refl h
    | some b =>
      unfold heapBoxIterateFrom at hrun
      split at hrun
      · have := sameBoxes_heapBoxAlloc h b size
        rwa [Option.some.inj hrun] at this
      · exact ih hrun

theorem BoxesHashed.kmallocSmall (hB : BoxesHashed h) (C : PageContract pa Owned Together)
    (hI : HeapInv Owned h live l) {p size : ℕ} (hs : size ≤ pageSize)
    (hrun : Flopperating.kmallocSmall size h = some (p, h')) : BoxesHashed h' := by
  obtain ⟨r, g, hit, -, hnull, -⟩ := hI.heapBoxIterate_spec hs
  unfold Flopperating.kmallocSmall at hrun
  rw [hit] at hrun
  simp only at hrun
  split at hrun
  · obtain ⟨-, rfl⟩ := Prod.mk.inj (Option.some.inj hrun)
    exact hB.congr (sameBoxes_heapBoxIterateFrom hit)
  · next h0 =>
    obtain rfl := hnull (not_not.1 h0)
    split at hrun
    · exact absurd hrun (by simp)
    · next hcreate =>
      obtain ⟨-, rfl⟩ := Prod.mk.inj (Option.some.inj hrun)
      exact hB.create C hI hcreate
    · next b g' hcreate =>
      have := sameBoxes_heapBoxAlloc g' b size
      rw [Option.some.inj hrun] at this
      exact (hB.create C hI hcreate).congr this

theorem BoxesHashed.heapInit (hB : BoxesHashed h) (C : PageContract pa Owned Together)
    (hI : HeapInv Owned h live l) (hst : Started h l) (hrun : Flopperating.heapInit h = some h') :
    BoxesHashed h' := by
  unfold Flopperating.heapInit at hrun
  split at hrun
  · exact Option.some.inj hrun ▸ hB
  · next hinit =>
    obtain rfl := hst (Bool.not_eq_true _ ▸ hinit)
    have hsame : ({ h with boxes := none } : Heap pa.traced) = h := by
      rw [← show h.boxes = none from hI.chain]
    rw [hsame] at hrun
    split at hrun
    · exact absurd hrun (by simp)
    · next g hcreate => exact Option.some.inj hrun ▸ hB.create C hI hcreate
    · next b g hcreate =>
      obtain rfl := Option.some.inj hrun
      exact (hB.create C hI hcreate).congr ⟨rfl, fun _ => rfl, rfl, rfl⟩

/-- **`kmalloc`** keeps the boxes hashed. -/
theorem BoxesHashed.kmalloc (hB : BoxesHashed h) (C : PageContract pa Owned Together)
    (hI : HeapInv Owned h live l) (hst : Started h l) {p size : ℕ}
    (hrun : Flopperating.kmalloc size h = some (p, h')) : BoxesHashed h' := by
  unfold Flopperating.kmalloc at hrun
  split at hrun
  · obtain ⟨-, rfl⟩ := Prod.mk.inj (Option.some.inj hrun)
    exact hB
  · split at hrun
    · obtain ⟨⟨a, t⟩, -, he⟩ := Option.map_eq_some_iff.1 hrun
      simp only at he
      split at he <;> (obtain ⟨-, rfl⟩ := Prod.mk.inj he; exact hB.congr ⟨rfl, fun _ => rfl, rfl, rfl⟩)
    · next hs =>
      have hs := Nat.not_lt.1 hs
      split at hrun
      · exact hB.kmallocSmall C hI hs hrun
      · obtain ⟨g, hg, hsmall⟩ := Option.bind_eq_some_iff.1 hrun
        have hB' := hB.heapInit C hI hst hg
        rcases hI.heapInit_spec C hst hg with ⟨rfl, -⟩ | ⟨l', hI', -⟩
        · exact hB'.kmallocSmall C hI hs hsmall
        · exact hB'.kmallocSmall C hI' hs hsmall

/-- Freeing an empty box takes it out of the table. -/
theorem BoxesHashed.heapBoxFree {h h' : Heap pa} (hB : BoxesHashed h) (hl : Chain h.next h.boxes l)
    (hlen : l.length < boxSteps) {b : ℕ} (hb : b ∈ l)
    (hrun : Flopperating.heapBoxFree b h = some h') : BoxesHashed h' := by
  unfold Flopperating.heapBoxFree at hrun
  split at hrun
  swap
  · exact Option.some.inj hrun ▸ hB
  obtain ⟨head, next, hun, hchain, -⟩ := unlink_spec b hl hlen
  obtain ⟨t, hremove, hafter⟩ := (hB.of_chain hl).remove hb
  simp only [hun] at hrun
  rw [show boxHashRemove ((h.setNext next).box b).id (h.setNext next).boxHash = some t from hremove] at hrun
  obtain ⟨pages, -, rfl⟩ := Option.map_eq_some_iff.1 hrun
  exact ⟨l.erase b, hchain, hafter _ rfl fun _ => rfl⟩

/-- **`kfree`** of a live object keeps the boxes hashed. -/
theorem BoxesHashed.kfree (hB : BoxesHashed h) (hI : HeapInv Owned h live l) {p size : ℕ}
    (ho : (p, size) ∈ live) (hrun : Flopperating.kfree p h = some h') :
    BoxesHashed h' := by
  have hp0 : p ≠ 0 := fun h0 => by simpa [h0] using hI.objectAlign_le ho
  unfold Flopperating.kfree at hrun
  rw [if_neg hp0] at hrun
  simp only at hrun
  split at hrun
  · obtain ⟨pages, -, rfl⟩ := Option.map_eq_some_iff.1 hrun
    exact hB.congr ⟨rfl, fun _ => rfl, rfl, rfl⟩
  · next hobj =>
    obtain ⟨hs, b, hb, k, hp, hk, hobj'⟩ | ⟨-, -, hobj'⟩ := hI.placed _ ho
    swap
    · exact absurd hobj' hobj
    split at hrun
    · exact Option.some.inj hrun ▸ hB
    · next idx hidx =>
      have hsame := sameBoxes_setMap h (h.objectBox (p - objectAlign))
        (heapMapSet (h.box (h.objectBox (p - objectAlign))).map idx
          (neededBlocks (h.objectSize (p - objectAlign))) false)
      split at hrun
      · refine (hB.congr hsame).heapBoxFree ?_ hI.length_lt (hobj' ▸ hb) hrun
        rw [hsame.next, hsame.boxes]
        exact hI.chain
      · exact Option.some.inj hrun ▸ hB.congr hsame

/-- **`krealloc`** of a live object keeps the boxes hashed. -/
theorem BoxesHashed.krealloc (hB : BoxesHashed h) (C : PageContract pa Owned Together)
    (hI : HeapInv Owned h live l) (hst : Started h l) {p size n newSize : ℕ} (ho : (p, size) ∈ live)
    (hfit : Fits Together h newSize) (hrun : Flopperating.krealloc p newSize h = some (n, h')) :
    BoxesHashed h' := by
  have hp0 : p ≠ 0 := fun h0 => by simpa [h0] using hI.objectAlign_le ho
  unfold Flopperating.krealloc at hrun
  rw [if_neg hp0] at hrun
  split at hrun
  · obtain ⟨g, hg, he⟩ := Option.map_eq_some_iff.1 hrun
    obtain ⟨-, rfl⟩ := Prod.mk.inj he
    exact hB.kfree hI ho hg
  · split at hrun
    · exact absurd hrun (by simp)
    · next r g hg =>
      have hB' := hB.kmalloc C hI hst hg
      obtain ⟨l₁, hout, -⟩ := hI.kmalloc_spec C hst hfit hg
      cases hout with
      | null =>
        simp only [if_true] at hrun
        obtain ⟨-, rfl⟩ := Prod.mk.inj (Option.some.inj hrun)
        exact hB'
      | object hr0 hI₁ _ _ =>
        simp only [if_neg hr0] at hrun
        obtain ⟨g', hg', he⟩ := Option.map_eq_some_iff.1 hrun
        obtain ⟨-, rfl⟩ := Prod.mk.inj he
        have hle : kreallocCopy p newSize g ≤ newSize := by
          unfold kreallocCopy
          split <;> omega
        have hI₂ := hI₁.writePayload List.mem_cons_self
          (m := copy g.mem r p (kreallocCopy p newSize g)) fun x hx => copy_of_not_mem (by omega)
        have hB₂ : BoxesHashed { g with mem := copy g.mem r p (kreallocCopy p newSize g) } :=
          hB'.congr ⟨rfl, fun _ => rfl, rfl, rfl⟩
        exact hB₂.kfree hI₂ (List.mem_cons_of_mem _ ho) hg'

variable {σ σ' : HeapSystem pa}

/-- **One step** that keeps the account keeps the boxes hashed. -/
theorem BoxesHashed.step (hB : BoxesHashed σ.heap) (C : PageContract pa Owned Together)
    (hI : HeapInv Owned σ.heap σ.live l) (hst : Started σ.heap l) {op : HeapOp pa}
    (hok : KeepsSpans Owned Together σ op) (hstep : heapStep σ op σ') : BoxesHashed σ'.heap := by
  unfold heapStep at hstep
  cases op with
  | init =>
    obtain ⟨g, hg, rfl⟩ := Option.map_eq_some_iff.1 hstep
    exact hB.heapInit C hI hst hg
  | alloc size =>
    obtain ⟨⟨p, g⟩, hg, rfl⟩ := Option.map_eq_some_iff.1 hstep
    exact hB.kmalloc C hI hst hg
  | free ptr size =>
    simp only [HeapOp.run] at hstep
    split at hstep
    · next ho =>
      obtain ⟨g, hg, rfl⟩ := Option.map_eq_some_iff.1 hstep
      exact hB.kfree hI ho hg
    · exact absurd hstep (by simp)
  | realloc ptr size newSize =>
    simp only [HeapOp.run] at hstep
    split at hstep
    · next ho =>
      obtain ⟨⟨n, g⟩, hg, rfl⟩ := Option.map_eq_some_iff.1 hstep
      rcases eq_or_ne ptr 0 with rfl | hp
      · have hg' : Flopperating.kmalloc newSize σ.heap = some (n, g) := hg
        exact hB.kmalloc C hI hst hg'
      · exact hB.krealloc C hI hst (ho.resolve_left hp) hok.1 hg
    · exact absurd hstep (by simp)
  | write ptr size i v =>
    simp only [HeapOp.run] at hstep
    split at hstep
    · obtain rfl := Option.some.inj hstep
      exact hB.congr ⟨rfl, fun _ => rfl, rfl, rfl⟩
    · exact absurd hstep (by simp)
  | pages s =>
    obtain rfl := Option.some.inj hstep
    exact hB.congr ⟨rfl, fun _ => rfl, rfl, rfl⟩

/-- The heap before its first call, with `box_hash` as it is loaded. -/
structure HeapBoot (Owned : pa.State → List (ℕ × ℕ) → Prop) (σ : HeapSystem pa) : Prop
    extends HeapStart Owned σ where
  boxHash : σ.heap.boxHash = boxHashZero

theorem HeapBoot.boxesHashed (h : HeapBoot Owned σ) : BoxesHashed σ.heap := by
  have hnone : ∀ i, ¬ Used boxHashZero i := fun i => by simp [Used, boxHashZero]
  refine ⟨[], h.boxes, ?_, ?_⟩
  · rw [h.boxHash]
    exact fun j _ hu => absurd hu (hnone j)
  · rw [h.boxHash, keys_of_unused hnone]
    rfl

/-- A state that a run reaches whose steps keep the account. -/
abbrev HeapReached (Owned : pa.State → List (ℕ × ℕ) → Prop) (Together : ℕ → pa.State → Prop)
    (σ : HeapSystem pa) : Prop :=
  Reach (HeapBoot Owned) (fun σ op σ' => KeepsSpans Owned Together σ op ∧ heapStep σ op σ') σ

/-- **What holds of every state reached**: the invariant, with the boxes hashed. -/
theorem HeapReached.inv (C : PageContract pa Owned Together) (hr : HeapReached Owned Together σ) :
    ∃ l, HeapInv Owned σ.heap σ.live l ∧ Started σ.heap l ∧ Hashed σ.heap l := by
  obtain ⟨l, hI, hst, hB⟩ :
      ∃ l, HeapInv Owned σ.heap σ.live l ∧ Started σ.heap l ∧ BoxesHashed σ.heap :=
    hr.invariant (P := fun σ => ∃ l, HeapInv Owned σ.heap σ.live l ∧ Started σ.heap l ∧
        BoxesHashed σ.heap)
      (fun σ hσ => ⟨[], hσ.toHeapStart.inv.1, hσ.toHeapStart.inv.2, hσ.boxesHashed⟩)
      fun σ op σ' _ ⟨_, hI, hst, hB⟩ hstep => by
        obtain ⟨l', hI', hst'⟩ := hI.step C hst hstep.1 hstep.2
        exact ⟨l', hI', hst', hB.step C hI hst hstep.1 hstep.2⟩
  exact ⟨l, hI, hst, hB.of_chain hI.chain⟩

end Calls

end Flopperating
