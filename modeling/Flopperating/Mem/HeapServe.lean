/-
# When kmalloc returns, and what

Whether `kmalloc` returns, and whether it returns an object, is decided by the
state before the call: whether a box has enough free blocks in a row
(`RoomFor`), how many boxes there are, and how many blocks are on the free lists
of the page allocator (`HeapInv.kmallocCase`).

With `BOX_HASH_SIZE` boxes no other is registered: `box_hash_insert` walks round
the full table for ever, with `heap_lock` held (`kmalloc_returns_iff`,
`kmalloc_hangs`).  And a box has room for 3932 bytes, while requests are sent to
the boxes up to `PAGE_SIZE`: those in between never get an object, and each of
them leaves an empty box behind (`kmalloc_serves_iff`, `kmalloc_unserved`).
-/

import Flopperating.Mem.HeapBoxes
import Flopperating.Mem.HeapPages
import Flopperating.Mem.PmmMergeBounds

namespace Flopperating

open ByteMemory Bitmap DyadicBlocks LinkedList LinearProbing Transition

/-- The box has `needed` free blocks in a row. -/
def FreeRun (v : Box) (needed : ℕ) : Prop :=
  ∃ k, k + needed ≤ v.totalBlocks ∧ ∀ j, k ≤ j → j < k + needed → bit v.map j = false

/-- One of the boxes `l` has room for an object. -/
def RoomFor {pa : PageAllocator} (h : Heap pa) (l : List ℕ) (size : ℕ) : Prop :=
  ∃ b ∈ l, FreeRun (h.box b) (neededBlocks size)

/-- The call returns, with the boxes `l` and `m` free blocks. -/
def KmallocReturns {pa : PageAllocator} (h : Heap pa) (l : List ℕ) (m size : ℕ) : Prop :=
  size = 0 ∨ if pageSize < size then m = 0 ∨ neededPages size ≤ m
    else RoomFor h l size ∨ m = 0 ∨ l.length < boxHashSize

/-- The call returns an object. -/
def KmallocServes {pa : PageAllocator} (h : Heap pa) (l : List ℕ) (m size : ℕ) : Prop :=
  size ≠ 0 ∧ if pageSize < size then neededPages size ≠ 0 ∧ neededPages size ≤ m
    else RoomFor h l size ∨ neededBlocks size ≤ blocksPerBox ∧ m ≠ 0 ∧ l.length < boxHashSize

theorem KmallocServes.returns {pa : PageAllocator} {h : Heap pa} {l : List ℕ} {m size : ℕ}
    (hs : KmallocServes h l m size) : KmallocReturns h l m size := by
  refine .inr ?_
  have hs := hs.2
  split at hs
  · next hlarge =>
    rw [if_pos hlarge]
    exact .inr hs.2
  · next hsmall =>
    rw [if_neg hsmall]
    exact hs.imp id fun h => .inr h.2.2

/-! ### Boxes -/

section Boxes

variable {pa : PageAllocator} {h h' : Heap pa} {b size : ℕ}

/-- `heap_box_alloc` succeeds in a box with enough free blocks in a row. -/
theorem heapBoxAlloc_ne_zero_iff (hs : size ≤ pageSize) :
    (heapBoxAlloc b size h).1 ≠ 0 ↔ FreeRun (h.box b) (neededBlocks size) := by
  rw [FreeRun, ← findRun_isSome_iff (neededBlocks_pos hs)]
  cases hfind : findRun (h.box b).map (h.box b).totalBlocks (neededBlocks size) with
  | none => simp [heapBoxAlloc, heapMapFindFree, hfind]
  | some k => simp [heapBoxAlloc, heapMapFindFree, hfind]

theorem heapBoxAlloc_of_not_freeRun (hs : size ≤ pageSize) (hno : ¬ FreeRun (h.box b) (neededBlocks size)) :
    heapBoxAlloc b size h = (0, h) := by
  rw [FreeRun, ← findRun_isSome_iff (neededBlocks_pos hs), Option.not_isSome_iff_eq_none] at hno
  simp only [heapBoxAlloc, heapMapFindFree, hno]

/-- The walk over the boxes finds one with room. -/
theorem heapBoxIterateFrom_ne_zero_iff (hs : size ≤ pageSize) {steps p : ℕ} {cur : Option ℕ}
    {rest : List ℕ} (hseg : Chain h.next cur rest)
    (hrun : heapBoxIterateFrom size h steps cur = some (p, h')) : p ≠ 0 ↔ RoomFor h rest size := by
  induction steps generalizing cur rest with
  | zero => exact absurd hrun (by simp [heapBoxIterateFrom])
  | succ steps ih =>
    cases rest with
    | nil =>
      obtain rfl : cur = none := hseg
      obtain ⟨rfl, -⟩ := Prod.mk.inj (Option.some.inj hrun)
      simp [RoomFor]
    | cons b rest =>
      obtain ⟨rfl, hseg⟩ := hseg
      unfold heapBoxIterateFrom at hrun
      rw [RoomFor, List.exists_mem_cons_iff, ← heapBoxAlloc_ne_zero_iff hs]
      split at hrun
      · next hne =>
        have hp : (heapBoxAlloc b size h).1 = p := congrArg Prod.fst (Option.some.inj hrun)
        exact ⟨fun _ => .inl hne, fun _ => hp ▸ hne⟩
      · next hno =>
        rw [ih hseg hrun, or_iff_right hno]
        rfl

/-- `heap_init` for the first time. -/
theorem heapInit_eq (hinit : h.initialized = false) (hempty : h.boxes = none) :
    heapInit h = (heapCreateBox h).map fun (r, h) => r.elim h fun _ => { h with initialized := true } := by
  have hsame : ({ h with boxes := none } : Heap pa) = h := by rw [← hempty]
  rw [heapInit, if_neg (by simp [hinit]), hsame]
  cases heapCreateBox h with
  | none => rfl
  | some r =>
    obtain ⟨b, g⟩ := r
    cases b <;> rfl

/-- A box that `box_init` has set up has all its blocks free. -/
theorem freeRun_boxInit (page n : ℕ) (old : Box) :
    FreeRun (boxInit page old) n ↔ n ≤ blocksPerBox := by
  constructor
  · rintro ⟨k, hk, -⟩
    exact (Nat.le_add_left n k).trans hk
  · intro hn
    refine ⟨0, (Nat.zero_add n).trans_le hn, fun j _ hj => ?_⟩
    have hbyte : j / 8 < mapBytes := by
      rw [blocksPerBox_eq] at hn
      simp only [mapBytes, blocksPerBox_eq]
      omega
    simp only [boxInit, bit, if_pos hbyte]
    exact BitVec.getLsbD_zero

end Boxes

/-! ### Pages -/

section Pages

variable {A : Finset ℕ} {h : Heap buddyPages.traced} {live : List (ℕ × ℕ)} {l : List ℕ} {m : ℕ}

theorem BuddyOwned.exists_available {s : BuddyAllocator} {held : List (ℕ × ℕ)}
    (hown : BuddyOwned A s held) : ∃ m, Available s 0 m := by
  obtain ⟨-, F, L, hI, -⟩ := hown
  exact ⟨_, hI.inv.available_iff.2 rfl⟩

/-- An allocation of pages for the heap: it succeeds, fails without a change or
does not return. -/
theorem HeapInv.allocPages_cases (h0 : 0 ∉ A) (hI : HeapInv (BuddyOwned A) h live l)
    (hav : Available h.pageState 0 m) {count : ℕ} (hc : count ≠ 0) :
    (count ≤ m ∧ ∃ addr pages, addr ≠ 0 ∧ buddyPages.traced.allocPages count h.pages = some (addr, pages) ∧
      Available (TracedPages.state pages) 0 (m - count)) ∨
    (m < count ∧ buddyPages.traced.allocPages count h.pages = if m = 0 then some (0, h.pages) else none) := by
  obtain ⟨-, F, L, hP, -⟩ := hI.owned
  rcases hP.allocPages_cases h0 hc hav with ⟨hle, B, C, t, hrun, hT⟩ | ⟨hlt, hrun⟩
  · exact .inl ⟨hle, headPage C, _, hT.nonzero, Option.map_eq_some_iff.2 ⟨_, hrun, rfl⟩,
      hT.available hP hav⟩
  · refine .inr ⟨hlt, (congrArg (Option.map _) hrun).trans ?_⟩
    split <;> rfl

/-- **`heap_create_box`** on `m` free blocks: there is no page, or the box is made,
or the call does not return. -/
theorem HeapInv.heapCreateBox_cases (h0 : 0 ∉ A) (hI : HeapInv (BuddyOwned A) h live l)
    (hH : Hashed h l) (hav : Available h.pageState 0 m) :
    (m = 0 ∧ heapCreateBox h = some (none, h)) ∨
    (m ≠ 0 ∧ l.length < boxHashSize ∧ ∃ b h', heapCreateBox h = some (some b, h') ∧
      HeapInv (BuddyOwned A) h' live (b :: l) ∧ Hashed h' (b :: l) ∧ h'.initialized = h.initialized ∧
      Available h'.pageState 0 (m - 1) ∧ (∀ n, FreeRun (h'.box b) n ↔ n ≤ blocksPerBox) ∧ ∀ b' ∈ l, h'.box b' = h.box b') ∨
    (m ≠ 0 ∧ boxHashSize ≤ l.length ∧ heapCreateBox h = none) := by
  rcases hI.allocPages_cases h0 hav one_ne_zero with
    ⟨hle, addr, pages, hne, halloc, hav'⟩ | ⟨hlt, halloc⟩
  · have hm : m ≠ 0 := by omega
    have hH₁ := hH.congr (sameBoxes_initBox h addr pages)
    have hcreate := heapCreateBox_of_page halloc hne
    by_cases hlen : l.length < boxHashSize
    · obtain ⟨h', hreg⟩ := Option.isSome_iff_exists.1 ((hH₁.register_isSome_iff (b := addr)).2 hlen)
      rw [hreg, Option.map_some] at hcreate
      rcases hI.heapCreateBox_spec (buddyPages_contract h0) hcreate with
        ⟨hnone, -⟩ | ⟨b, hb, hI', -, -, hinit⟩
      · exact absurd hnone (by simp)
      obtain rfl := Option.some.inj hb
      have hnew : addr ∉ l := (List.nodup_cons.1 hI'.chain.nodup).1
      obtain ⟨-, hself, hother, hpages⟩ := heapBoxRegister_some hreg
      refine .inr (.inl ⟨hm, hlen, addr, h', hcreate, hI', hH₁.register hnew hreg, hinit, ?_,
        fun n => ?_,
        fun b' hb' => ?_⟩)
      · rw [show h'.pageState = TracedPages.state pages from congrArg TracedPages.state hpages]
        exact hav'
      · rw [hself, initBox, Heap.setBox_box_self]
        exact freeRun_boxInit addr n (h.box addr)
      · have hne' : b' ≠ addr := fun he => hnew (he ▸ hb')
        rw [hother b' hne', initBox, Heap.setBox_box_of_ne hne']
    · refine .inr (.inr ⟨hm, Nat.not_lt.1 hlen, hcreate.trans ?_⟩)
      rw [Option.map_eq_none_iff, ← Option.not_isSome_iff_eq_none, hH₁.register_isSome_iff]
      exact hlen
  · have hm : m = 0 := by omega
    rw [if_pos hm] at halloc
    refine .inl ⟨hm, ?_⟩
    unfold heapCreateBox
    rw [halloc]
    rfl

/-! ### Objects -/

/-- `kmalloc` of an object of at most a page, when no box has room. -/
theorem HeapInv.kmallocSmall_eq (hI : HeapInv (BuddyOwned A) h live l) {size : ℕ} (hs : size ≤ pageSize)
    (hroom : ¬ RoomFor h l size) : kmallocSmall size h =
      (heapCreateBox h).map fun (r, h) => r.elim (0, h) fun b => heapBoxAlloc b size h := by
  obtain ⟨r, g, hit, -, hnull, -⟩ := hI.heapBoxIterate_spec hs
  have hr : r = 0 := not_not.1 (mt (heapBoxIterateFrom_ne_zero_iff hs hI.chain hit).1 hroom)
  obtain rfl := hnull hr
  unfold kmallocSmall
  rw [hit]
  simp only [hr, ne_eq, not_true_eq_false, if_false]
  cases heapCreateBox g with
  | none => rfl
  | some r =>
    obtain ⟨b, g'⟩ := r
    cases b <;> rfl

/-- What `kmalloc` does, on `m` free blocks. -/
inductive KmallocCase (h : Heap buddyPages.traced) (l : List ℕ) (m size : ℕ) : Prop
  /-- It returns an object. -/
  | object (hserves : KmallocServes h l m size) (p : ℕ) (h' : Heap buddyPages.traced)
      (hrun : kmalloc size h = some (p, h')) (hp : p ≠ 0)
  /-- It returns `NULL` and has changed nothing. -/
  | null (hserves : ¬ KmallocServes h l m size) (hreturns : KmallocReturns h l m size)
      (hsmall : size ≠ 0 → size ≤ pageSize → m = 0) (hrun : kmalloc size h = some (0, h))
  /-- It returns `NULL` after a box was made that is too small for the object. -/
  | tooSmall (hsize : size ≠ 0 ∧ size ≤ pageSize ∧ blocksPerBox < neededBlocks size) (hm : m ≠ 0)
      (hserves : ¬ KmallocServes h l m size) (hreturns : KmallocReturns h l m size)
      (h' : Heap buddyPages.traced) (hrun : kmalloc size h = some (0, h'))
  /-- It does not return. -/
  | hangs (hreturns : ¬ KmallocReturns h l m size) (hrun : kmalloc size h = none)

theorem kmallocServes_small {pa : PageAllocator} {h : Heap pa} {size : ℕ} (hs : size ≤ pageSize)
    (hne : size ≠ 0) : KmallocServes h l m size ↔
      RoomFor h l size ∨ neededBlocks size ≤ blocksPerBox ∧ m ≠ 0 ∧ l.length < boxHashSize := by
  rw [KmallocServes, if_neg (Nat.not_lt.2 hs), and_iff_right hne]

theorem kmallocReturns_small {pa : PageAllocator} {h : Heap pa} {size : ℕ} (hs : size ≤ pageSize)
    (hne : size ≠ 0) : KmallocReturns h l m size ↔ RoomFor h l size ∨ m = 0 ∨ l.length < boxHashSize := by
  rw [KmallocReturns, if_neg (Nat.not_lt.2 hs), or_iff_right hne]

/-- What the part of `kmalloc` for objects of at most a page does. -/
theorem HeapInv.kmallocSmall_cases (h0 : 0 ∉ A) (hI : HeapInv (BuddyOwned A) h live l)
    (hH : Hashed h l) (hav : Available h.pageState 0 m) {size : ℕ} (hs : size ≤ pageSize) :
    (RoomFor h l size ∨ neededBlocks size ≤ blocksPerBox ∧ m ≠ 0 ∧ l.length < boxHashSize) ∧
      (∃ p h', kmallocSmall size h = some (p, h') ∧ p ≠ 0) ∨
    ¬ RoomFor h l size ∧ (m = 0 ∧ kmallocSmall size h = some (0, h) ∨
      m ≠ 0 ∧ l.length < boxHashSize ∧ blocksPerBox < neededBlocks size ∧
        (∃ h', kmallocSmall size h = some (0, h')) ∨
      m ≠ 0 ∧ boxHashSize ≤ l.length ∧ kmallocSmall size h = none) := by
  by_cases hroom : RoomFor h l size
  · obtain ⟨r, g, hit, -⟩ := hI.heapBoxIterate_spec hs
    have hr := (heapBoxIterateFrom_ne_zero_iff hs hI.chain hit).2 hroom
    refine .inl ⟨.inl hroom, r, g, ?_, hr⟩
    unfold kmallocSmall
    rw [hit]
    simp only [if_pos hr]
  · have hrun := hI.kmallocSmall_eq hs hroom
    rcases hI.heapCreateBox_cases h0 hH hav with
      ⟨hm, hcreate⟩ | ⟨hm, hlen, b, h', hcreate, -, -, -, -, hfresh, -⟩ | ⟨hm, hlen, hcreate⟩
    · exact .inr ⟨hroom, .inl ⟨hm, by rw [hrun, hcreate]; rfl⟩⟩
    · have hrun' : kmallocSmall size h = some (heapBoxAlloc b size h') := by
        rw [hrun, hcreate]
        rfl
      have halloc := heapBoxAlloc_ne_zero_iff (h := h') (b := b) hs
      rw [hfresh] at halloc
      by_cases hfit : neededBlocks size ≤ blocksPerBox
      · exact .inl ⟨.inr ⟨hfit, hm, hlen⟩, _, _, hrun', halloc.2 hfit⟩
      · have hnull : (heapBoxAlloc b size h').1 = 0 := not_not.1 (mt halloc.1 hfit)
        exact .inr ⟨hroom, .inr (.inl ⟨hm, hlen, Nat.not_le.1 hfit, _,
          hrun'.trans (congrArg some (Prod.ext hnull rfl))⟩)⟩
    · exact .inr ⟨hroom, .inr (.inr ⟨hm, hlen, by rw [hrun, hcreate]; rfl⟩)⟩

/-- With the heap initialised. -/
theorem HeapInv.kmallocCase_small (h0 : 0 ∉ A) (hI : HeapInv (BuddyOwned A) h live l)
    (hH : Hashed h l) (hav : Available h.pageState 0 m) {size : ℕ} (hs : size ≤ pageSize)
    (hne : size ≠ 0) (hkm : kmalloc size h = kmallocSmall size h) : KmallocCase h l m size := by
  have hserves := kmallocServes_small (h := h) (l := l) (m := m) hs hne
  have hreturns := kmallocReturns_small (h := h) (l := l) (m := m) hs hne
  rcases hI.kmallocSmall_cases h0 hH hav hs with
    ⟨hserve, p, h', hrun, hp⟩ | ⟨hroom, ⟨hm, hrun⟩ | ⟨hm, hlen, hbig, h', hrun⟩ | ⟨hm, hlen, hrun⟩⟩
  · exact .object (hserves.2 hserve) p h' (hkm.trans hrun) hp
  · exact .null (mt hserves.1 (by tauto)) (hreturns.2 (.inr (.inl hm))) (fun _ _ => hm) (hkm.trans hrun)
  · refine .tooSmall ⟨hne, hs, hbig⟩ hm (mt hserves.1 ?_) (hreturns.2 (.inr (.inr hlen))) h' (hkm.trans hrun)
    rintro (h | ⟨h, -⟩)
    · exact hroom h
    · exact absurd h (Nat.not_le.2 hbig)
  · refine .hangs (mt hreturns.1 ?_) (hkm.trans hrun)
    rintro (h | h | h)
    · exact hroom h
    · exact hm h
    · exact absurd h (Nat.not_lt.2 hlen)

/-- With no page to be had for the first box, or with one. -/
theorem HeapInv.kmallocCase_first (h0 : 0 ∉ A) (hI : HeapInv (BuddyOwned A) h live l) (hst : Started h l)
    (hH : Hashed h l) (hav : Available h.pageState 0 m) {size : ℕ} (hs : size ≤ pageSize)
    (hne : size ≠ 0) (hinit : h.initialized = false) : KmallocCase h l m size := by
  obtain rfl := hst hinit
  have hkm : kmalloc size h = (heapInit h).bind (kmallocSmall size) := by
    rw [kmalloc, if_neg hne, if_neg (Nat.not_lt.2 hs), if_neg (by simp [hinit])]
  have hinit' := heapInit_eq hinit hI.chain
  rcases hI.heapCreateBox_cases h0 hH hav with
    ⟨hm, hcreate⟩ | ⟨hm, -, b, h', hcreate, hI', hH', -, -, hfresh, -⟩ | ⟨-, hlen, -⟩
  · refine hI.kmallocCase_small h0 hH hav hs hne ?_
    rw [hkm, hinit', hcreate]
    rfl
  · rw [hinit', hcreate] at hkm
    have hkm : kmalloc size h = kmallocSmall size { h' with initialized := true } := hkm
    have hI₂ := hI'.of_initialized true
    have hH₂ : Hashed ({ h' with initialized := true } : Heap buddyPages.traced) [b] :=
      hH'.congr ⟨rfl, fun _ => rfl, rfl, rfl⟩
    obtain ⟨m', hav'⟩ := hI₂.owned.exists_available
    have hroom : RoomFor ({ h' with initialized := true } : Heap buddyPages.traced) [b] size ↔
        neededBlocks size ≤ blocksPerBox := by
      rw [RoomFor, List.exists_mem_cons_iff]
      simpa using hfresh _
    have hserves := kmallocServes_small (h := h) (l := []) (m := m) hs hne
    have hbig : ¬ neededBlocks size ≤ blocksPerBox → ¬ KmallocServes h [] m size := fun hno h => by
      rcases hserves.1 h with ⟨b, hb, -⟩ | h
      · exact absurd hb List.not_mem_nil
      · exact hno h.1
    have hreturns : KmallocReturns h [] m size :=
      (kmallocReturns_small hs hne).2 (.inr (.inr (by decide)))
    rcases hI₂.kmallocSmall_cases h0 hH₂ hav' hs with
      ⟨hserve, p, g, hrun, hp⟩ | ⟨hno, ⟨-, hrun⟩ | ⟨-, -, -, g, hrun⟩ | ⟨-, hlen, -⟩⟩
    · refine .object (hserves.2 (.inr ⟨?_, hm, by decide⟩)) p g (hkm.trans hrun) hp
      exact hserve.elim hroom.1 fun h => h.1
    · exact .tooSmall ⟨hne, hs, Nat.not_le.1 (mt hroom.2 hno)⟩ hm (hbig (mt hroom.2 hno)) hreturns _
        (hkm.trans hrun)
    · exact .tooSmall ⟨hne, hs, Nat.not_le.1 (mt hroom.2 hno)⟩ hm (hbig (mt hroom.2 hno)) hreturns _
        (hkm.trans hrun)
    · exact absurd hlen (Nat.not_le.2 (show 1 < boxHashSize by decide))
  · exact absurd hlen (by decide)

/-- With an object larger than a page. -/
theorem HeapInv.kmallocCase_large (h0 : 0 ∉ A) (hI : HeapInv (BuddyOwned A) h live l)
    (hav : Available h.pageState 0 m) {size : ℕ} (hs : pageSize < size) : KmallocCase h l m size := by
  have hne : size ≠ 0 := Nat.ne_zero_of_lt hs
  have hkm : kmalloc size h = kmallocLarge size h := by rw [kmalloc, if_neg hne, if_pos hs]
  have hserves : KmallocServes h l m size ↔ neededPages size ≠ 0 ∧ neededPages size ≤ m := by
    rw [KmallocServes, if_pos hs, and_iff_right hne]
  have hreturns : KmallocReturns h l m size ↔ m = 0 ∨ neededPages size ≤ m := by
    rw [KmallocReturns, if_pos hs, or_iff_right hne]
  have hnull : buddyPages.traced.allocPages (neededPages size) h.pages = some (0, h.pages) →
      kmalloc size h = some (0, h) := fun halloc => by
    rw [hkm, kmallocLarge, halloc]
    rfl
  have hlarge : size ≠ 0 → size ≤ pageSize → m = 0 := fun _ h => absurd hs (Nat.not_lt.2 h)
  by_cases hc : neededPages size = 0
  · refine .null (fun h => (hserves.1 h).1 hc) (hreturns.2 (.inr (hc ▸ Nat.zero_le m))) hlarge (hnull ?_)
    rw [hc]
    rfl
  · rcases hI.allocPages_cases h0 hav hc with ⟨hle, addr, pages, haddr, halloc, -⟩ | ⟨hlt, halloc⟩
    · have hrun : kmalloc size h = some (addr + objectAlign,
          ({ h with pages := pages } : Heap buddyPages.traced).writeObject addr 0 size) := by
        rw [hkm, kmallocLarge, halloc, Option.map_some]
        simp only [if_neg haddr]
      exact .object (hserves.2 ⟨hc, hle⟩) _ _ hrun (by simp)
    · have hno : ¬ KmallocServes h l m size := fun h => absurd (hserves.1 h).2 (Nat.not_le.2 hlt)
      by_cases hm : m = 0
      · rw [if_pos hm] at halloc
        exact .null hno (hreturns.2 (.inl hm)) hlarge (hnull halloc)
      · rw [if_neg hm] at halloc
        refine .hangs (fun h => (hreturns.1 h).elim hm fun h => absurd h (Nat.not_le.2 hlt)) ?_
        rw [hkm, kmallocLarge, halloc]
        rfl

/-- **`kmalloc`**, in every state that satisfies the invariant. -/
theorem HeapInv.kmallocCase (h0 : 0 ∉ A) (hI : HeapInv (BuddyOwned A) h live l) (hst : Started h l)
    (hH : Hashed h l) (hav : Available h.pageState 0 m) (size : ℕ) : KmallocCase h l m size := by
  by_cases hne : size = 0
  · exact .null (fun h => h.1 hne) (.inl hne) (fun h => absurd hne h) (by rw [kmalloc, if_pos hne])
  by_cases hs : pageSize < size
  · exact hI.kmallocCase_large h0 hav hs
  · have hs := Nat.not_lt.1 hs
    by_cases hinit : h.initialized = true
    · exact hI.kmallocCase_small h0 hH hav hs hne (by
        rw [kmalloc, if_neg hne, if_neg (Nat.not_lt.2 hs), if_pos hinit])
    · exact hI.kmallocCase_first h0 hst hH hav hs hne (Bool.not_eq_true _ ▸ hinit)

/-- **When `kmalloc` returns**: with at most a page to allocate, when a box has room, or no page is
free, or there are fewer than `BOX_HASH_SIZE` boxes; otherwise when no block is free, or as many as
it needs pages.  A box can be registered when there are fewer than `BOX_HASH_SIZE`. -/
theorem kmalloc_returns_iff (h0 : 0 ∉ A) {σ : HeapSystem buddyPages}
    (hr : HeapReached (BuddyOwned A) AdjacentFree σ) :
    ∃ l m, Chain σ.heap.next σ.heap.boxes l ∧ Available σ.heap.pageState 0 m ∧
      (∀ size, (kmalloc size σ.heap).isSome ↔ KmallocReturns σ.heap l m size) ∧
      ∀ b, (heapBoxRegister b σ.heap).isSome ↔ l.length < boxHashSize := by
  obtain ⟨l, hI, hst, hH⟩ := hr.inv (buddyPages_contract h0)
  obtain ⟨m, hav⟩ := hI.owned.exists_available
  refine ⟨l, m, hI.chain, hav, fun size => ?_, fun b => hH.register_isSome_iff⟩
  cases hI.kmallocCase h0 hst hH hav size with
  | object hserves p h' hrun hp => simp [hrun, hserves.returns]
  | null _ hreturns _ hrun => simp [hrun, hreturns]
  | tooSmall _ _ _ hreturns h' hrun => simp [hrun, hreturns]
  | hangs hno hrun => simp [hrun, hno]

end Pages

/-! ### A full table -/

section Full

variable {A : Finset ℕ} {mb : MultibootInfo} {s₀ : BuddyAllocator} {σ : HeapSystem buddyPages}
  {l : List ℕ} {m : ℕ}

/-- The heap before its first call, over clear memory and the pages that boot leaves. -/
def bootedHeap (mb : MultibootInfo) (s₀ : BuddyAllocator) : HeapSystem buddyPages where
  heap :=
    { boxes := none
      box := fun _ => ⟨none, 0, 0, fun _ => 0, 0, 0⟩
      mem := fun _ => 0
      boxHash := boxHashZero
      initialized := false
      nextBoxId := 0
      pages := ⟨pmmCreateFreeList mb s₀, [], []⟩ }
  live := []

theorem BootState.heapBoot (h : BootState mb s₀) :
    HeapBoot (BuddyOwned (BootState.frames mb s₀)) (bootedHeap mb s₀) :=
  ⟨⟨rfl, rfl, rfl, rfl, by simp, _, [], h.pmmInv rfl, List.nil_subperm⟩, rfl⟩

/-- Every frame is free on its own after boot. -/
theorem BootState.available (h : BootState mb s₀) :
    Available (bootedHeap mb s₀).heap.pageState 0 (BootState.frames mb s₀).card := by
  refine (h.pmmInv rfl).inv.available_iff.2 ?_
  rw [Finset.filter_true_of_mem fun b hb => ?_, Finset.card_image_of_injective]
  · exact fun p q he => congrArg Block.base he
  · obtain ⟨p, -, rfl⟩ := Finset.mem_image.1 hb
    exact ⟨Nat.zero_le _, Nat.zero_le _⟩

/-- A state with the boxes `l` and `m` free blocks, the heap being initialised. -/
structure Boxed (A : Finset ℕ) (σ : HeapSystem buddyPages) (l : List ℕ) (m : ℕ) : Prop where
  reached : HeapReached (BuddyOwned A) AdjacentFree σ
  inv : HeapInv (BuddyOwned A) σ.heap σ.live l
  hashed : Hashed σ.heap l
  initialized : σ.heap.initialized = true
  available : Available σ.heap.pageState 0 m

/-- An object of 4000 bytes does not fit into any box. -/
theorem Boxed.not_roomFor (hB : Boxed A σ l m) : ¬ RoomFor σ.heap l 4000 := by
  rintro ⟨b, hb, k, hk, -⟩
  rw [(hB.inv.formed b hb).totalBlocks, neededBlocks_eq (by decide)] at hk
  have := blocksPerBox_eq
  omega

/-- A request for 4000 bytes makes a box, and returns `NULL`. -/
theorem Boxed.grow (h0 : 0 ∉ A) (hB : Boxed A σ l m) (hm : m ≠ 0) (hlen : l.length < boxHashSize) :
    ∃ h' b, kmalloc 4000 σ.heap = some (0, h') ∧ Boxed A ⟨h', σ.live⟩ (b :: l) (m - 1) := by
  have hs : 4000 ≤ pageSize := by decide
  have hkm : kmalloc 4000 σ.heap = kmallocSmall 4000 σ.heap := by
    rw [kmalloc, if_neg (by decide), if_neg (by decide), if_pos hB.initialized]
  rcases hB.inv.heapCreateBox_cases h0 hB.hashed hB.available with
    ⟨hm', -⟩ | ⟨-, -, b, h', hcreate, hI', hH', hinit, hav, hfresh, -⟩ | ⟨-, hfull, -⟩
  · exact absurd hm' hm
  · have hno : ¬ FreeRun (h'.box b) (neededBlocks 4000) := by
      rw [hfresh]
      decide
    have hrun : kmalloc 4000 σ.heap = some (0, h') := by
      rw [hkm, hB.inv.kmallocSmall_eq hs hB.not_roomFor, hcreate]
      exact congrArg some (heapBoxAlloc_of_not_freeRun hs hno)
    have hstep : heapStep σ (.alloc 4000) ⟨h', σ.live⟩ := by
      rw [heapStep, HeapOp.run, hrun]
      rfl
    exact ⟨h', b, hrun, Reach.step (.alloc 4000) hB.reached ⟨.inl hs, hstep⟩, hI', hH',
      hinit.trans hB.initialized, hav⟩
  · exact absurd hlen (Nat.not_lt.2 hfull)

/-- Any number of boxes up to `BOX_HASH_SIZE`, as far as there are pages. -/
theorem Boxed.grows (h0 : 0 ∉ A) (hB : Boxed A σ l m) (k : ℕ) (hlen : l.length + k ≤ boxHashSize)
    (hk : k ≤ m) : ∃ σ' l', Boxed A σ' l' (m - k) ∧ l'.length = l.length + k := by
  induction k with
  | zero => exact ⟨σ, l, hB, rfl⟩
  | succ k ih =>
    obtain ⟨σ₁, l₁, hB₁, hl₁⟩ := ih (by omega) (by omega)
    obtain ⟨h', b, -, hB₂⟩ := hB₁.grow h0 (by omega) (by omega)
    exact ⟨⟨h', σ₁.live⟩, b :: l₁, by rwa [Nat.sub_sub] at hB₂, by rw [List.length_cons, hl₁]; rfl⟩

/-- `heap_init` makes the first box. -/
theorem BootState.boxed (h : BootState mb s₀) (h0 : 0 ∉ BootState.frames mb s₀)
    (hframes : (BootState.frames mb s₀).card ≠ 0) :
    ∃ σ b, Boxed (BootState.frames mb s₀) σ [b] ((BootState.frames mb s₀).card - 1) := by
  have hboot := h.heapBoot
  have hI := hboot.toHeapStart.inv.1
  rcases hI.heapCreateBox_cases h0 (hboot.boxesHashed.of_chain hI.chain) h.available with
    ⟨hm, -⟩ | ⟨-, -, b, h', hcreate, hI', hH', -, hav, -⟩ | ⟨-, hfull, -⟩
  · exact absurd hm hframes
  · have hstep : heapStep (bootedHeap mb s₀) .init ⟨{ h' with initialized := true }, []⟩ := by
      rw [heapStep, HeapOp.run, heapInit_eq rfl rfl, hcreate]
      rfl
    have hreach : HeapReached (BuddyOwned (BootState.frames mb s₀)) AdjacentFree (bootedHeap mb s₀) :=
      .init hboot
    exact ⟨_, b, Reach.step .init hreach ⟨trivial, hstep⟩, hI'.of_initialized true,
      hH'.congr ⟨rfl, fun _ => rfl, rfl, rfl⟩, rfl, hav⟩
  · exact absurd hfull (by decide)

/-- The frames of `eightMiBMap`. -/
theorem card_frames_eightMiB : (BootState.frames eightMiBMap eightMiBStart).card = 2048 := by
  have hico : BootState.frames eightMiBMap eightMiBStart = Finset.Ico 2048 4096 := by
    ext p
    rw [mem_frames_eightMiB, Finset.mem_Ico]
    simp only [maxOrder]
    omega
  rw [hico, Nat.card_Ico]

theorem zero_notMem_eightMiB : 0 ∉ BootState.frames eightMiBMap eightMiBStart :=
  zero_notMem_frames (by decide)

/-- The very first call, for 64 bytes, returns. -/
theorem kmalloc_returns_booted : (kmalloc 64 (bootedHeap eightMiBMap eightMiBStart).heap).isSome := by
  obtain ⟨l, m, hl, -, hreturns, -⟩ :=
    kmalloc_returns_iff zero_notMem_eightMiB (.init bootState_eightMiB.heapBoot)
  obtain rfl : l = [] := hl.unique rfl
  exact (hreturns 64).2 ((kmallocReturns_small (by decide) (by decide)).2 (.inr (.inr (by decide))))

/-- **`kmalloc` does not return**: a request for 4000 bytes with `BOX_HASH_SIZE` boxes registered and
pages left. -/
theorem kmalloc_hangs : ∃ σ : HeapSystem buddyPages,
    HeapReached (BuddyOwned (BootState.frames eightMiBMap eightMiBStart))
    AdjacentFree σ ∧ kmalloc 4000 σ.heap = none := by
  have h0 := zero_notMem_eightMiB
  have hcard := card_frames_eightMiB
  obtain ⟨σ₁, b, hB₁⟩ := bootState_eightMiB.boxed h0 (by rw [hcard]; decide)
  obtain ⟨σ, l, hB, hl⟩ := hB₁.grows h0 255 (show 1 + 255 ≤ boxHashSize by decide) (by rw [hcard]; decide)
  refine ⟨σ, hB.reached, ?_⟩
  have hlen : l.length = 256 := hl
  have hst : Started σ.heap l := fun hf => absurd (hf.symm.trans hB.initialized) (by simp)
  have hno : ¬ KmallocReturns σ.heap l (2047 - 255) 4000 := by
    rw [kmallocReturns_small (by decide) (by decide)]
    rintro (h | h | h)
    · exact hB.not_roomFor h
    · exact absurd h (by decide)
    · exact absurd h (by rw [hlen]; decide)
  rw [hcard] at hB
  cases hB.inv.kmallocCase h0 hst hB.hashed hB.available 4000 with
  | object hserves => exact absurd hserves.returns hno
  | null _ hreturns => exact absurd hreturns hno
  | tooSmall _ _ _ hreturns => exact absurd hreturns hno
  | hangs _ hrun => exact hrun

end Full

/-! ### Small objects -/

section Small

variable {A : Finset ℕ} {σ : HeapSystem buddyPages}

/-- What a caller of `kmalloc` counts on for small objects: with a page to be had it gets one, and
when it gets none the boxes and the pages are as before. -/
def SmallServed (h : Heap buddyPages.traced) (l : List ℕ) (m size : ℕ) : Prop :=
  (0 < size → size ≤ pageSize → m ≠ 0 → ∃ p h', kmalloc size h = some (p, h') ∧ p ≠ 0) ∧
    ∀ h', kmalloc size h = some (0, h') → Chain h'.next h'.boxes l ∧ h'.pageState = h.pageState

/-- **When small objects are served**: exactly when no page is to be had, or a box has room, or
another box has room for the object and can be registered. -/
theorem kmalloc_serves_iff (h0 : 0 ∉ A) {σ : HeapSystem buddyPages}
    (hr : HeapReached (BuddyOwned A) AdjacentFree σ) :
    ∃ l m, Chain σ.heap.next σ.heap.boxes l ∧ Available σ.heap.pageState 0 m ∧
      ∀ size, SmallServed σ.heap l m size ↔
        (0 < size → size ≤ pageSize → m ≠ 0 → RoomFor σ.heap l size ∨
          neededBlocks size ≤ blocksPerBox ∧ l.length < boxHashSize) := by
  obtain ⟨l, hI, hst, hH⟩ := hr.inv (buddyPages_contract h0)
  obtain ⟨m, hav⟩ := hI.owned.exists_available
  refine ⟨l, m, hI.chain, hav, fun size => ?_⟩
  have hsmall : 0 < size → size ≤ pageSize → (KmallocServes σ.heap l m size ↔
      RoomFor σ.heap l size ∨ neededBlocks size ≤ blocksPerBox ∧ m ≠ 0 ∧ l.length < boxHashSize) :=
    fun hpos hs => kmallocServes_small hs hpos.ne'
  have hcase := hI.kmallocCase h0 hst hH hav size
  constructor
  · rintro ⟨hserved, -⟩ hpos hs hm
    obtain ⟨p, h', hrun, hp⟩ := hserved hpos hs hm
    have hserves : KmallocServes σ.heap l m size := by
      cases hcase with
      | object hserves => exact hserves
      | null _ _ _ hrun' => exact absurd (Prod.mk.inj (Option.some.inj (hrun.symm.trans hrun'))).1 hp
      | tooSmall _ _ _ _ g hrun' =>
        exact absurd (Prod.mk.inj (Option.some.inj (hrun.symm.trans hrun'))).1 hp
      | hangs _ hrun' => exact absurd (hrun.symm.trans hrun') (by simp)
    exact ((hsmall hpos hs).1 hserves).imp id fun h => ⟨h.1, h.2.2⟩
  · intro hcond
    have hserve : 0 < size → size ≤ pageSize → m ≠ 0 → KmallocServes σ.heap l m size :=
      fun hpos hs hm => (hsmall hpos hs).2 ((hcond hpos hs hm).imp id fun h => ⟨h.1, hm, h.2⟩)
    cases hcase with
    | object _ p g hrun hp =>
      refine ⟨fun _ _ _ => ⟨p, g, hrun, hp⟩, fun h' hrun' => ?_⟩
      exact absurd (Prod.mk.inj (Option.some.inj (hrun.symm.trans hrun'))).1 hp
    | null hno _ _ hrun =>
      refine ⟨fun hpos hs hm => absurd (hserve hpos hs hm) hno, fun h' hrun' => ?_⟩
      obtain ⟨-, rfl⟩ := Prod.mk.inj (Option.some.inj (hrun.symm.trans hrun'))
      exact ⟨hI.chain, rfl⟩
    | tooSmall hsize hm hno =>
      exact absurd (hserve (Nat.pos_of_ne_zero hsize.1) hsize.2.1 hm) hno
    | hangs hno hrun =>
      refine ⟨fun hpos hs hm => absurd (hserve hpos hs hm).returns hno, fun h' hrun' => ?_⟩
      exact absurd (hrun.symm.trans hrun') (by simp)

/-- A request for 64 bytes is served, the very first one. -/
theorem kmalloc_serves_booted :
    SmallServed (bootedHeap eightMiBMap eightMiBStart).heap [] 2048 64 := by
  obtain ⟨l, m, hl, hav, hserves⟩ :=
    kmalloc_serves_iff zero_notMem_eightMiB (.init bootState_eightMiB.heapBoot)
  obtain rfl : l = [] := hl.unique rfl
  have hinv := (bootState_eightMiB.pmmInv rfl).inv
  have hm := (hinv.available_iff.1 hav).symm.trans (hinv.available_iff.1 bootState_eightMiB.available)
  rw [card_frames_eightMiB] at hm
  rw [← hm]
  exact (hserves 64).2 fun _ _ _ => .inr ⟨by decide, by decide⟩

/-- **`kmalloc` fails with pages left**: a request for 4000 bytes returns `NULL`, and leaves one box
more and one page less. -/
theorem kmalloc_unserved : ∃ σ : HeapSystem buddyPages,
    HeapReached (BuddyOwned (BootState.frames eightMiBMap eightMiBStart)) AdjacentFree σ ∧
    ∃ l b h', Chain σ.heap.next σ.heap.boxes l ∧ Available σ.heap.pageState 0 2047 ∧
      kmalloc 4000 σ.heap = some (0, h') ∧ Chain h'.next h'.boxes (b :: l) ∧
      Available h'.pageState 0 2046 := by
  have hcard := card_frames_eightMiB
  obtain ⟨σ, b, hB⟩ := bootState_eightMiB.boxed zero_notMem_eightMiB (by rw [hcard]; decide)
  rw [hcard] at hB
  obtain ⟨h', b', hrun, hB'⟩ := hB.grow zero_notMem_eightMiB (by decide) (show 1 < boxHashSize by decide)
  exact ⟨σ, hB.reached, [b], b', h', hB.inv.chain, hB.available, hrun, hB'.inv.chain, hB'.available⟩

end Small

end Flopperating
