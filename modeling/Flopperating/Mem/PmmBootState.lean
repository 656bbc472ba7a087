/-
# The state boot leaves

`pmm_create_free_list` calls `pmm_add_free` on the pages of `bootAdds`, in
order, and does nothing else (`pmmCreateFreeList_eq`).  So `free_list[0]` is
what those pushes build, the other lists are as before, and a record is written
exactly when its page is added.

When no page is added twice and the records that are not written are marked
used, that is a state of the buddy system with every added page a free block of
order `0` (`BootState.inv`).
-/

import Flopperating.Mem.PmmBoot
import Flopperating.Mem.PmmSpec

namespace Flopperating

open LinkedList DyadicBlocks

/-- The calls of `pmm_add_free` for the pages `l`. -/
def addPages (s : BuddyAllocator) (l : List ℕ) : BuddyAllocator :=
  l.foldl (fun t a => pmmAddFree (recordIndex s a) a t) s

@[simp] theorem addPages_nil (s : BuddyAllocator) : addPages s [] = s := rfl

theorem addPages_snoc (s : BuddyAllocator) (l : List ℕ) (a : ℕ) :
    addPages s (l ++ [a]) = pmmAddFree (recordIndex s a) a (addPages s l) := by
  simp [addPages]

theorem sameLayout_addPages (s : BuddyAllocator) (l : List ℕ) : SameLayout (addPages s l) s := by
  induction l using List.reverseRecOn with
  | nil => exact SameLayout.refl s
  | append_singleton l a ih => rw [addPages_snoc]; exact (sameLayout_pushPage ..).trans ih

@[simp] theorem addPages_lock (s : BuddyAllocator) (l : List ℕ) :
    (addPages s l).lock = s.lock := by
  induction l using List.reverseRecOn with
  | nil => rfl
  | append_singleton l a ih => rw [addPages_snoc]; exact ih

/-- `pmm_add_free` only touches `free_list[0]`. -/
theorem addPages_freeList_of_ne (s : BuddyAllocator) (l : List ℕ) {k : ℕ} (hk : k ≠ 0) :
    (addPages s l).freeList k = s.freeList k := by
  induction l using List.reverseRecOn with
  | nil => rfl
  | append_singleton l a ih =>
    rw [addPages_snoc, pmmAddFree, pushPage_freeList, Function.update_of_ne hk, ih]

/-- `free_list[0]` is built by pushing the records. -/
theorem addPages_list (s : BuddyAllocator) (l : List ℕ) :
    ((addPages s l).freeList 0, (addPages s l).next) =
      pushes (l.map (recordIndex s)) (s.freeList 0, s.next) := by
  induction l using List.reverseRecOn with
  | nil => rfl
  | append_singleton l a ih =>
    rw [addPages_snoc, List.map_append, List.map_singleton, pushes_snoc, ← ih, pmmAddFree,
      pushPage_freeList, pushPage_next, Function.update_self, LinkedList.push]

/-- Records of other pages keep what they held. -/
theorem addPages_pageInfo_of_ne {s : BuddyAllocator} {l : List ℕ} {i : ℕ}
    (hi : ∀ a ∈ l, recordIndex s a ≠ i) : (addPages s l).pageInfo i = s.pageInfo i := by
  induction l using List.reverseRecOn with
  | nil => rfl
  | append_singleton l a ih =>
    rw [addPages_snoc, pmmAddFree,
      pushPage_pageInfo_of_ne _ _ _ (hi a (by simp)).symm, ih fun b hb => hi b (by simp [hb])]

/-- The record of an added page, when no other added page shares it. -/
theorem addPages_pageInfo {s : BuddyAllocator} {l : List ℕ}
    (hinj : ∀ a ∈ l, ∀ b ∈ l, recordIndex s a = recordIndex s b → a = b) {a : ℕ} (ha : a ∈ l) :
    ∃ next, (addPages s l).pageInfo (recordIndex s a) = ⟨a, 0, 1, next⟩ := by
  induction l using List.reverseRecOn with
  | nil => exact absurd ha List.not_mem_nil
  | append_singleton l b ih =>
    rw [addPages_snoc, pmmAddFree]
    by_cases hb : recordIndex s a = recordIndex s b
    · obtain rfl := hinj a ha b (by simp) hb
      exact ⟨_, pushPage_pageInfo_self ..⟩
    · rw [pushPage_pageInfo_of_ne _ _ _ hb]
      refine ih (fun c hc d hd => hinj c (by simp [hc]) d (by simp [hd])) ?_
      rcases List.mem_append.1 ha with ha | ha
      · exact ha
      · exact absurd (by rw [List.mem_singleton.1 ha]) hb

/-! ### The walk over the map -/

theorem SameLayout.pageInfoSlot {s t : BuddyAllocator} (h : SameLayout t s) :
    pageInfoSlot t = pageInfoSlot s := by
  simp only [Flopperating.pageInfoSlot, h.pageInfoAddr, h.totalPages]

theorem SameLayout.recordIndex {s t : BuddyAllocator} (h : SameLayout t s) (a : ℕ) :
    recordIndex t a = recordIndex s a := by
  simp only [Flopperating.recordIndex, h.memoryBase]

theorem SameLayout.managed {s t : BuddyAllocator} (h : SameLayout t s) (a : ℕ) :
    Managed t a ↔ Managed s a := by
  simp only [Managed, pmmSkipAddr, h.pageInfoSlot, h.memoryBase, h.memoryEnd, h.totalPages]

/-- One round of `pmm_process_region`: a managed page is added, any other is
skipped. -/
theorem pmmProcessPage_fst (s : BuddyAllocator) (n a : ℕ) :
    (pmmProcessPage (pageInfoSlot s).1 (pageInfoSlot s).2 (s, n) a).1 =
      if Managed s a then pmmAddFree (recordIndex s a) a s else s := by
  by_cases hm : Managed s a
  · obtain ⟨h₁, h₂, h₃⟩ := hm
    rw [if_pos ⟨h₁, h₂, h₃⟩]
    simp only [pmmProcessPage, if_neg h₁, if_neg h₂]
    rw [if_neg (by omega)]
    rfl
  · rw [if_neg hm]
    unfold pmmProcessPage
    simp only
    split_ifs with h₁ h₂ h₃
    · rfl
    · rfl
    · rfl
    · exact absurd ⟨h₁, h₂, not_le.1 h₃⟩ hm

/-- `pmm_process_region` adds the managed pages of the region. -/
theorem pmmProcessRegion_fst (s : BuddyAllocator) (l : List ℕ) (e : MmapEntry) :
    (pmmProcessRegion e (pageInfoSlot s).1 (pageInfoSlot s).2 (addPages s l)).1 =
      addPages s (l ++ regionAdds s e) := by
  have hgen : ∀ (r l : List ℕ) (n : ℕ),
      (r.foldl (pmmProcessPage (pageInfoSlot s).1 (pageInfoSlot s).2) (addPages s l, n)).1 =
        addPages s (l ++ r.filter (Managed s)) := by
    intro r
    induction r with
    | nil => intro l n; simp
    | cons a r ih =>
      intro l n
      have hlay := sameLayout_addPages s l
      have hstep := pmmProcessPage_fst (addPages s l) n a
      rw [hlay.pageInfoSlot, hlay.recordIndex] at hstep
      rw [List.foldl_cons, ← Prod.mk.eta (p := pmmProcessPage _ _ (addPages s l, n) a), hstep]
      by_cases hm : Managed s a
      · rw [if_pos ((hlay.managed a).2 hm), ← addPages_snoc, ih, List.filter_cons_of_pos (by simpa)]
        simp
      · rw [if_neg (fun h => hm ((hlay.managed a).1 h)), ih, List.filter_cons_of_neg (by simpa)]
  exact hgen _ l 0

/-- **What boot does to the allocator**: it adds the pages of `bootAdds`. -/
theorem pmmCreateFreeList_eq (mb : MultibootInfo) (s : BuddyAllocator) :
    pmmCreateFreeList mb s = addPages s (bootAdds mb s) := by
  unfold pmmCreateFreeList bootAdds
  by_cases hm : pmmHasMmap mb
  · rw [if_neg (not_not.2 hm), if_pos hm]
    simp only
    have hgen : ∀ (es : List MmapEntry) (l : List ℕ),
        es.foldl (fun s' e => if pmmRegionUsable e
          then (pmmProcessRegion e (pageInfoSlot s).1 (pageInfoSlot s).2 s').1 else s')
          (addPages s l) =
        addPages s (l ++ (es.filter (pmmRegionUsable ·)).flatMap (regionAdds s)) := by
      intro es
      induction es with
      | nil => intro l; simp
      | cons e es ih =>
        intro l
        rw [List.foldl_cons]
        by_cases hu : pmmRegionUsable e
        · rw [if_pos hu, pmmProcessRegion_fst, ih, List.filter_cons_of_pos (by simpa)]
          simp
        · rw [if_neg hu, ih, List.filter_cons_of_neg (by simpa)]
    exact hgen mb.entries []
  · rw [if_pos hm, if_neg hm, addPages_nil]

/-! ### The pages that are added -/

theorem mem_regionPages {e : MmapEntry} {a : ℕ} :
    a ∈ regionPages e ↔ pageSize ∣ a ∧ pmmRegionStart e ≤ a ∧ a < pmmRegionEnd e := by
  obtain ⟨m, hm⟩ := pageSize_dvd_pmmRegionStart e
  obtain ⟨n, hn⟩ := pageSize_dvd_pmmRegionEnd e
  simp only [regionPages, List.mem_map, List.mem_range, hm, hn, pageSize]
  constructor
  · rintro ⟨i, hi, rfl⟩
    exact ⟨⟨m + i, by omega⟩, by omega, by omega⟩
  · rintro ⟨⟨q, rfl⟩, h₁, h₂⟩
    exact ⟨q - m, by omega, by omega⟩

theorem nodup_regionPages (e : MmapEntry) : (regionPages e).Nodup := by
  refine List.Nodup.map (fun i j h => ?_) List.nodup_range
  simp only [pageSize] at h
  omega

/-- **The pages boot adds**: the managed pages of the usable regions. -/
theorem mem_bootAdds {mb : MultibootInfo} {s : BuddyAllocator} {a : ℕ} :
    a ∈ bootAdds mb s ↔ pmmHasMmap mb ∧ Managed s a ∧ pageSize ∣ a ∧
      ∃ e ∈ mb.entries, pmmRegionUsable e ∧ pmmRegionStart e ≤ a ∧ a < pmmRegionEnd e := by
  unfold bootAdds
  by_cases hm : pmmHasMmap mb
  · rw [if_pos hm, List.mem_flatMap]
    simp only [List.mem_filter, regionAdds, mem_regionPages, decide_eq_true_eq]
    constructor
    · rintro ⟨e, ⟨he, hu⟩, ⟨hd, h₁, h₂⟩, hma⟩
      exact ⟨hm, hma, hd, e, he, hu, h₁, h₂⟩
    · rintro ⟨-, hma, hd, e, he, hu, h₁, h₂⟩
      exact ⟨e, ⟨he, hu⟩, ⟨hd, h₁, h₂⟩, hma⟩
  · rw [if_neg hm]
    simp [hm]

/-- Every added page lies below the last page of the address space. -/
theorem lt_of_mem_bootAdds {mb : MultibootInfo} {s : BuddyAllocator} {a : ℕ}
    (h : a ∈ bootAdds mb s) : a + pageSize ≤ 2 ^ 32 - pageSize := by
  obtain ⟨-, -, ⟨q, rfl⟩, e, -, -, -, hlt⟩ := mem_bootAdds.1 h
  obtain ⟨n, hn⟩ := pageSize_dvd_pmmRegionEnd e
  have := pmmRegionEnd_le e
  simp only [pageSize] at *
  omega

/-- The record of an added page. -/
theorem recordIndex_eq {mb : MultibootInfo} {s : BuddyAllocator} {a : ℕ}
    (hbase : pageSize ∣ s.memoryBase) (h : a ∈ bootAdds mb s) :
    s.baseFrame ≤ a / pageSize ∧ recordIndex s a = a / pageSize - s.baseFrame ∧
      physToPageIndex s a = some (recordIndex s a) := by
  have hlt := lt_of_mem_bootAdds h
  obtain ⟨-, ⟨-, hskip, hidx⟩, ⟨q, rfl⟩, -⟩ := mem_bootAdds.1 h
  obtain ⟨b, hb⟩ := hbase
  have hbf : s.baseFrame = b := by
    rw [BuddyAllocator.baseFrame, hb, Nat.mul_div_cancel_left _ (by decide)]
  simp only [pmmSkipAddr, not_or, not_lt, ge_iff_le, not_le] at hskip
  simp only [pageSize] at *
  have hq : 4096 * q / 4096 = q := by omega
  have hrec : recordIndex s (4096 * q) = q - b := by
    simp only [recordIndex, u32, hb, pageSize]
    omega
  have hidx' : ¬ (q - b ≥ s.totalPages) := by
    rw [← hrec]; exact not_le.2 hidx
  refine ⟨by omega, by rw [hrec, hq, hbf], ?_⟩
  have hmod : u32 (4096 * q + 2 ^ 32 - s.memoryBase) / pageSize = q - b := by
    simp only [u32, hb, pageSize]
    omega
  rw [physToPageIndex, if_neg (by omega)]
  simp only [pageIndex, hmod, hrec, if_neg hidx']

theorem recordIndex_inj {mb : MultibootInfo} {s : BuddyAllocator} {a b : ℕ}
    (hbase : pageSize ∣ s.memoryBase) (ha : a ∈ bootAdds mb s) (hb : b ∈ bootAdds mb s)
    (h : recordIndex s a = recordIndex s b) : a = b := by
  obtain ⟨ha₁, ha₂, -⟩ := recordIndex_eq hbase ha
  obtain ⟨hb₁, hb₂, -⟩ := recordIndex_eq hbase hb
  obtain ⟨-, -, ⟨p, rfl⟩, -⟩ := mem_bootAdds.1 ha
  obtain ⟨-, -, ⟨q, rfl⟩, -⟩ := mem_bootAdds.1 hb
  simp only [pageSize] at *
  omega

/-- Page frame `p` as a block of order `0`. -/
def frameBlock (p : ℕ) : Block := ⟨p, 0, one_dvd p⟩

/-- The state `pmm_create_free_list` starts from: empty lists, a page-aligned
`memory_base`, usable regions that are disjoint as the walk sees them, and
`is_free = 0` in every record that will not be added. -/
structure BootState (mb : MultibootInfo) (s : BuddyAllocator) : Prop where
  lists : ∀ k, s.freeList k = none
  unlocked : s.lock = false
  aligned : pageSize ∣ s.memoryBase
  regions : (mb.entries.filter (pmmRegionUsable ·)).Pairwise fun e f =>
    ∀ a, ¬ ((pmmRegionStart e ≤ a ∧ a < pmmRegionEnd e) ∧
      (pmmRegionStart f ≤ a ∧ a < pmmRegionEnd f))
  unmanaged : ∀ i < s.totalPages, (∀ a ∈ bootAdds mb s, recordIndex s a ≠ i) →
    (s.pageInfo i).isFree = 0

namespace BootState

variable {mb : MultibootInfo} {s : BuddyAllocator}

/-- Disjoint regions add no page twice. -/
theorem nodup_bootAdds (h : BootState mb s) : (bootAdds mb s).Nodup := by
  unfold bootAdds
  by_cases hm : pmmHasMmap mb
  · rw [if_pos hm, List.nodup_flatMap]
    refine ⟨fun e _ => (nodup_regionPages e).filter _, h.regions.imp fun {e f} hef => ?_⟩
    rw [Function.onFun, List.disjoint_left]
    intro a hae haf
    simp only [regionAdds, List.mem_filter, mem_regionPages] at hae haf
    exact hef a ⟨hae.1.2, haf.1.2⟩
  · rw [if_neg hm]; exact List.nodup_nil

/-- The frames that are added. -/
def frames (mb : MultibootInfo) (s : BuddyAllocator) : Finset ℕ :=
  ((bootAdds mb s).map (· / pageSize)).toFinset

theorem mem_frames {p : ℕ} : p ∈ frames mb s ↔ p * pageSize ∈ bootAdds mb s := by
  simp only [frames, List.mem_toFinset, List.mem_map]
  constructor
  · rintro ⟨a, ha, rfl⟩
    rwa [Nat.div_mul_cancel (mem_bootAdds.1 ha).2.2.1]
  · exact fun h => ⟨_, h, Nat.mul_div_cancel _ (by decide)⟩

theorem card_frames (h : BootState mb s) : (frames mb s).card = (bootAdds mb s).length := by
  rw [frames, List.toFinset_card_of_nodup, List.length_map]
  refine h.nodup_bootAdds.map_on fun a ha b hb hab => ?_
  rw [← Nat.div_mul_cancel (mem_bootAdds.1 ha).2.2.1, hab,
    Nat.div_mul_cancel (mem_bootAdds.1 hb).2.2.1]

/-- **The state boot leaves** satisfies the invariant, with every added frame
free on its own. -/
theorem inv (h : BootState mb s) :
    BuddyInv (frames mb s) (pmmCreateFreeList mb s) ((frames mb s).image frameBlock) ∅
      ((frames mb s).image frameBlock ∪ ∅) := by
  rw [pmmCreateFreeList_eq, Finset.union_empty]
  set t := addPages s (bootAdds mb s) with ht
  have hlay : SameLayout t s := sameLayout_addPages s _
  have hinj : ∀ a ∈ bootAdds mb s, ∀ b ∈ bootAdds mb s, recordIndex s a = recordIndex s b →
      a = b := fun a ha b hb => recordIndex_inj h.aligned ha hb
  have hpages : ∀ p ∈ frames mb s, s.baseFrame ≤ p ∧
      recordIndex s (p * pageSize) = p - s.baseFrame ∧
      physToPageIndex s (p * pageSize) = some (p - s.baseFrame) := fun p hp => by
    obtain ⟨h₁, h₂, h₃⟩ := recordIndex_eq h.aligned (mem_frames.1 hp)
    rw [Nat.mul_div_cancel _ (by decide)] at h₁ h₂
    exact ⟨h₁, h₂, h₂ ▸ h₃⟩
  have hrec : ∀ p ∈ frames mb s, ∃ next, t.frame p = ⟨p * pageSize, 0, 1, next⟩ := fun p hp => by
    obtain ⟨next, hn⟩ := addPages_pageInfo hinj (mem_frames.1 hp)
    rw [(hpages p hp).2.1] at hn
    exact ⟨next, by rw [BuddyAllocator.frame, hlay.baseFrame]; exact hn⟩
  have hone : ∀ b ∈ (frames mb s).image frameBlock, ∃ p ∈ frames mb s, b = frameBlock p :=
    fun b hb => by
      obtain ⟨p, hp, rfl⟩ := Finset.mem_image.1 hb
      exact ⟨p, hp, rfl⟩
  have hmem : ∀ p q : ℕ, p ∈ (frameBlock q).pages ↔ p = q := fun p q => by
    simp [frameBlock]; omega
  have htile : Tiling (frames mb s) ((frames mb s).image frameBlock) := by
    refine ⟨fun b hb p hp => ?_, fun b hb c hc hne => ?_⟩
    · obtain ⟨q, hq, rfl⟩ := hone b hb
      rwa [(hmem p q).1 hp]
    · obtain ⟨p, hp, rfl⟩ := hone b hb
      obtain ⟨q, hq, rfl⟩ := hone c hc
      rw [Finset.disjoint_left]
      intro r hr hr'
      exact hne (by rw [← (hmem r p).1 hr, (hmem r q).1 hr'])
  refine ⟨hlay.memoryBase ▸ h.aligned, fun p hp => ⟨?_, ?_⟩, fun p hp => ?_, fun k => ?_,
    fun b hb => ?_, fun b hb => absurd hb (Finset.notMem_empty b), by simp, htile, fun i hi hf => ?_⟩
  · have := lt_of_mem_bootAdds (mem_frames.1 hp)
    simp only [pageSize] at this
    omega
  · rw [hlay.physToPageIndex, hlay.baseFrame]
    exact (hpages p hp).2.2
  · obtain ⟨next, hn⟩ := hrec p hp
    rw [hn]
  · by_cases hk : k = 0
    · -- the list of order `0` holds every added page
      subst hk
      have hl := addPages_list s (bootAdds mb s)
      have hnd : ((bootAdds mb s).map (recordIndex s)).Nodup :=
        h.nodup_bootAdds.map_on hinj
      rw [h.lists 0] at hl
      refine ⟨((bootAdds mb s).map (recordIndex s)).reverse, ?_, fun i => ?_⟩
      · have hc := (chain_pushes_iff s.next _ _).2 ⟨rfl, hnd⟩
        rwa [← hl] at hc
      · rw [List.mem_reverse, List.mem_map, hlay.baseFrame]
        constructor
        · rintro ⟨a, ha, rfl⟩
          obtain ⟨h₁, h₂, -⟩ := recordIndex_eq h.aligned ha
          refine ⟨frameBlock (a / pageSize), Finset.mem_image_of_mem _ (mem_frames.2 ?_), rfl, ?_⟩
          · rwa [Nat.div_mul_cancel (mem_bootAdds.1 ha).2.2.1]
          · have hb : (frameBlock (a / pageSize)).base = a / pageSize := rfl
            omega
        · rintro ⟨b, hb, -, hbi⟩
          obtain ⟨p, hp, rfl⟩ := hone b hb
          refine ⟨p * pageSize, mem_frames.1 hp, ?_⟩
          rw [(hpages p hp).2.1]
          have hb' : (frameBlock p).base = p := rfl
          omega
    · refine ⟨[], ?_, fun i => ?_⟩
      · exact (addPages_freeList_of_ne s _ hk).trans (h.lists k)
      · refine ⟨fun hi => absurd hi List.not_mem_nil, ?_⟩
        rintro ⟨b, hb, hbk, -⟩
        obtain ⟨p, hp, rfl⟩ := hone b hb
        exact absurd hbk.symm hk
  · obtain ⟨p, hp, rfl⟩ := hone b hb
    obtain ⟨next, hn⟩ := hrec p hp
    rw [show (frameBlock p).base = p from rfl, hn]
    exact ⟨one_ne_zero, rfl⟩
  · -- only added pages are marked
    by_cases hadd : ∀ a ∈ bootAdds mb s, recordIndex s a ≠ i
    · rw [ht, addPages_pageInfo_of_ne hadd] at hf
      exact absurd (h.unmanaged i (hlay.totalPages ▸ hi) hadd) hf
    · simp only [not_forall, not_not] at hadd
      obtain ⟨a, ha, rfl⟩ := hadd
      obtain ⟨h₁, h₂, -⟩ := recordIndex_eq h.aligned ha
      have hp : a / pageSize ∈ frames mb s := mem_frames.2 (by
        rwa [Nat.div_mul_cancel (mem_bootAdds.1 ha).2.2.1])
      have hb := Finset.mem_image_of_mem frameBlock hp
      obtain ⟨next, hn⟩ := addPages_pageInfo hinj ha
      refine ⟨frameBlock (a / pageSize), ?_, ?_, htile.subset _ hb, htile.submerged_self hb⟩
      · have hb' : (frameBlock (a / pageSize)).base = a / pageSize := rfl
        rw [hlay.baseFrame]
        omega
      · rw [ht, hn]; rfl

end BootState

end Flopperating
