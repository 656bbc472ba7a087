/-
# Which memory boot hands to the allocator

`pmm_count_usable_pages` and `pmm_buddy_init` on an arbitrary memory map and an
arbitrary earlier content of the memory chosen for `page_info`.  Three things a
page frame allocator needs of its boot code are examined here, each with the
exact condition on the map under which this code provides it.

* Every linked page is available memory, and no page is linked twice
  (`links_available_iff`).  The 64-bit address and length of an entry are cut to
  32 bits before the region is walked, so an entry at or above 4 GiB is walked
  at an address it does not have.
* No linked page is in use (`links_unused_iff`).  `pmm_reserved_top` is only
  used to place `page_info`; the walk skips the `page_info` slot and what lies
  outside `[memory_base, memory_end)`, and nothing else.
* The records that are not linked are marked used (`marks_clear_iff`).  The
  array is never cleared.

The conditions are about `bootAdds`, the managed pages of the usable regions.
Adding a page a second time cuts off what the list held below it, so `Stays` is
part of two of them: on a map whose regions do not overlap, every page stays.
-/

import Flopperating.Mem.PmmRuns

namespace Flopperating

open LinkedList

/-- The allocator as `pmm_buddy_init` sets it up, before the free list. -/
def bootLayout (kernelEnd : ℕ) (prior : ℕ → Page) (mb : MultibootInfo) : BuddyAllocator :=
  let (usablePages, memoryBase, _) := pmmCountUsablePages mb
  let totalPages := u32 usablePages
  let pageInfoBytes := u32 (totalPages * sizeofPage)
  let reservedTop := pmmReservedTop kernelEnd mb
  let placement := pmmFindPageInfoPlacement mb reservedTop pageInfoBytes
  let pageInfoAddr := if placement = 0 then reservedTop else placement
  let pageInfoPages := u32 (pageInfoBytes + pageSize - 1) / pageSize
  { buddyZero with
    pageInfo := prior
    pageInfoAddr := pageInfoAddr
    totalPages := totalPages
    memoryBase := memoryBase
    memoryStart := u32 (pageInfoAddr + u32 (pageInfoPages * pageSize))
    memoryEnd := u32 (memoryBase + u32 (totalPages * pageSize)) }

/-- The allocator after `pmm_count_usable_pages` and `pmm_buddy_init`. -/
def bootBuddy (kernelEnd : ℕ) (prior : ℕ → Page) (mb : MultibootInfo) : BuddyAllocator :=
  pmmBuddyInit kernelEnd prior (pmmCountUsablePages mb).1 (pmmCountUsablePages mb).2.1 mb buddyZero

/-- The page at `a` is not cut off by a page that is added again later. -/
def Stays (l : List ℕ) (a : ℕ) : Prop := ∃ t, t <:+ l ∧ t.Nodup ∧ a ∈ t

theorem Stays.mem {l : List ℕ} {a : ℕ} (h : Stays l a) : a ∈ l :=
  let ⟨_, ht, _, ha⟩ := h
  ht.subset ha

theorem stays_of_nodup {l : List ℕ} (h : l.Nodup) {a : ℕ} (ha : a ∈ l) : Stays l a :=
  ⟨l, List.suffix_rfl, h, ha⟩

section Boot

variable (kernelEnd : ℕ) (prior : ℕ → Page) (mb : MultibootInfo)

theorem bootBuddy_eq : bootBuddy kernelEnd prior mb =
    addPages (bootLayout kernelEnd prior mb) (bootAdds mb (bootLayout kernelEnd prior mb)) := by
  rw [← pmmCreateFreeList_eq]
  rfl

/-- `memory_base` is the start of a region, or `0`. -/
theorem pageSize_dvd_memoryBase : pageSize ∣ (bootLayout kernelEnd prior mb).memoryBase := by
  show pageSize ∣ (pmmCountUsablePages mb).2.1
  unfold pmmCountUsablePages
  by_cases hm : pmmHasMmap mb
  swap
  · rw [if_pos hm]; exact dvd_zero pageSize
  · rw [if_neg (not_not.2 hm)]
    have hgen : ∀ (es : List MmapEntry) (acc : ℕ × ℕ), pageSize ∣ acc.2 →
        pageSize ∣ (es.foldl (fun (acc : ℕ × ℕ) e =>
          if pmmRegionUsable e ∧ pmmRegionEnd e > pmmRegionStart e then
            (u64 (acc.1 + (pmmRegionEnd e - pmmRegionStart e)),
              if acc.2 = 0 then pmmRegionStart e else acc.2)
          else acc) acc).2 := by
      intro es
      induction es with
      | nil => exact fun acc h => h
      | cons e es ih =>
        intro acc h
        rw [List.foldl_cons]
        refine ih _ ?_
        split_ifs
        · exact pageSize_dvd_pmmRegionStart e
        · exact h
        · exact h
    exact hgen mb.entries (0, 0) (dvd_zero pageSize)

/-- The list of order `0` after boot, in terms of the pages added. -/
theorem bootBuddy_list :
    (bootBuddy kernelEnd prior mb).freeList 0 =
        (pushes ((bootAdds mb (bootLayout kernelEnd prior mb)).map
          (recordIndex (bootLayout kernelEnd prior mb)))
          (none, (bootLayout kernelEnd prior mb).next)).1 ∧
      (bootBuddy kernelEnd prior mb).next =
        (pushes ((bootAdds mb (bootLayout kernelEnd prior mb)).map
          (recordIndex (bootLayout kernelEnd prior mb)))
          (none, (bootLayout kernelEnd prior mb).next)).2 := by
  have h := addPages_list (bootLayout kernelEnd prior mb)
    (bootAdds mb (bootLayout kernelEnd prior mb))
  rw [← bootBuddy_eq] at h
  exact ⟨congrArg Prod.fst h, congrArg Prod.snd h⟩

variable {kernelEnd prior mb}

/-- **What is linked after boot**: the pages that stay. -/
theorem onFreeList_bootBuddy {k i : ℕ} : OnFreeList (bootBuddy kernelEnd prior mb) k i ↔
    k = 0 ∧ ∃ a, Stays (bootAdds mb (bootLayout kernelEnd prior mb)) a ∧
      recordIndex (bootLayout kernelEnd prior mb) a = i := by
  set s := bootLayout kernelEnd prior mb with hs
  by_cases hk : k = 0
  · subst hk
    obtain ⟨h₁, h₂⟩ := bootBuddy_list kernelEnd prior mb
    rw [← hs] at h₁ h₂
    rw [OnFreeList, h₁, h₂, linked_pushes_iff]
    simp only [true_and]
    have hinj : ∀ a ∈ bootAdds mb s, ∀ b ∈ bootAdds mb s, recordIndex s a = recordIndex s b →
        a = b := fun a ha b hb =>
      recordIndex_inj (pageSize_dvd_memoryBase kernelEnd prior mb) ha hb
    constructor
    · rintro ⟨t, ht, hnd, hi⟩
      -- a stretch of records is the stretch of their pages
      obtain ⟨u, hu⟩ := ht
      obtain ⟨l₁, l₂, hl, rfl, rfl⟩ := List.map_eq_append_iff.1 hu.symm
      obtain ⟨a, ha, rfl⟩ := List.mem_map.1 hi
      exact ⟨a, ⟨l₂, ⟨l₁, hl.symm⟩, hnd.of_map _, ha⟩, rfl⟩
    · rintro ⟨a, ⟨t, ht, hnd, ha⟩, rfl⟩
      refine ⟨t.map (recordIndex s), ht.map _, ?_, List.mem_map_of_mem ha⟩
      exact hnd.map_on fun b hb c hc => hinj b (ht.subset hb) c (ht.subset hc)
  · have hnone : (bootBuddy kernelEnd prior mb).freeList k = none := by
      rw [bootBuddy_eq, addPages_freeList_of_ne _ _ hk]
      rfl
    rw [OnFreeList, hnone]
    exact ⟨fun h => absurd h not_linked_none, fun h => absurd h.1 hk⟩

/-- The record of an added page after boot. -/
theorem pageInfo_bootBuddy {a : ℕ} (ha : a ∈ bootAdds mb (bootLayout kernelEnd prior mb)) :
    ∃ next, (bootBuddy kernelEnd prior mb).pageInfo
      (recordIndex (bootLayout kernelEnd prior mb) a) = ⟨a, 0, 1, next⟩ := by
  rw [bootBuddy_eq]
  exact addPages_pageInfo (fun b hb c hc =>
    recordIndex_inj (pageSize_dvd_memoryBase kernelEnd prior mb) hb hc) ha

end Boot

/-! ### Available memory -/

/-- The page at `a` lies wholly inside the entry, as a 64-bit interval. -/
def InsideEntry (f : MmapEntry) (a : ℕ) : Prop := f.addr ≤ a ∧ a + pageSize ≤ f.addr + f.len

instance (f : MmapEntry) (a : ℕ) : Decidable (InsideEntry f a) := inferInstanceAs (Decidable (_ ∧ _))

/-- Every page on `free_list[0]` is available memory, the list ends, and no page
is on it twice. -/
structure LinksAvailable (mb : MultibootInfo) (s : BuddyAllocator) : Prop where
  inside : ∀ i, OnFreeList s 0 i → ∃ f ∈ mb.entries, f.type = multibootMemoryAvailable ∧
    InsideEntry f (s.pageInfo i).address
  acyclic : ∃ l, Chain s.next (s.freeList 0) l ∧ (l.map fun i => (s.pageInfo i).address).Nodup

/-- What the walk makes of the map is true of it: the managed pages of the 32-bit
windows of the usable entries are available memory, and no two of these windows
share one. -/
structure WindowsHonest (mb : MultibootInfo) (s : BuddyAllocator) : Prop where
  inside : ∀ e ∈ mb.entries, pmmRegionUsable e → ∀ a, pageSize ∣ a → pmmRegionStart e ≤ a →
    a < pmmRegionEnd e → Managed s a →
      ∃ f ∈ mb.entries, f.type = multibootMemoryAvailable ∧ InsideEntry f a
  apart : (mb.entries.filter (pmmRegionUsable ·)).Pairwise fun e f => ∀ a, pageSize ∣ a →
    Managed s a → ¬ ((pmmRegionStart e ≤ a ∧ a < pmmRegionEnd e) ∧
      (pmmRegionStart f ≤ a ∧ a < pmmRegionEnd f))

section Available

variable {kernelEnd : ℕ} {prior : ℕ → Page} {mb : MultibootInfo} {s : BuddyAllocator}

/-- No page is added twice exactly when no two windows share a managed page. -/
theorem nodup_bootAdds_iff (hm : pmmHasMmap mb) : (bootAdds mb s).Nodup ↔
    (mb.entries.filter (pmmRegionUsable ·)).Pairwise fun e f => ∀ a, pageSize ∣ a →
      Managed s a → ¬ ((pmmRegionStart e ≤ a ∧ a < pmmRegionEnd e) ∧
        (pmmRegionStart f ≤ a ∧ a < pmmRegionEnd f)) := by
  rw [bootAdds, if_pos hm, List.nodup_flatMap]
  have hiff : ∀ e f : MmapEntry, (Function.onFun List.Disjoint (regionAdds s) e f) ↔
      ∀ a, pageSize ∣ a → Managed s a → ¬ ((pmmRegionStart e ≤ a ∧ a < pmmRegionEnd e) ∧
        (pmmRegionStart f ≤ a ∧ a < pmmRegionEnd f)) := by
    intro e f
    simp only [Function.onFun, List.disjoint_left, regionAdds, List.mem_filter, mem_regionPages,
      decide_eq_true_eq]
    constructor
    · rintro h a hd hma ⟨he, hf⟩
      exact h ⟨⟨hd, he⟩, hma⟩ ⟨⟨hd, hf⟩, hma⟩
    · rintro h a ⟨⟨hd, he⟩, hma⟩ ⟨⟨-, hf⟩, -⟩
      exact h a hd hma ⟨he, hf⟩
  rw [List.Pairwise.iff fun {e f} => hiff e f]
  exact and_iff_right fun e _ => (nodup_regionPages e).filter _

/-- **When boot links available memory only**, each page once: exactly when the
32-bit windows of the usable entries are honest about the managed pages. -/
theorem links_available_iff (kernelEnd : ℕ) (prior : ℕ → Page) {mb : MultibootInfo}
    (hm : pmmHasMmap mb) :
    LinksAvailable mb (bootBuddy kernelEnd prior mb) ↔
      WindowsHonest mb (bootLayout kernelEnd prior mb) := by
  set s := bootLayout kernelEnd prior mb with hs
  obtain ⟨h₁, h₂⟩ := bootBuddy_list kernelEnd prior mb
  rw [← hs] at h₁ h₂
  have hinj : ∀ a ∈ bootAdds mb s, ∀ b ∈ bootAdds mb s, recordIndex s a = recordIndex s b →
      a = b := fun a ha b hb =>
    recordIndex_inj (pageSize_dvd_memoryBase kernelEnd prior mb) ha hb
  constructor
  · intro h
    obtain ⟨l, hc, -⟩ := h.acyclic
    rw [h₁, h₂] at hc
    have hnd : (bootAdds mb s).Nodup := ((chain_pushes_iff _ _ _).1 hc).2.of_map _
    refine ⟨fun e he hu a hd hlo hhi hma => ?_, (nodup_bootAdds_iff hm).1 hnd⟩
    have ha : a ∈ bootAdds mb s := mem_bootAdds.2 ⟨hm, hma, hd, e, he, hu, hlo, hhi⟩
    obtain ⟨next, hn⟩ := pageInfo_bootBuddy ha
    have hin := h.inside _ (onFreeList_bootBuddy.2 ⟨rfl, a, stays_of_nodup hnd ha, rfl⟩)
    rwa [hn] at hin
  · intro h
    have hnd : (bootAdds mb s).Nodup := (nodup_bootAdds_iff hm).2 h.apart
    refine ⟨fun i hi => ?_, ((bootAdds mb s).map (recordIndex s)).reverse, ?_, ?_⟩
    · obtain ⟨-, a, hst, rfl⟩ := onFreeList_bootBuddy.1 hi
      obtain ⟨next, hn⟩ := pageInfo_bootBuddy hst.mem
      obtain ⟨-, hma, hd, e, he, hu, hlo, hhi⟩ := mem_bootAdds.1 hst.mem
      rw [hn]
      exact h.inside e he hu a hd hlo hhi hma
    · rw [h₁, h₂]
      exact (chain_pushes_iff _ _ _).2 ⟨rfl, hnd.map_on hinj⟩
    · have haddr : ((bootAdds mb s).map (recordIndex s)).map
          (fun i => ((bootBuddy kernelEnd prior mb).pageInfo i).address) = bootAdds mb s := by
        rw [List.map_map]
        refine (List.map_congr_left fun a ha => ?_).trans (List.map_id _)
        obtain ⟨next, hn⟩ := pageInfo_bootBuddy ha
        rw [← hs] at hn
        simp [hn]
      rw [List.map_reverse, List.nodup_reverse, haddr]
      exact hnd

/-- No two entries of the map share a byte, as 64-bit intervals. -/
def EntriesDisjoint (mb : MultibootInfo) : Prop :=
  mb.entries.Pairwise fun e f => ∀ x, ¬ ((e.addr ≤ x ∧ x < e.addr + e.len) ∧
    (f.addr ≤ x ∧ x < f.addr + f.len))

/-- Below 4 GiB the windows are honest: entries that are disjoint, end at or
below 4 GiB and do not start in its last page. -/
theorem windowsHonest_of_below (s : BuddyAllocator) (hdisj : EntriesDisjoint mb)
    (hbelow : ∀ e ∈ mb.entries, pmmRegionUsable e →
      e.addr ≤ 2 ^ 32 - pageSize ∧ e.addr + e.len ≤ 2 ^ 32) : WindowsHonest mb s := by
  have hwin : ∀ e ∈ mb.entries, pmmRegionUsable e → ∀ a, pageSize ∣ a → pmmRegionStart e ≤ a →
      a < pmmRegionEnd e → InsideEntry e a := by
    rintro e he hu a ⟨q, rfl⟩ hlo hhi
    obtain ⟨h₁, h₂⟩ := hbelow e he hu
    have h₃ := hu.2
    simp only [pmmRegionStart, pmmRegionEnd, pmmAlign, alignUp, maskLow, u32, pageSize,
      InsideEntry] at *
    omega
  refine ⟨fun e he hu a hd hlo hhi _ => ⟨e, he, hu.1, hwin e he hu a hd hlo hhi⟩, ?_⟩
  rw [List.pairwise_filter]
  refine hdisj.imp_of_mem fun {e f} he hf hef hue huf a hd _ hin => ?_
  obtain ⟨hae, haf⟩ := hin
  simp only [decide_eq_true_eq] at hue huf
  obtain ⟨h₁, h₂⟩ := hwin e he hue a hd hae.1 hae.2
  obtain ⟨h₃, h₄⟩ := hwin f hf huf a hd haf.1 haf.2
  simp only [pageSize] at *
  exact hef a ⟨⟨h₁, by omega⟩, ⟨h₃, by omega⟩⟩

theorem links_available_twoPage :
    LinksAvailable twoPageMap (bootBuddy 0x200000 (fun _ => ⟨0, 0, 0, none⟩) twoPageMap) := by
  refine (links_available_iff 0x200000 (fun _ => ⟨0, 0, 0, none⟩) (by decide)).2
    (windowsHonest_of_below _ (List.pairwise_singleton _ _) fun e he _ => ?_)
  obtain rfl : e = ⟨20, 0x100000, 0x2000, 1⟩ := List.mem_singleton.1 he
  decide

/-- Two pages at 1 MiB, and one page 4 GiB above the byte behind them. -/
def aliasMap : MultibootInfo where
  self := 0x9000
  flags := 0x40
  modsCount := 0
  mods := fun _ => ⟨0, 0⟩
  mmapLength := 48
  mmapAddr := 0x9100
  mmap := [⟨20, 0x100000, 0x2000, 1⟩, ⟨20, 0x100102000, 0x1000, 1⟩]

/-- The page above 4 GiB is linked at an address where there is no memory. -/
theorem links_alias : EntriesDisjoint aliasMap ∧
    ¬ LinksAvailable aliasMap (bootBuddy 0x200000 (fun _ => ⟨0, 0, 0, none⟩) aliasMap) := by
  have hentries : aliasMap.entries =
      [⟨20, 0x100000, 0x2000, 1⟩, ⟨20, 0x100102000, 0x1000, 1⟩] := by decide
  constructor
  · rw [EntriesDisjoint, hentries, List.pairwise_pair]
    intro x
    simp only
    omega
  · intro h
    set s := bootBuddy 0x200000 (fun _ => ⟨0, 0, 0, none⟩) aliasMap with hs
    have hhead : s.freeList 0 = some 2 := by decide
    have haddr : (s.pageInfo 2).address = 0x102000 := by decide
    obtain ⟨f, hf, -, hin⟩ := h.inside 2 (by rw [OnFreeList, hhead]; exact .here 2)
    rw [haddr] at hin
    have hall : ∀ f ∈ aliasMap.entries, ¬ InsideEntry f 0x102000 := by decide
    exact hall f hf hin

end Available

/-! ### Memory in use -/

/-- `_kernel_start`: the address the kernel is linked at. -/
def kernelStart : ℕ := 0x00100000

/-- The memory in use when `pmm_buddy_init` returns, as intervals: the kernel
image, the multiboot information and map, the loaded modules, `page_info`. -/
def inUse (kernelEnd : ℕ) (mb : MultibootInfo) (s : BuddyAllocator) : List (ℕ × ℕ) :=
  (kernelStart, kernelEnd) ::
  (if mb.self ≠ 0 then [(mb.self, mb.self + sizeofMultibootInfo)] else []) ++
  (if pmmHasMmap mb then [(mb.mmapAddr, mb.mmapAddr + mb.mmapLength)] else []) ++
  (if pmmHasMods mb then
    (List.range mb.modsCount).map fun i => ((mb.mods i).modStart, (mb.mods i).modEnd) else []) ++
  [(s.pageInfoAddr, s.pageInfoAddr + s.totalPages * sizeofPage)]

/-- The page at `a` meets none of the intervals. -/
def PageUnused (ranges : List (ℕ × ℕ)) (a : ℕ) : Prop :=
  ∀ r ∈ ranges, Disjoint (Set.Ico a (a + pageSize)) (Set.Ico r.1 r.2)

/-- No managed page in the window of a usable entry is in use, unless a page
added twice later on cuts it off. -/
def WindowsUnused (ranges : List (ℕ × ℕ)) (mb : MultibootInfo) (s : BuddyAllocator) : Prop :=
  ∀ e ∈ mb.entries, pmmRegionUsable e → ∀ a, pageSize ∣ a → pmmRegionStart e ≤ a →
    a < pmmRegionEnd e → Managed s a → Stays (bootAdds mb s) a → PageUnused ranges a

/-- No page on a free list is in use. -/
def LinksUnused (ranges : List (ℕ × ℕ)) (s : BuddyAllocator) : Prop :=
  ∀ k i, OnFreeList s k i → PageUnused ranges (s.pageInfo i).address

section InUse

variable {kernelEnd : ℕ} {prior : ℕ → Page} {mb : MultibootInfo} {s : BuddyAllocator}

/-- **When boot links unused memory only**: exactly when the regions it takes as
usable have none in use to begin with. -/
theorem links_unused_iff (kernelEnd : ℕ) (prior : ℕ → Page) (mb : MultibootInfo) :
    LinksUnused (inUse kernelEnd mb (bootLayout kernelEnd prior mb))
        (bootBuddy kernelEnd prior mb) ↔
      WindowsUnused (inUse kernelEnd mb (bootLayout kernelEnd prior mb)) mb
        (bootLayout kernelEnd prior mb) := by
  constructor
  · intro h e _ _ a _ _ _ _ ha
    obtain ⟨next, hn⟩ := pageInfo_bootBuddy ha.mem
    have hu := h 0 _ (onFreeList_bootBuddy.2 ⟨rfl, a, ha, rfl⟩)
    rwa [hn] at hu
  · intro h k i hi
    obtain ⟨-, a, ha, rfl⟩ := onFreeList_bootBuddy.1 hi
    obtain ⟨next, hn⟩ := pageInfo_bootBuddy ha.mem
    obtain ⟨-, hm, hd, e, he, hu, hlo, hhi⟩ := mem_bootAdds.1 ha.mem
    rw [hn]
    exact h e he hu a hd hlo hhi hm ha

/-- `page_info` starts on a page. -/
theorem pageSize_dvd_pageInfoAddr (kernelEnd : ℕ) (prior : ℕ → Page) (mb : MultibootInfo) :
    pageSize ∣ (bootLayout kernelEnd prior mb).pageInfoAddr := by
  have hplace : ∀ (es : List MmapEntry) (top need : ℕ), pageSize ∣ pmmPlaceIn top need es := by
    intro es top need
    induction es with
    | nil => exact dvd_zero pageSize
    | cons e es ih =>
      have hcases : ∀ start : ℕ, pageSize ∣ if pmmRegionUsable e ∧ pmmAlign start < pmmRegionEnd e ∧
          pmmRegionEnd e - pmmAlign start ≥ need then pmmAlign start
        else pmmPlaceIn top need es := by
        intro start
        split
        · exact pageSize_dvd_maskLow _
        · exact ih
      exact hcases _
  have hfind : ∀ top bytes : ℕ, pageSize ∣ pmmFindPageInfoPlacement mb top bytes := by
    intro top bytes
    unfold pmmFindPageInfoPlacement
    split
    · exact dvd_zero pageSize
    · exact hplace _ _ _
  unfold bootLayout
  simp only
  split
  · exact pageSize_dvd_maskLow _
  · exact hfind _ _

/-- Of the memory in use the walk leaves out `page_info`, when it lies below the
end of the address space; that much of `links_unused_iff` always holds. -/
theorem pageInfo_unused (hs : s = bootLayout kernelEnd prior mb)
    (hfit : s.pageInfoAddr + s.totalPages * sizeofPage + pageSize ≤ 2 ^ 32) {a : ℕ}
    (ha : a ∈ bootAdds mb s) :
    PageUnused [(s.pageInfoAddr, s.pageInfoAddr + s.totalPages * sizeofPage)] a := by
  intro r hr
  obtain rfl := List.mem_singleton.1 hr
  obtain ⟨p, hp⟩ := hs ▸ pageSize_dvd_pageInfoAddr kernelEnd prior mb
  obtain ⟨-, ⟨hout, -, -⟩, ⟨q, rfl⟩, -⟩ := mem_bootAdds.1 ha
  simp only [pmmAddrInPageinfo, pageInfoSlot, pmmAlign, alignUp, maskLow, u32, sizeofPage,
    pageSize] at *
  rw [Set.disjoint_left]
  simp only [Set.mem_Ico]
  omega

/-- A memory map with one usable region, of four pages, where the kernel lies. -/
def fourPageMap : MultibootInfo where
  self := 0x9000
  flags := 0x40
  modsCount := 0
  mods := fun _ => ⟨0, 0⟩
  mmapLength := 24
  mmapAddr := 0x9100
  mmap := [⟨20, 0x100000, 0x4000, 1⟩]

/-- Memory whose bytes read as free page records. -/
def stalePrior : ℕ → Page := fun _ => ⟨0, 0, 1, none⟩

theorem pageInfo_unused_fourPage : ∃ s, s = bootLayout 0x101000 stalePrior fourPageMap ∧
    ∀ a ∈ bootAdds fourPageMap s, PageUnused [(s.pageInfoAddr, s.pageInfoAddr + s.totalPages * sizeofPage)] a :=
  ⟨_, rfl, fun _ ha => pageInfo_unused rfl (by decide) ha⟩

/-- The pages added on `fourPageMap` when the kernel takes the first page and
`page_info` the second. -/
theorem bootAdds_fourPage : bootAdds fourPageMap (bootLayout 0x101000 stalePrior fourPageMap) =
    [0x100000, 0x102000, 0x103000] := by decide

/-- The first page of the kernel is linked. -/
theorem links_kernel : ¬ LinksUnused
    (inUse 0x101000 fourPageMap (bootLayout 0x101000 stalePrior fourPageMap))
    (bootBuddy 0x101000 stalePrior fourPageMap) := by
  intro h
  have hst : Stays (bootAdds fourPageMap
      (bootLayout 0x101000 stalePrior fourPageMap)) 0x100000 := by
    rw [bootAdds_fourPage]
    exact stays_of_nodup (by decide) (by decide)
  obtain ⟨next, hn⟩ := pageInfo_bootBuddy hst.mem
  have hu := h 0 _ (onFreeList_bootBuddy.2 ⟨rfl, _, hst, rfl⟩) (kernelStart, 0x101000)
    (by simp [inUse])
  rw [hn] at hu
  exact Set.disjoint_left.1 hu (show (0x100000 : ℕ) ∈ _ by simp) (by simp [kernelStart])

end InUse

/-! ### Records that are not linked -/

/-- Every record that is on no free list is marked used. -/
def MarksClear (s : BuddyAllocator) : Prop :=
  ∀ i < s.totalPages, (∀ k, ¬ OnFreeList s k i) → (s.pageInfo i).isFree = 0

/-- **When boot marks what it does not link as used**: exactly when the memory
under `page_info` says so already of the records that are not added, and every
page that is added stays linked. -/
theorem marks_clear_iff (kernelEnd : ℕ) (prior : ℕ → Page) (mb : MultibootInfo) :
    MarksClear (bootBuddy kernelEnd prior mb) ↔
      (∀ i < (bootLayout kernelEnd prior mb).totalPages,
        (∀ a ∈ bootAdds mb (bootLayout kernelEnd prior mb),
          recordIndex (bootLayout kernelEnd prior mb) a ≠ i) → (prior i).isFree = 0) ∧
      ∀ a ∈ bootAdds mb (bootLayout kernelEnd prior mb),
        Stays (bootAdds mb (bootLayout kernelEnd prior mb)) a := by
  set s := bootLayout kernelEnd prior mb with hs
  have hlay : SameLayout (bootBuddy kernelEnd prior mb) s := by
    rw [bootBuddy_eq]; exact sameLayout_addPages _ _
  have hkept : ∀ i, (∀ a ∈ bootAdds mb s, recordIndex s a ≠ i) →
      (bootBuddy kernelEnd prior mb).pageInfo i = prior i := fun i hi => by
    rw [bootBuddy_eq, addPages_pageInfo_of_ne hi]
    rfl
  constructor
  · intro h
    constructor
    · intro i hlt hi
      rw [← hkept i hi]
      refine h i (hlay.totalPages ▸ hlt) fun k hk => ?_
      obtain ⟨-, a, ha, he⟩ := onFreeList_bootBuddy.1 hk
      exact hi a ha.mem he
    · intro a ha
      by_contra hst
      obtain ⟨next, hn⟩ := pageInfo_bootBuddy ha
      have hlt : recordIndex s a < s.totalPages := (mem_bootAdds.1 ha).2.1.2.2
      have hfree := h _ (hlay.totalPages ▸ hlt) fun k hk => by
        obtain ⟨-, b, hb, he⟩ := onFreeList_bootBuddy.1 hk
        obtain rfl := recordIndex_inj (pageSize_dvd_memoryBase kernelEnd prior mb) hb.mem ha he
        exact hst hb
      rw [hn] at hfree
      exact one_ne_zero hfree
  · rintro ⟨hprior, hstay⟩ i hlt hi
    have hnot : ∀ a ∈ bootAdds mb s, recordIndex s a ≠ i := fun a ha he =>
      hi 0 (onFreeList_bootBuddy.2 ⟨rfl, a, hstay a ha, he⟩)
    rw [hkept i hnot]
    exact hprior i (hlay.totalPages ▸ hlt) hnot

/-- The record of the page that holds `page_info` keeps the mark it found. -/
theorem marks_stale :
    ¬ MarksClear (bootBuddy 0x101000 stalePrior fourPageMap) := by
  intro h
  have hfree := h 1 (by decide) fun k hk => by
    obtain ⟨-, a, ha, he⟩ := onFreeList_bootBuddy.1 hk
    have hmem := ha.mem
    rw [bootAdds_fourPage] at hmem
    have hnot : ∀ a ∈ [0x100000, 0x102000, 0x103000],
        recordIndex (bootLayout 0x101000 stalePrior fourPageMap) a ≠ 1 := by decide
    exact hnot a hmem he
  have hmark : ((bootBuddy 0x101000 stalePrior fourPageMap).pageInfo 1).isFree = 1 :=
    by decide
  rw [hmark] at hfree
  exact one_ne_zero hfree

end Flopperating
