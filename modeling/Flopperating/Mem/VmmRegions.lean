/-
# Regions come and go

`vmm_region_create` makes one more address space: its directory is the first free
page, empty but for the link to itself (`Created`, `Created.spaces`).
-/

import Flopperating.Mem.VmmSpec

namespace Flopperating

open TwoLevel

variable {σ σ' : Vmm} {dirs dirs' : ℕ → Prop} {d i p r t : ℕ}

/-- The free pages are different pages of memory. -/
def FreeOk (free : List ℕ) : Prop := free.Nodup ∧ ∀ t ∈ free, 0 < t ∧ pageSize ∣ t ∧ t < 2 ^ 32

instance (free : List ℕ) : Decidable (FreeOk free) := inferInstanceAs (Decidable (_ ∧ _))

theorem Spaces.freeOk (h : Spaces σ dirs) : FreeOk σ.freePages := ⟨h.free_nodup, h.free_page⟩

/-- Some of the address spaces. -/
theorem Spaces.mono (h : Spaces σ dirs) (hsub : ∀ a, dirs' a → dirs a) : Spaces σ dirs' where
  separate :=
    { not_root := fun hr hi hl ht => h.separate.not_root (hsub _ hr) hi hl (hsub _ ht)
      inj := fun hr hr' => h.separate.inj (hsub _ hr) (hsub _ hr') }
  self a ha := h.self a (hsub a ha)
  free_nodup := h.free_nodup
  free_page := h.free_page
  free_plain t ht := ⟨fun hd => (h.free_plain t ht).1 (hsub t hd),
    fun a i ha => (h.free_plain t ht).2 a i (hsub a ha)⟩

/-- Before the first region there is no address space. -/
theorem spaces_none (h : FreeOk σ.freePages) : Spaces σ fun _ => False where
  separate := ⟨fun hr => hr.elim, fun hr => hr.elim⟩
  self _ ha := ha.elim
  free_nodup := h.1
  free_page := h.2
  free_plain _ _ := ⟨id, fun _ _ ha => ha.elim⟩

/-- The region `r` with the directory `t` is new. -/
structure Created (σ σ' : Vmm) (r t : ℕ) : Prop where
  free : σ.freePages = t :: σ'.freePages
  objects : σ.objects = r :: σ'.objects
  region : σ'.region = Function.update σ.region r
    { σ.region r with
      pgDir := t, next := σ.regionList, baseVa := userSpaceStart, nextFreeVa := userSpaceStart }
  regionList : σ'.regionList = some r
  currentPgDir : σ'.currentPgDir = σ.currentPgDir
  other : ∀ a, a ≠ t → σ'.mem a = σ.mem a
  empty : ∀ i, i ≠ recursivePde → σ'.mem t i = 0
  self : σ'.mem t recursivePde = pageEntry t (pageRw ||| pageUser)

/-- **`vmm_region_create` up to the first allocation**: no page for a directory, no
descriptor, or a new region. -/
theorem vmmRegionNew_cases (hfree : FreeOk σ.freePages) :
    (σ.freePages = [] ∧ vmmRegionNew σ = (none, σ)) ∨
    (σ.freePages ≠ [] ∧ σ.objects = [] ∧ (vmmRegionNew σ).1 = none ∧
      (vmmRegionNew σ).2.freePages = σ.freePages) ∨
    ∃ r t σ', vmmRegionNew σ = (some r, σ') ∧ Created σ σ' r t := by
  rw [vmmRegionNew]
  rcases hf : σ.freePages with - | ⟨t, free⟩
  · left
    simp [Vmm.allocPage, hf]
  · right
    have ht := hfree.2 t (hf ▸ List.mem_cons_self)
    simp only [Vmm.allocPage, hf, ht.1.ne', if_false, Vmm.kmalloc, Vmm.setWord, Vmm.zeroPage]
    rcases ho : σ.objects with - | ⟨r, objects⟩
    · left
      refine ⟨by simp, rfl, rfl, ?_⟩
      simp only [Vmm.freePage, ht.1.ne', if_false, maskLow_of_dvd ht.2.1]
    · right
      refine ⟨r, t, _, rfl, hf, ho, ?_, rfl, rfl, fun a ha => ?_, fun i hi => ?_, write_self⟩
      · simp only [vmmRegionInsert, Vmm.setRegion, Function.update_self, Function.update_idem]
      · exact (write_of_ne_page ha).trans (fill_of_ne ha)
      · exact (write_of_ne_index hi).trans fill_self

theorem vmmRegionNew_created (hfree : FreeOk σ.freePages) {free objects : List ℕ}
    (hf : σ.freePages = t :: free) (ho : σ.objects = r :: objects) :
    (vmmRegionNew σ).1 = some r ∧ Created σ (vmmRegionNew σ).2 r t := by
  rcases vmmRegionNew_cases hfree with ⟨hnil, -⟩ | ⟨-, hnil, -⟩ | ⟨r', t', σ', hnew, hc⟩
  · exact absurd (hf.symm.trans hnil) (by simp)
  · exact absurd (ho.symm.trans hnil) (by simp)
  · obtain ⟨rfl, -⟩ := List.cons.inj (ho.symm.trans hc.objects)
    obtain ⟨rfl, -⟩ := List.cons.inj (hf.symm.trans hc.free)
    rw [hnew]
    exact ⟨rfl, hc⟩

namespace Created

variable (hc : Created σ σ' r t)

include hc

theorem pgDir : (σ'.region r).pgDir = t := by rw [hc.region, Function.update_self]

theorem region_of_ne {s : ℕ} (hs : s ≠ r) : σ'.region s = σ.region s := by
  rw [hc.region, Function.update_of_ne hs]

theorem mem_free : t ∈ σ.freePages := by rw [hc.free]; exact List.mem_cons_self

theorem hasTable (hi : tableSlot i) : σ'.hasTable t i = false := by
  rw [Vmm.hasTable, hc.empty i (Nat.ne_of_lt hi), present_zero]

theorem word (hp : p < windowPage) : σ'.word t p = 0 :=
  word_of_absent (hc.hasTable (div_lt_of_window hp))

/-- **The new region is one more address space.** -/
theorem spaces (h : Spaces σ dirs) : Spaces σ' fun a => dirs a ∨ a = t := by
  have hplain := h.free_plain t hc.mem_free
  have hold : ∀ a, dirs a → σ'.mem a = σ.mem a := fun a ha => hc.other a fun he => hplain.1 (he ▸ ha)
  have hnone : ∀ i u, tableSlot i → tableLink (σ'.mem t i) ≠ some u := fun i u hi hl => by
    rw [hc.empty i (Nat.ne_of_lt hi), tableLink_zero] at hl
    exact absurd hl (by simp)
  have hnd := hc.free ▸ h.free_nodup
  have hmem : ∀ u ∈ σ'.freePages, u ∈ σ.freePages := fun u hu => by
    rw [hc.free]
    exact List.mem_cons_of_mem _ hu
  refine ⟨⟨⟨?_, ?_⟩, ?_⟩, (List.nodup_cons.1 hnd).2, fun u hu => h.free_page u (hmem u hu), ?_⟩
  · rintro a i u (ha | rfl) hi hl
    · rw [hold a ha] at hl
      rintro (hu | rfl)
      · exact h.separate.not_root ha hi hl hu
      · exact hplain.2 a i ha hi hl
    · exact absurd hl (hnone i u hi)
  · rintro a a' i i' u (ha | rfl) (ha' | rfl) hi hi' hl hl'
    · rw [hold a ha] at hl
      rw [hold a' ha'] at hl'
      exact h.separate.inj ha ha' hi hi' hl hl'
    · exact absurd hl' (hnone i' u hi')
    · exact absurd hl (hnone i u hi)
    · exact absurd hl (hnone i u hi)
  · rintro a (ha | rfl)
    · rw [hold a ha]
      exact h.self a ha
    · rw [hc.self]
      exact tableLink_pageEntry (h.free_page _ hc.mem_free).2.1 (by decide)
  · intro u hu
    refine ⟨?_, ?_⟩
    · rintro (hd | rfl)
      · exact (h.free_plain u (hmem u hu)).1 hd
      · exact (List.nodup_cons.1 hnd).1 hu
    · rintro a i (ha | rfl) hi hl
      · rw [hold a ha] at hl
        exact (h.free_plain u (hmem u hu)).2 a i ha hi hl
      · exact hnone i u hi hl

/-- A first region, on its own. -/
theorem spaces_single (hfree : FreeOk σ.freePages) : Spaces σ' (· = t) :=
  (hc.spaces (spaces_none hfree)).mono fun _ ha => .inr ha

end Created

/-- Clear memory with these free pages and descriptors, and no region. -/
def clearVmm (free objects : List ℕ) : Vmm where
  mem _ _ := 0
  currentPgDir := 0
  currentRegion := none
  freePages := free
  objects := objects
  region _ := ⟨0, none, 0, 0, none⟩
  regionList := none
  allocClass _ := ⟨⟨.custom, 0, 0, 0, 0, none⟩, none, 0, none⟩
  area _ := ⟨0, 0, none, none⟩

/-- The region that is switched to is the loaded one. -/
theorem loaded_vmmSwitch (σ : Vmm) (r : ℕ) : Loaded (vmmSwitch r σ) r := rfl

theorem Spaces.switch (h : Spaces σ dirs) : Spaces (vmmSwitch r σ) dirs := h.congr (fun _ _ => rfl) rfl

end Flopperating
