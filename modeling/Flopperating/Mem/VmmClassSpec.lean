/-
# The lists of areas

`vmm_insert_area` puts an area at its place in a sorted list (`vmmInsertArea_spec`),
and `vmm_remove_area` takes it out again (`vmmRemoveArea_spec`).  `Packed` describes
the areas of a class: no area is given back, so they lie one behind the other from
the start of the window to the hint, and `vmm_find_fit` finds room at the hint or
nowhere (`vmmFindFit_fits`, `vmmFindFit_full`).
-/

import Flopperating.Data.Extent
import Flopperating.Mem.VmmClass

namespace Flopperating

open DoublyLinked Vmm

variable {σ σ' σ₁ σ₂ : Vmm} {a c p q r n va start size : ℕ} {l l₁ l₂ l' : List ℕ} {b u : Option ℕ}

namespace Vmm

/-- The field `next` of every area. -/
def areaNext (σ : Vmm) (p : ℕ) : Option ℕ := (σ.area p).next

/-- The field `prev` of every area. -/
def areaPrev (σ : Vmm) (p : ℕ) : Option ℕ := (σ.area p).prev

@[simp] theorem areaNext_setAreaNext :
    (σ.setAreaNext p u).areaNext = Function.update σ.areaNext p u := by
  funext q
  rcases eq_or_ne q p with rfl | hq
  · simp [areaNext, setAreaNext, setArea]
  · simp [areaNext, setAreaNext, setArea, hq]

@[simp] theorem areaPrev_setAreaNext : (σ.setAreaNext p u).areaPrev = σ.areaPrev := by
  funext q
  rcases eq_or_ne q p with rfl | hq
  · simp [areaPrev, setAreaNext, setArea]
  · simp [areaPrev, setAreaNext, setArea, hq]

@[simp] theorem areaNext_setAreaPrev : (σ.setAreaPrev p u).areaNext = σ.areaNext := by
  funext q
  rcases eq_or_ne q p with rfl | hq
  · simp [areaNext, setAreaPrev, setArea]
  · simp [areaNext, setAreaPrev, setArea, hq]

@[simp] theorem areaPrev_setAreaPrev :
    (σ.setAreaPrev p u).areaPrev = Function.update σ.areaPrev p u := by
  funext q
  rcases eq_or_ne q p with rfl | hq
  · simp [areaPrev, setAreaPrev, setArea]
  · simp [areaPrev, setAreaPrev, setArea, hq]

@[simp] theorem areaNext_setVmaHead : (σ.setVmaHead c u).areaNext = σ.areaNext := rfl

@[simp] theorem areaPrev_setVmaHead : (σ.setVmaHead c u).areaPrev = σ.areaPrev := rfl

@[simp] theorem vmaHead_setVmaHead : ((σ.setVmaHead c u).allocClass c).vmaHead = u := by
  simp [setVmaHead, setClass]

@[simp] theorem allocClass_setAreaNext : (σ.setAreaNext p u).allocClass = σ.allocClass := rfl

@[simp] theorem allocClass_setAreaPrev : (σ.setAreaPrev p u).allocClass = σ.allocClass := rfl

/-- `if (q) q->prev = v`. -/
def setPrevAt (q v : Option ℕ) (σ : Vmm) : Vmm :=
  match q with
  | none => σ
  | some q => σ.setAreaPrev q v

@[simp] theorem areaNext_setPrevAt : (σ.setPrevAt b u).areaNext = σ.areaNext := by
  cases b with
  | none => rfl
  | some q => exact areaNext_setAreaPrev

@[simp] theorem areaPrev_setPrevAt : (σ.setPrevAt b u).areaPrev = setAt σ.areaPrev b u := by
  cases b with
  | none => rfl
  | some q => exact areaPrev_setAreaPrev

@[simp] theorem allocClass_setPrevAt : (σ.setPrevAt b u).allocClass = σ.allocClass := by
  cases b <;> rfl

@[simp] theorem objects_setPrevAt : (σ.setPrevAt b u).objects = σ.objects := by cases b <;> rfl

end Vmm

/-- The links of the areas `l` and of class `c` have changed, and nothing else. -/
structure Relinked (σ σ' : Vmm) (c : ℕ) (l : List ℕ) : Prop where
  mem : σ'.mem = σ.mem
  currentPgDir : σ'.currentPgDir = σ.currentPgDir
  currentRegion : σ'.currentRegion = σ.currentRegion
  freePages : σ'.freePages = σ.freePages
  region : σ'.region = σ.region
  regionList : σ'.regionList = σ.regionList
  allocClass : ∀ k, k ≠ c → σ'.allocClass k = σ.allocClass k
  config : (σ'.allocClass c).config = (σ.allocClass c).config
  hintPtr : (σ'.allocClass c).hintPtr = (σ.allocClass c).hintPtr
  nextClass : (σ'.allocClass c).next = (σ.allocClass c).next
  area : ∀ q, q ∉ l → σ'.area q = σ.area q
  span : ∀ q, (σ'.area q).start = (σ.area q).start ∧ (σ'.area q).size = (σ.area q).size

namespace Relinked

theorem refl : Relinked σ σ c l :=
  ⟨rfl, rfl, rfl, rfl, rfl, rfl, fun _ _ => rfl, rfl, rfl, rfl, fun _ _ => rfl, fun _ => ⟨rfl, rfl⟩⟩

theorem trans (h : Relinked σ σ₁ c l) (h' : Relinked σ₁ σ' c l) : Relinked σ σ' c l :=
  ⟨h'.1.trans h.1, h'.2.trans h.2, h'.3.trans h.3, h'.4.trans h.4, h'.5.trans h.5, h'.6.trans h.6,
    fun k hk => (h'.7 k hk).trans (h.7 k hk), h'.8.trans h.8, h'.9.trans h.9, h'.10.trans h.10,
    fun q hq => (h'.11 q hq).trans (h.11 q hq),
    fun q => ⟨(h'.12 q).1.trans (h.12 q).1, (h'.12 q).2.trans (h.12 q).2⟩⟩

theorem setAreaNext (h : Relinked σ σ' c l) (hp : p ∈ l) (u : Option ℕ) :
    Relinked σ (σ'.setAreaNext p u) c l := by
  refine ⟨h.1, h.2, h.3, h.4, h.5, h.6, h.7, h.8, h.9, h.10, fun q hq => ?_, fun q => ?_⟩
  · exact (Function.update_of_ne (ne_of_mem_of_not_mem hp hq).symm _ _).trans (h.area q hq)
  · rcases eq_or_ne q p with rfl | hq
    · simpa [Vmm.setAreaNext, Vmm.setArea] using h.span q
    · simpa [Vmm.setAreaNext, Vmm.setArea, hq] using h.span q

theorem setAreaPrev (h : Relinked σ σ' c l) (hp : p ∈ l) (u : Option ℕ) :
    Relinked σ (σ'.setAreaPrev p u) c l := by
  refine ⟨h.1, h.2, h.3, h.4, h.5, h.6, h.7, h.8, h.9, h.10, fun q hq => ?_, fun q => ?_⟩
  · exact (Function.update_of_ne (ne_of_mem_of_not_mem hp hq).symm _ _).trans (h.area q hq)
  · rcases eq_or_ne q p with rfl | hq
    · simpa [Vmm.setAreaPrev, Vmm.setArea] using h.span q
    · simpa [Vmm.setAreaPrev, Vmm.setArea, hq] using h.span q

theorem setPrevAt (h : Relinked σ σ' c l) (hb : ∀ q, b = some q → q ∈ l) (u : Option ℕ) :
    Relinked σ (σ'.setPrevAt b u) c l := by
  cases b with
  | none => exact h
  | some q => exact h.setAreaPrev (hb q rfl) u

theorem setVmaHead (h : Relinked σ σ' c l) (u : Option ℕ) : Relinked σ (σ'.setVmaHead c u) c l := by
  refine ⟨h.1, h.2, h.3, h.4, h.5, h.6, fun k hk => ?_, ?_, ?_, ?_, h.area, h.span⟩
  · exact (Function.update_of_ne hk _ _).trans (h.allocClass k hk)
  · simpa [Vmm.setVmaHead, Vmm.setClass] using h.config
  · simpa [Vmm.setVmaHead, Vmm.setClass] using h.hintPtr
  · simpa [Vmm.setVmaHead, Vmm.setClass] using h.nextClass

theorem kfree (h : Relinked σ σ' c l) (p : ℕ) : Relinked σ (σ'.kfree p) c l :=
  ⟨h.1, h.2, h.3, h.4, h.5, h.6, h.7, h.8, h.9, h.10, h.11, h.12⟩

end Relinked

/-! ### Inserting -/

/-- The walk ends at the last area that starts before `start`. -/
theorem vmmInsertSeek_spec (h : Seg σ.areaNext σ.areaPrev b (some a) (a :: l) none)
    (ha : (σ.area a).start < start) (hn : l.length < n) :
    ∃ l₁ i l₂, vmmInsertSeek start σ n a = some i ∧ a :: l = l₁ ++ i :: l₂ ∧
      (∀ q ∈ l₁ ++ [i], (σ.area q).start < start) ∧
      ∀ q, l₂.head? = some q → start ≤ (σ.area q).start := by
  induction l generalizing a b n with
  | nil =>
    obtain ⟨m, rfl⟩ := Nat.exists_eq_add_of_lt hn
    have hnext : (σ.area a).next = none := h.2.2
    exact ⟨[], a, [], by simp [vmmInsertSeek, hnext], rfl, by simpa using ha, by simp⟩
  | cons k l ih =>
    obtain ⟨m, rfl⟩ : ∃ m, n = m + 1 := ⟨n - 1, by simp at hn; omega⟩
    have hnext : (σ.area a).next = some k := h.2.2.1
    rcases Nat.lt_or_ge (σ.area k).start start with hlt | hge
    · have hk : Seg σ.areaNext σ.areaPrev (some a) (some k) (k :: l) none := ⟨rfl, h.2.2.2⟩
      obtain ⟨l₁, i, l₂, hrun, hl, hbefore, hafter⟩ := ih hk hlt (by simp at hn; omega)
      refine ⟨a :: l₁, i, l₂, ?_, by rw [hl]; rfl, fun q hq => ?_, hafter⟩
      · rw [vmmInsertSeek, hnext]
        exact (if_pos hlt).trans hrun
      · rcases List.mem_cons.1 hq with rfl | hq
        · exact ha
        · exact hbefore q hq
    · refine ⟨[], a, k :: l, ?_, rfl, by simpa using ha, fun q hq => ?_⟩
      · rw [vmmInsertSeek, hnext]
        exact if_neg (Nat.not_lt.2 hge)
      · obtain rfl := Option.some.inj hq
        exact hge

/-- The areas of class `c` are `l`, sorted by their start. -/
structure AreaList (σ : Vmm) (c : ℕ) (l : List ℕ) : Prop where
  links : Links σ.areaNext σ.areaPrev (σ.allocClass c).vmaHead l
  sorted : l.Pairwise fun p q => (σ.area p).start < (σ.area q).start
  length : l.length < vmmSteps

/-- The new area has its span, and is not linked yet. -/
def Vmm.newArea (σ : Vmm) (p start size : ℕ) (objects : List ℕ) : Vmm :=
  { σ with objects := objects }.setArea p ⟨start, size, none, none⟩

theorem newArea_links (h : AreaList σ c l) (hp : p ∉ l) (start size : ℕ) (objects : List ℕ) :
    Links (σ.newArea p start size objects).areaNext (σ.newArea p start size objects).areaPrev
      (σ.allocClass c).vmaHead l := by
  refine h.links.congr (fun q hq => ?_) fun q hq => ?_
  · exact congrArg Area.next (Function.update_of_ne (ne_of_mem_of_not_mem hq hp) _ _)
  · exact congrArg Area.prev (Function.update_of_ne (ne_of_mem_of_not_mem hq hp) _ _)

/-- **`vmm_insert_area`** puts the area between those that start before it and those
that start behind it. -/
theorem vmmInsertArea_spec (h : AreaList σ c l) {objects : List ℕ} (ho : σ.objects = p :: objects)
    (hp : p ∉ l) (size : ℕ) (hstart : ∀ q ∈ l, (σ.area q).start ≠ start) :
    ∃ σ' l₁ l₂, vmmInsertArea c start size σ = some (0, σ') ∧ l = l₁ ++ l₂ ∧
      (∀ q ∈ l₁, (σ.area q).start < start) ∧ (∀ q ∈ l₂, start < (σ.area q).start) ∧
      Links σ'.areaNext σ'.areaPrev (σ'.allocClass c).vmaHead (l₁ ++ p :: l₂) ∧
      Relinked (σ.newArea p start size objects) σ' c (p :: l) ∧ σ'.objects = objects := by
  have hlinks := newArea_links h hp start size objects
  generalize hσ₁ : σ.newArea p start size objects = σ₁ at hlinks
  have hspan : ∀ q ∈ l, (σ₁.area q).start = (σ.area q).start := fun q hq => by
    rw [← hσ₁]
    exact congrArg Area.start (Function.update_of_ne (ne_of_mem_of_not_mem hq hp) _ _)
  have hself : σ₁.areaNext p = none ∧ σ₁.areaPrev p = none := by
    rw [← hσ₁]
    simp [Vmm.newArea, Vmm.areaNext, Vmm.areaPrev, Vmm.setArea]
  have hrun : vmmInsertArea c start size σ = match (σ₁.allocClass c).vmaHead with
      | none => some (0, σ₁.setVmaHead c (some p))
      | some head =>
        if start < (σ₁.area head).start then
          some (0, ((σ₁.setAreaNext p (some head)).setAreaPrev head (some p)).setVmaHead c (some p))
        else do
          let iter ← vmmInsertSeek start σ₁ vmmSteps head
          let σ := (σ₁.setAreaNext p (σ₁.area iter).next).setAreaPrev p (some iter)
          let σ :=
            match (σ.area iter).next with
            | none => σ
            | some next => σ.setAreaPrev next (some p)
          return (0, σ.setAreaNext iter (some p)) := by
    rw [vmmInsertArea, Vmm.kmalloc, ho, ← hσ₁]
    rfl
  have hobj : σ₁.objects = objects := by rw [← hσ₁]; rfl
  have hcls : σ₁.allocClass = σ.allocClass := by rw [← hσ₁]; rfl
  rw [← hcls] at hlinks
  have hpl : p ∈ p :: l := List.mem_cons_self
  cases l with
  | nil =>
    have hnone : (σ₁.allocClass c).vmaHead = none := hlinks
    rw [hnone] at hrun
    refine ⟨_, [], [], hrun, rfl, by simp, by simp, ?_, Relinked.refl.setVmaHead _, hobj⟩
    rw [vmaHead_setVmaHead]
    exact ⟨rfl, hself.2, hself.1⟩
  | cons head l =>
    have hhead : (σ₁.allocClass c).vmaHead = some head := hlinks.1
    have hmem : head ∈ p :: head :: l := List.mem_cons_of_mem _ List.mem_cons_self
    rw [hhead] at hrun hlinks
    rcases Nat.lt_or_ge start (σ₁.area head).start with hlt | hge
    · refine ⟨_, [], head :: l, hrun.trans (if_pos hlt), rfl, by simp, fun q hq => ?_, ?_,
        ((Relinked.refl.setAreaNext hpl _).setAreaPrev hmem _).setVmaHead _, hobj⟩
      · rw [hspan head List.mem_cons_self] at hlt
        rcases List.mem_cons.1 hq with rfl | hq
        · exact hlt
        · exact hlt.trans ((List.pairwise_cons.1 h.sorted).1 q hq)
      · have hprev : Function.update σ₁.areaPrev p none = σ₁.areaPrev := by
          rw [← hself.2, Function.update_eq_self]
        have hlinks' := hlinks.insertHead hp
        rw [hprev] at hlinks'
        simpa using hlinks'
    · have hlt : (σ₁.area head).start < start := by
        refine lt_of_le_of_ne hge ?_
        rw [hspan head List.mem_cons_self]
        exact hstart head List.mem_cons_self
      obtain ⟨l₁, i, l₂, hseek, hl, hbefore, hafter⟩ :=
        vmmInsertSeek_spec hlinks hlt (n := vmmSteps) (by have := h.length; simp at this; omega)
      have hi : i ∈ head :: l := by rw [hl]; simp
      have hip : i ≠ p := ne_of_mem_of_not_mem hi hp
      have hnext : (((σ₁.setAreaNext p (σ₁.area i).next).setAreaPrev p (some i)).area i).next =
          σ₁.areaNext i := by
        change Vmm.areaNext _ i = _
        rw [areaNext_setAreaPrev, areaNext_setAreaNext, Function.update_of_ne hip]
      have hlinks' : Links σ₁.areaNext σ₁.areaPrev (some head) (l₁ ++ i :: l₂) := hl ▸ hlinks
      have hmem : ∀ q, σ₁.areaNext i = some q → q ∈ p :: head :: l := fun q hq => by
        rw [hlinks'.fields.1] at hq
        rw [hl]
        exact List.mem_cons_of_mem _ (List.mem_append_right _
          (List.mem_cons_of_mem _ (List.mem_of_mem_head? hq)))
      refine ⟨(((σ₁.setAreaNext p (σ₁.area i).next).setAreaPrev p (some i)).setPrevAt
        (σ₁.areaNext i) (some p)).setAreaNext i (some p), l₁ ++ [i], l₂,
        hrun.trans ((if_neg (Nat.not_lt.2 hge)).trans (Option.bind_eq_some_iff.2 ⟨i, hseek, ?_⟩)),
        by rw [hl]; simp, fun q hq => ?_, fun q hq => ?_, ?_, ?_, (objects_setPrevAt).trans hobj⟩
      · rw [← hnext]
        rfl
      · rw [← hspan q (by rw [hl]; simp only [List.mem_append, List.mem_cons] at hq ⊢; tauto)]
        exact hbefore q hq
      · have hsorted := h.sorted
        rw [hl] at hsorted hspan hstart
        cases l₂ with
        | nil => exact absurd hq List.not_mem_nil
        | cons k l₂ =>
          have hk : k ∈ l₁ ++ i :: k :: l₂ := by simp
          have hle := hafter k rfl
          rw [hspan k hk] at hle
          have hlt := lt_of_le_of_ne hle (hstart k hk).symm
          rcases List.mem_cons.1 hq with rfl | hq
          · exact hlt
          · have htail := (List.pairwise_cons.1 (List.pairwise_append.1 hsorted).2.1).2
            exact hlt.trans ((List.pairwise_cons.1 htail).1 q hq)
      · have hafter := hlinks'.insertAfter (hl ▸ hp)
        rw [← hhead] at hafter
        simp only [areaNext_setAreaNext, areaNext_setPrevAt, areaNext_setAreaPrev,
          areaPrev_setAreaNext, areaPrev_setPrevAt, areaPrev_setAreaPrev, allocClass_setAreaNext,
          allocClass_setPrevAt, allocClass_setAreaPrev, List.append_assoc]
        exact hafter
      · exact (((Relinked.refl.setAreaNext hpl _).setAreaPrev hpl _).setPrevAt hmem _).setAreaNext
          (List.mem_cons_of_mem _ hi) _

/-! ### Removing -/

/-- The walk ends at the first area that starts at `start`. -/
theorem vmmRemoveSeek_spec (h : Seg σ.areaNext σ.areaPrev b u (l₁ ++ a :: l₂) none)
    (ha : (σ.area a).start = start) (hne : ∀ q ∈ l₁, (σ.area q).start ≠ start)
    (hn : l₁.length < n) : vmmRemoveSeek start σ n u = some (some a) := by
  induction l₁ generalizing b u n with
  | nil =>
    obtain ⟨m, rfl⟩ := Nat.exists_eq_add_of_lt hn
    obtain ⟨rfl, -⟩ := h
    exact if_pos ha
  | cons k l ih =>
    obtain ⟨m, rfl⟩ : ∃ m, n = m + 1 := ⟨n - 1, by simp at hn; omega⟩
    obtain ⟨rfl, -, h⟩ := h
    refine (if_neg (hne k List.mem_cons_self)).trans ?_
    exact ih h (fun q hq => hne q (List.mem_cons_of_mem _ hq)) (by simp at hn; omega)

/-- **`vmm_remove_area`** takes the area that starts at `start` off the list. -/
theorem vmmRemoveArea_spec
    (h : Links σ.areaNext σ.areaPrev (σ.allocClass c).vmaHead (l₁ ++ a :: l₂))
    (ha : (σ.area a).start = start) (hne : ∀ q ∈ l₁, (σ.area q).start ≠ start)
    (hn : l₁.length < vmmSteps) : ∃ σ', vmmRemoveArea c start σ = some σ' ∧
      Links σ'.areaNext σ'.areaPrev (σ'.allocClass c).vmaHead (l₁ ++ l₂) ∧
      Relinked σ σ' c (l₁ ++ a :: l₂) ∧ σ'.objects = a :: σ.objects := by
  have hseek := vmmRemoveSeek_spec h ha hne hn
  obtain ⟨hnext, hprev⟩ := h.fields
  have hself : a ∈ l₁ ++ a :: l₂ := by simp
  have hmem : ∀ q, σ.areaNext a = some q → q ∈ l₁ ++ a :: l₂ := fun q hq => by
    rw [hnext] at hq
    exact List.mem_append_right _ (List.mem_cons_of_mem _ (List.mem_of_mem_head? hq))
  have hremove := h.remove
  -- what comes behind the area is linked back over it
  have hrun : ∀ σ₁ : Vmm, σ₁.area a = σ.area a →
      (σ.area a).prev.elim (σ.setVmaHead c (σ.area a).next)
        (fun prev => σ.setAreaNext prev (σ.area a).next) = σ₁ →
      vmmRemoveArea c start σ =
        some ((σ₁.setPrevAt (σ.areaNext a) (σ.areaPrev a)).kfree a) := fun σ₁ harea hσ₁ => by
    refine Option.bind_eq_some_iff.2 ⟨_, hseek, ?_⟩
    subst hσ₁
    cases hp : (σ.area a).prev <;> cases hq : (σ.area a).next <;>
      simp only [hp, hq, Option.elim] at harea <;> simp [hp, hq, harea, areaNext, areaPrev, setPrevAt]
  cases hp : (σ.area a).prev with
  | none =>
    have hpn : σ.areaPrev a = none := hp
    rw [hpn, if_pos rfl] at hremove
    refine ⟨_, hrun (σ.setVmaHead c (σ.areaNext a)) rfl (by rw [hp]; rfl), ?_, ?_, ?_⟩
    · rw [hpn]
      change Links (setPrevAt _ _ _).areaNext (setPrevAt _ _ _).areaPrev
        ((setPrevAt _ _ _).allocClass c).vmaHead _
      simpa using hremove
    · exact ((Relinked.refl.setVmaHead _).setPrevAt hmem _).kfree _
    · exact congrArg (a :: ·) objects_setPrevAt
  | some k =>
    have hpk : σ.areaPrev a = some k := hp
    have hk : k ∈ l₁ := by
      rw [hpk] at hprev
      exact List.mem_of_getLast? hprev.symm
    have hak : a ≠ k := fun he => (List.nodup_append.1 h.nodup).2.2 k hk a List.mem_cons_self he.symm
    rw [hpk, if_neg (by simp)] at hremove
    refine ⟨_, hrun (σ.setAreaNext k (σ.areaNext a)) (Function.update_of_ne hak _ _)
      (by rw [hp]; rfl), ?_, ?_, ?_⟩
    · rw [hpk]
      change Links (setPrevAt _ _ _).areaNext (setPrevAt _ _ _).areaPrev
        ((setPrevAt _ _ _).allocClass c).vmaHead _
      simpa using hremove
    · exact ((Relinked.refl.setAreaNext (List.mem_append_left _ hk) _).setPrevAt hmem _).kfree _
    · exact congrArg (a :: ·) objects_setPrevAt

/-! ### Finding room -/

theorem and_highBits {x : ℕ} (h : x < 2 ^ 32) :
    x &&& (2 ^ 32 - 1 - (0x10000 - 1)) = x / 0x10000 * 0x10000 := by
  refine Nat.eq_of_testBit_eq fun i => ?_
  rw [Nat.testBit_and, show 2 ^ 32 - 1 - (0x10000 - 1) = (2 ^ 16 - 1) * 2 ^ 16 from rfl,
    show x / 0x10000 * 0x10000 = x / 2 ^ 16 * 2 ^ 16 from rfl, Nat.testBit_mul_two_pow,
    Nat.testBit_mul_two_pow, Nat.testBit_two_pow_sub_one, Nat.testBit_div_two_pow]
  rcases Nat.lt_or_ge i 16 with hi | hi
  · simp [Nat.not_le.2 hi]
  · rcases Nat.lt_or_ge i 32 with hi' | hi'
    · simp [hi, Nat.sub_add_cancel hi, show i - 16 < 16 by omega]
    · have hbit : x.testBit i = false :=
        Nat.testBit_lt_two_pow (h.trans_le (Nat.pow_le_pow_right (by decide) hi'))
      simp [hi, Nat.sub_add_cancel hi, hbit]

/-- What the windows of the classes have in common. -/
structure ClassConfig.Good (config : ClassConfig) : Prop where
  start_pos : 0 < config.start
  start_dvd : pageSize ∣ config.start
  start_le : config.start ≤ config.stop
  stop_lt : config.stop < 2 ^ 32
  align : config.align = pageSize ∨ config.align = 0x10000 ∧ config.stop ≤ 2 ^ 31

theorem good_of_mem {config : ClassConfig} (h : config ∈ classConfigs) : config.Good := by
  simp only [classConfigs, List.mem_cons, List.not_mem_nil, or_false] at h
  rcases h with rfl | rfl | rfl | rfl <;>
    exact ⟨by decide, by decide, by decide, by decide, by decide⟩

theorem ClassConfig.Good.alignAddress {config : ClassConfig} (h : config.Good) (ha : pageSize ∣ a)
    (hle : a ≤ config.stop) : a ≤ vmmAlignAddress a config.align ∧
      config.align ∣ vmmAlignAddress a config.align ∧ pageSize ∣ vmmAlignAddress a config.align ∧
      vmmAlignAddress a config.align < 2 ^ 32 := by
  rcases h.align with hal | ⟨hal, hstop⟩
  · rw [hal, vmmAlignAddress, if_pos le_rfl]
    exact ⟨le_rfl, ha, ha, hle.trans_lt h.stop_lt⟩
  · have hlt : a + (0x10000 - 1) < 2 ^ 32 := by omega
    rw [hal, vmmAlignAddress, if_neg (by decide), u32_of_lt hlt, and_highBits hlt]
    refine ⟨by omega, Nat.dvd_mul_left _ _, Dvd.dvd.mul_left (by decide) _, by omega⟩

/-- Areas that lie one behind the other from `lo` on, up to the hint. -/
def Packed (align stop : ℕ) : ℕ → List Extent → ℕ → Prop
  | lo, [], hint => hint = lo
  | lo, ⟨start, size⟩ :: l, hint => start = vmmAlignAddress lo align ∧ 0 < size ∧ pageSize ∣ size ∧
      start + size ≤ stop ∧ Packed align stop (start + size) l hint

namespace Packed

variable {config : ClassConfig} {lo hint : ℕ} {spans : List Extent}

theorem snoc (h : Packed config.align config.stop lo spans hint)
    (hstart : start = vmmAlignAddress hint config.align) (hpos : 0 < size) (hdvd : pageSize ∣ size)
    (hle : start + size ≤ config.stop) :
    Packed config.align config.stop lo (spans ++ [⟨start, size⟩]) (start + size) := by
  induction spans generalizing lo with
  | nil =>
    obtain rfl : hint = lo := h
    exact ⟨hstart, hpos, hdvd, hle, rfl⟩
  | cons x l ih => exact ⟨h.1, h.2.1, h.2.2.1, h.2.2.2.1, ih h.2.2.2.2⟩

/-- The areas are aligned, behind `lo`, before the hint, and one behind the other. -/
theorem bounds (h : Packed config.align config.stop lo spans hint) (hg : config.Good)
    (hlo : pageSize ∣ lo) (hle : lo ≤ config.stop) :
    pageSize ∣ hint ∧ lo + spans.length * pageSize ≤ hint ∧ hint ≤ config.stop ∧
      (∀ x ∈ spans, lo ≤ x.start ∧ config.align ∣ x.start ∧ 0 < x.len ∧ x.start + x.len ≤ hint) ∧
      spans.Pairwise fun x y => x.start + x.len ≤ y.start := by
  induction spans generalizing lo with
  | nil =>
    obtain rfl : hint = lo := h
    exact ⟨hlo, by simp, hle, by simp, .nil⟩
  | cons x l ih =>
    obtain ⟨hstart, hpos, hdvd, hfit, hrest⟩ := h
    obtain ⟨hge, hal, hpage, -⟩ := hg.alignAddress hlo hle
    rw [← hstart] at hge hal hpage
    obtain ⟨hd, hlen, hh, hall, hpair⟩ := ih hrest (Nat.dvd_add hpage hdvd) hfit
    have hsize : pageSize ≤ x.len := Nat.le_of_dvd hpos hdvd
    refine ⟨hd, ?_, hh, fun y hy => ?_, List.pairwise_cons.2 ⟨fun y hy => (hall y hy).1, hpair⟩⟩
    · have hcons : (x :: l).length = l.length + 1 := rfl
      simp only [pageSize] at hlen hsize ⊢
      omega
    · rcases List.mem_cons.1 hy with rfl | hy
      · exact ⟨hge, hal, hpos, by omega⟩
      · obtain ⟨h₁, h₂, h₃, h₄⟩ := hall y hy
        exact ⟨by omega, h₂, h₃, h₄⟩

end Packed

/-- The extents of the areas `l`. -/
def Vmm.spans (σ : Vmm) (l : List ℕ) : List Extent := l.map fun p => ⟨(σ.area p).start, (σ.area p).size⟩

/-- The areas of class `c` are `l`: a sorted list, packed from the start of the window
to the hint. -/
structure ClassState (σ : Vmm) (c : ℕ) (l : List ℕ) : Prop where
  config : (σ.allocClass c).config ∈ classConfigs
  links : Links σ.areaNext σ.areaPrev (σ.allocClass c).vmaHead l
  packed : Packed (σ.allocClass c).config.align (σ.allocClass c).config.stop
    (σ.allocClass c).config.start (σ.spans l) (σ.allocClass c).hintPtr

/-- Where the class has room next. -/
def classFront (σ : Vmm) (c : ℕ) : ℕ :=
  vmmAlignAddress (σ.allocClass c).hintPtr (σ.allocClass c).config.align

/-- The areas that end before the candidate are skipped. -/
theorem vmmSkipAreas_spec (h : Seg σ.areaNext σ.areaPrev b u l none)
    (hend : ∀ x ∈ σ.spans l, x.start + x.len ≤ a) (ha : a < 2 ^ 32) (hn : l.length < n) :
    vmmSkipAreas a σ n u = some none := by
  induction l generalizing b u n with
  | nil =>
    obtain ⟨m, rfl⟩ := Nat.exists_eq_add_of_lt hn
    obtain rfl : u = none := h
    rfl
  | cons p l ih =>
    obtain ⟨m, rfl⟩ : ∃ m, n = m + 1 := ⟨n - 1, by simp at hn; omega⟩
    obtain ⟨rfl, -, h⟩ := h
    have hp := hend _ List.mem_cons_self
    have hskip : u32 ((σ.area p).start + (σ.area p).size) ≤ a := by
      rw [u32_of_lt (lt_of_le_of_lt hp ha)]
      exact hp
    refine (if_pos hskip).trans ?_
    exact ih h (fun x hx => hend x (List.mem_cons_of_mem _ hx)) (by simp at hn; omega)

/-- The loop of `vmm_find_fit` runs past areas that have no room between them. -/
theorem vmmFitFrom_pass {align stop lo hint : ℕ} {wrapped : Bool}
    (h : Seg σ.areaNext σ.areaPrev b u l none) (halign : (σ.allocClass c).config.align = align)
    (hp : Packed align stop lo (σ.spans l) hint) (hstop : stop < 2 ^ 32) (hsize : 0 < size)
    (hroom : ∀ x ∈ σ.spans l, x.start + size < 2 ^ 32) :
    vmmFitFrom c size σ (l.length + n) (vmmAlignAddress lo align) u wrapped =
      vmmFitFrom c size σ n (vmmAlignAddress hint align) none wrapped := by
  induction l generalizing b u lo with
  | nil =>
    obtain rfl : u = none := h
    obtain rfl : hint = lo := hp
    rw [List.length_nil, Nat.zero_add]
  | cons p l ih =>
    obtain ⟨rfl, -, h⟩ := h
    obtain ⟨hstart, -, -, hle, hp⟩ := hp
    have hlt : (σ.area p).start + size < 2 ^ 32 := hroom _ List.mem_cons_self
    have hfull : ¬ u32 ((σ.area p).start + size) ≤ (σ.area p).start := by
      rw [u32_of_lt hlt]
      omega
    have hstep : vmmFitFrom c size σ (l.length + n + 1) (σ.area p).start (some p) wrapped =
        vmmFitFrom c size σ (l.length + n)
          (vmmAlignAddress ((σ.area p).start + (σ.area p).size) align) (σ.areaNext p) wrapped := by
      refine (if_neg hfull).trans ?_
      rw [halign, u32_of_lt (lt_of_le_of_lt hle hstop)]
      rfl
    rw [← hstart, List.length_cons, Nat.add_right_comm, hstep]
    exact ih h hp fun x hx => hroom x (List.mem_cons_of_mem _ hx)

theorem vmmFindFit_eq : vmmFindFit c size σ =
    (vmmSkipAreas
      (if classFront σ c < (σ.allocClass c).config.start ∨
          u32 (classFront σ c + size) > (σ.allocClass c).config.stop
        then vmmAlignAddress (σ.allocClass c).config.start (σ.allocClass c).config.align
        else classFront σ c) σ vmmSteps (σ.allocClass c).vmaHead).bind fun curr =>
      vmmFitFrom c size σ vmmSteps
        (if classFront σ c < (σ.allocClass c).config.start ∨
            u32 (classFront σ c + size) > (σ.allocClass c).config.stop
          then vmmAlignAddress (σ.allocClass c).config.start (σ.allocClass c).config.align
          else classFront σ c) curr false := rfl

section FindFit

variable (h : ClassState σ c l) (hsize : 0 < size) (hlt : classFront σ c + size < 2 ^ 32)

include h in
theorem ClassState.bounds : pageSize ∣ (σ.allocClass c).hintPtr ∧
    l.length * pageSize ≤ 2 ^ 32 ∧
    (σ.allocClass c).config.start ≤ (σ.allocClass c).hintPtr ∧
    (σ.allocClass c).hintPtr ≤ (σ.allocClass c).config.stop ∧
    (∀ x ∈ σ.spans l, (σ.allocClass c).config.start ≤ x.start ∧ (σ.allocClass c).config.align ∣ x.start ∧
      0 < x.len ∧ x.start + x.len ≤ (σ.allocClass c).hintPtr) ∧
    (σ.spans l).Pairwise fun x y => x.start + x.len ≤ y.start := by
  obtain ⟨hd, hlen, hh, hall, hpair⟩ := h.packed.bounds (good_of_mem h.config)
    (good_of_mem h.config).start_dvd (good_of_mem h.config).start_le
  have hstop := (good_of_mem h.config).stop_lt
  rw [Vmm.spans, List.length_map] at hlen
  exact ⟨hd, by omega, by omega, hh, hall, hpair⟩

include h in
theorem ClassState.length : 2 * l.length + 2 ≤ vmmSteps := by
  have hlen := h.bounds.2.1
  simp only [pageSize, vmmSteps] at *
  omega

include h in
theorem ClassState.front_le : (σ.allocClass c).hintPtr ≤ classFront σ c := by
  obtain ⟨hd, -, -, hle, -⟩ := h.bounds
  exact ((good_of_mem h.config).alignAddress hd hle).1

include h in
/-- The areas of a class are sorted, and all start before the front. -/
theorem ClassState.areaList : AreaList σ c l ∧
    (∀ p ∈ l, (σ.area p).start < classFront σ c) ∧ l.length < vmmSteps := by
  obtain ⟨-, -, -, -, hall, hpair⟩ := h.bounds
  have hmem : ∀ p ∈ l, ⟨(σ.area p).start, (σ.area p).size⟩ ∈ σ.spans l := fun p hp =>
    List.mem_map_of_mem hp
  have hlen := h.length
  refine ⟨⟨h.links, ?_, by omega⟩, fun p hp => ?_, by omega⟩
  · refine (List.pairwise_map.1 hpair).imp_of_mem fun {p q} hp _ hle => ?_
    have hpos := (hall _ (hmem p hp)).2.2.1
    simp only at hle hpos
    omega
  · obtain ⟨-, -, hpos, hle⟩ := hall _ (hmem p hp)
    have hfront := h.front_le
    simp only at hpos hle
    omega

include h hlt in
/-- **`vmm_find_fit`** finds room behind all areas, when the window reaches that far and
the validator agrees. -/
theorem vmmFindFit_fits (hfit : classFront σ c + size ≤ (σ.allocClass c).config.stop)
    (hvalid : (σ.allocClass c).config.valid (classFront σ c) size = true) :
    vmmFindFit c size σ = some (classFront σ c) := by
  obtain ⟨-, -, hstart, -, hall, -⟩ := h.bounds
  have hfront := h.front_le
  have hlen := h.length
  have hskip : vmmSkipAreas (classFront σ c) σ vmmSteps (σ.allocClass c).vmaHead = some none :=
    vmmSkipAreas_spec h.links (fun x hx => (hall x hx).2.2.2.trans hfront) (by omega) (by omega)
  have hcand : ¬ (classFront σ c < (σ.allocClass c).config.start ∨
      u32 (classFront σ c + size) > (σ.allocClass c).config.stop) := by
    rw [u32_of_lt hlt]
    omega
  have hfits : u32 (classFront σ c + size) ≤ (σ.allocClass c).config.stop := by
    rw [u32_of_lt hlt]
    exact hfit
  rw [vmmFindFit_eq, if_neg hcand, hskip]
  exact (if_pos hfits).trans (if_pos hvalid)

include h hsize hlt in
/-- **`vmm_find_fit`** finds no room when the window does not reach that far. -/
theorem vmmFindFit_full (hfull : (σ.allocClass c).config.stop < classFront σ c + size) :
    vmmFindFit c size σ = some 0 := by
  obtain ⟨hd, -, hstart, hle, hall, -⟩ := h.bounds
  have hfront := h.front_le
  have hlen := h.length
  have hg := good_of_mem h.config
  have hroom : ∀ x ∈ σ.spans l, x.start + size < 2 ^ 32 := fun x hx => by
    have hx := hall x hx
    omega
  have hcand : classFront σ c < (σ.allocClass c).config.start ∨
      u32 (classFront σ c + size) > (σ.allocClass c).config.stop := by
    rw [u32_of_lt hlt]
    exact .inr hfull
  -- the first area starts where the window does, so none is skipped
  have hskip : vmmSkipAreas (vmmAlignAddress (σ.allocClass c).config.start
      (σ.allocClass c).config.align) σ vmmSteps (σ.allocClass c).vmaHead =
        some (σ.allocClass c).vmaHead := by
    have hlinks := h.links
    have hpacked := h.packed
    cases l with
    | nil =>
      have hnone : (σ.allocClass c).vmaHead = none := hlinks
      rw [hnone]
      rfl
    | cons p l =>
      obtain ⟨hhead, -⟩ := hlinks
      obtain ⟨hp, hpos, -, hfit, -⟩ := hpacked
      rw [hhead]
      refine if_neg ?_
      rw [u32_of_lt (lt_of_le_of_lt hfit hg.stop_lt)]
      omega
  have hnot : ¬ u32 (classFront σ c + size) ≤ (σ.allocClass c).config.stop := by
    rw [u32_of_lt hlt]
    omega
  rw [vmmFindFit_eq, if_pos hcand, hskip, Option.bind_some]
  obtain ⟨m, hm⟩ : ∃ m, vmmSteps = l.length + (l.length + (m + 1) + 1) :=
    ⟨vmmSteps - (2 * l.length + 2), by omega⟩
  rw [hm, vmmFitFrom_pass h.links rfl h.packed hg.stop_lt hsize hroom]
  refine (if_neg hnot).trans ?_
  refine (vmmFitFrom_pass h.links rfl h.packed hg.stop_lt hsize hroom).trans ?_
  exact if_neg hnot

end FindFit

end Flopperating
