/-
# Runs of class allocations

The four windows of a region overlap: those of DMA and user memory, and those of
kernel and MMIO memory.  Class allocations stay apart as long as the classes grow
towards each other but do not meet (`Request.Clear`); then every sequence of calls
keeps the lists and hands out extents that are apart (`class_allocations_apart`).

Between two calls memory, the physical allocator and the descriptors that are not in
use may change in any way (`Others`).
-/

import Flopperating.Data.Transition
import Flopperating.Mem.VmmClassSpec

namespace Flopperating

open Transition DoublyLinked LinkedList Vmm

variable {σ σ' σ₁ : Vmm} {c d i n p q r va pa : ℕ} {l objects cs : List ℕ} {ls : ℕ → List ℕ} {status : ℤ}

/-! ### What the calls on pages leave alone -/

theorem vmmMapTable_same (h : vmmMapTable r i σ = some (status, σ')) : SameDescriptors σ σ' := by
  rw [vmmMapTable] at h
  split at h
  · obtain ⟨-, rfl⟩ := Prod.mk.inj (Option.some.inj h)
    exact .refl σ
  · rcases hfree : σ.freePages with - | ⟨t, free⟩
    · simp only [Vmm.allocPage, hfree, if_true] at h
      obtain ⟨-, rfl⟩ := Prod.mk.inj (Option.some.inj h)
      exact .refl σ
    · simp only [Vmm.allocPage, hfree] at h
      split at h
      · obtain ⟨-, rfl⟩ := Prod.mk.inj (Option.some.inj h)
        exact ⟨rfl, rfl, rfl, rfl, rfl, rfl, rfl⟩
      · obtain ⟨pt, -, h⟩ := Option.bind_eq_some_iff.1 h
        obtain ⟨-, rfl⟩ := Prod.mk.inj (Option.some.inj h)
        exact ⟨rfl, rfl, rfl, rfl, rfl, rfl, rfl⟩

theorem vmmMap_same {flags : ℕ} (h : vmmMap r va pa flags σ = some (status, σ')) :
    SameDescriptors σ σ' := by
  obtain ⟨⟨status₁, σ₁⟩, hrun, h⟩ := Option.bind_eq_some_iff.1 h
  refine (vmmMapTable_same hrun).trans ?_
  change (if status₁ < 0 then _ else _) = _ at h
  split at h
  · obtain ⟨-, rfl⟩ := Prod.mk.inj (Option.some.inj h)
    exact .refl _
  · obtain ⟨pt, -, h⟩ := Option.bind_eq_some_iff.1 h
    obtain ⟨-, rfl⟩ := Prod.mk.inj (Option.some.inj h)
    exact ⟨rfl, rfl, rfl, rfl, rfl, rfl, rfl⟩

theorem vmmUnmap_same (h : vmmUnmap r va σ = some (status, σ')) : SameDescriptors σ σ' := by
  rw [vmmUnmap] at h
  split at h
  · obtain ⟨pt, -, h⟩ := Option.bind_eq_some_iff.1 h
    obtain ⟨-, rfl⟩ := Prod.mk.inj (Option.some.inj h)
    exact ⟨rfl, rfl, rfl, rfl, rfl, rfl, rfl⟩
  · obtain ⟨-, rfl⟩ := Prod.mk.inj (Option.some.inj h)
    exact .refl σ

theorem vmmUnmapRangeFrom_same (h : vmmUnmapRangeFrom r va n i σ = some (status, σ')) :
    SameDescriptors σ σ' := by
  induction n generalizing i σ with
  | zero =>
    obtain ⟨-, rfl⟩ := Prod.mk.inj (Option.some.inj h)
    exact .refl σ
  | succ n ih =>
    obtain ⟨⟨status₁, σ₁⟩, hrun, h⟩ := Option.bind_eq_some_iff.1 h
    refine (vmmUnmap_same hrun).trans ?_
    change (if status₁ < 0 then _ else _) = _ at h
    split at h
    · obtain ⟨-, rfl⟩ := Prod.mk.inj (Option.some.inj h)
      exact .refl _
    · exact ih h

theorem vmmMapFresh_same {checked : Bool} {flags : ℕ} {e : LoopEnd}
    (h : vmmMapFresh checked r va flags n i σ = some (e, σ')) : SameDescriptors σ σ' := by
  induction n generalizing i σ with
  | zero =>
    obtain ⟨-, rfl⟩ := Prod.mk.inj (Option.some.inj h)
    exact .refl σ
  | succ n ih =>
    have halloc : SameDescriptors σ σ.allocPage.2 := by
      rw [Vmm.allocPage]
      split <;> exact ⟨rfl, rfl, rfl, rfl, rfl, rfl, rfl⟩
    rw [vmmMapFresh] at h
    refine halloc.trans ?_
    change (if σ.allocPage.1 = 0 then _ else _) = _ at h
    split at h
    · obtain ⟨-, rfl⟩ := Prod.mk.inj (Option.some.inj h)
      exact .refl _
    · obtain ⟨⟨status₁, σ₁⟩, hrun, h⟩ := Option.bind_eq_some_iff.1 h
      refine (vmmMap_same hrun).trans ?_
      change (if (checked && status₁ < 0) = true then _ else _) = _ at h
      split at h
      · obtain ⟨-, rfl⟩ := Prod.mk.inj (Option.some.inj h)
        exact .refl _
      · exact ih h

/-- **`vmm_map_pages`** changes no descriptor. -/
theorem vmmMapPages_same (h : vmmMapPages r c va n σ = some (status, σ')) : SameDescriptors σ σ' := by
  obtain ⟨⟨e, σ₁⟩, hrun, h⟩ := Option.bind_eq_some_iff.1 h
  refine (vmmMapFresh_same hrun).trans ?_
  cases e with
  | done =>
    obtain ⟨-, rfl⟩ := Prod.mk.inj (Option.some.inj h)
    exact .refl _
  | noPage i =>
    obtain ⟨⟨status₁, σ₂⟩, hundo, h⟩ := Option.bind_eq_some_iff.1 h
    obtain ⟨-, rfl⟩ := Prod.mk.inj (Option.some.inj h)
    exact vmmUnmapRangeFrom_same hundo
  | noTable i pa =>
    obtain ⟨⟨status₁, σ₂⟩, hundo, h⟩ := Option.bind_eq_some_iff.1 h
    obtain ⟨-, rfl⟩ := Prod.mk.inj (Option.some.inj h)
    have hfree : SameDescriptors σ₁ (σ₁.freePage pa) := by
      rw [Vmm.freePage]
      split <;> exact ⟨rfl, rfl, rfl, rfl, rfl, rfl, rfl⟩
    exact hfree.trans (vmmUnmapRangeFrom_same hundo)

/-! ### The classes of a region -/

/-- The type of a class. -/
def Vmm.classType (σ : Vmm) (c : ℕ) : VmClass := (σ.allocClass c).config.type

/-- The classes of region `r` are `cs`, of different types, and the areas of class `c`
are `ls c`. -/
structure Classes (σ : Vmm) (r : ℕ) (cs : List ℕ) (ls : ℕ → List ℕ) : Prop where
  chain : Chain (fun c => (σ.allocClass c).next) (σ.region r).classList cs
  short : cs.length ≤ 4
  types : cs.Pairwise fun c d => σ.classType c ≠ σ.classType d
  state : ∀ c ∈ cs, ClassState σ c (ls c)
  nodes : ∀ c ∈ cs, ∀ d ∈ cs, c ≠ d → List.Disjoint (ls c) (ls d)

/-- The free descriptors are different, and none is in use. -/
structure Fresh (σ : Vmm) (cs : List ℕ) (ls : ℕ → List ℕ) : Prop where
  nodup : σ.objects.Nodup
  not_class : ∀ p ∈ σ.objects, p ∉ cs
  not_area : ∀ p ∈ σ.objects, ∀ c ∈ cs, p ∉ ls c

theorem Fresh.congr (h : Fresh σ cs ls) (ho : σ'.objects = σ.objects) : Fresh σ' cs ls :=
  ⟨ho ▸ h.nodup, fun p hp => h.not_class p (ho ▸ hp), fun p hp => h.not_area p (ho ▸ hp)⟩

/-- The first descriptor is in use now. -/
theorem Fresh.take (h : Fresh σ cs ls) (ho : σ.objects = p :: objects) (ho' : σ'.objects = objects) :
    Fresh σ' cs (Function.update ls c (ls c ++ [p])) := by
  have hnd := List.nodup_cons.1 (ho ▸ h.nodup)
  have hmem : ∀ q ∈ objects, q ∈ σ.objects := fun q hq => ho ▸ List.mem_cons_of_mem _ hq
  refine ⟨ho' ▸ hnd.2, fun q hq => h.not_class q (hmem q (ho' ▸ hq)), fun q hq d hd => ?_⟩
  rw [ho'] at hq
  rcases eq_or_ne d c with rfl | hdc
  · rw [Function.update_self, List.mem_append, List.mem_singleton, not_or]
    exact ⟨h.not_area q (hmem q hq) d hd, ne_of_mem_of_not_mem hq hnd.1⟩
  · rw [Function.update_of_ne hdc]
    exact h.not_area q (hmem q hq) d hd

theorem ClassState.congr (h : ClassState σ c l) (hc : σ'.allocClass c = σ.allocClass c)
    (harea : ∀ p ∈ l, σ'.area p = σ.area p) : ClassState σ' c l ∧ σ'.spans l = σ.spans l := by
  have hspans : σ'.spans l = σ.spans l := List.map_congr_left fun p hp => by rw [harea p hp]
  refine ⟨⟨hc ▸ h.config, ?_, ?_⟩, hspans⟩
  · rw [hc]
    exact h.links.congr (fun p hp => congrArg Area.next (harea p hp))
      fun p hp => congrArg Area.prev (harea p hp)
  · rw [hc, hspans]
    exact h.packed

/-- One class has changed, and the others have not. -/
theorem Classes.update (h : Classes σ r cs ls) (hc : c ∈ cs)
    (hlist : (σ'.region r).classList = (σ.region r).classList)
    (hother : ∀ d, d ≠ c → σ'.allocClass d = σ.allocClass d)
    (hnext : (σ'.allocClass c).next = (σ.allocClass c).next)
    (hconfig : (σ'.allocClass c).config = (σ.allocClass c).config)
    (harea : ∀ d ∈ cs, d ≠ c → ∀ p ∈ ls d, σ'.area p = σ.area p) (hstate : ClassState σ' c l)
    (hdisj : ∀ d ∈ cs, d ≠ c → List.Disjoint l (ls d)) :
    Classes σ' r cs (Function.update ls c l) := by
  have htype : σ'.classType = σ.classType := funext fun d => by
    rcases eq_or_ne d c with rfl | hd
    · exact congrArg ClassConfig.type hconfig
    · rw [Vmm.classType, hother d hd, Vmm.classType]
  refine ⟨?_, h.short, ?_, fun d hd => ?_, fun d hd e he hde => ?_⟩
  · rw [hlist]
    refine LinkedList.Seg.congr h.chain fun d hd => ?_
    rcases eq_or_ne d c with rfl | hdc
    · exact hnext
    · exact congrArg AllocClass.next (hother d hdc)
  · rw [htype]
    exact h.types
  · rcases eq_or_ne d c with rfl | hdc
    · rwa [Function.update_self]
    · rw [Function.update_of_ne hdc]
      exact ((h.state d hd).congr (hother d hdc) (harea d hd hdc)).1
  · rcases eq_or_ne d c with rfl | hdc
    · rw [Function.update_self, Function.update_of_ne (Ne.symm hde)]
      exact hdisj e he (Ne.symm hde)
    · rw [Function.update_of_ne hdc]
      rcases eq_or_ne e c with rfl | hec
      · rw [Function.update_self]
        exact (hdisj d hd hdc).symm
      · rw [Function.update_of_ne hec]
        exact h.nodes d hd e he hde

/-- **`vmm_class_get`** finds the class of a type. -/
theorem vmmClassGet_spec (h : Classes σ r cs ls) (type : VmClass) :
    vmmClassGet r type σ = some (cs.find? fun c => σ.classType c = type) := by
  have hseek : ∀ n u, LinkedList.Seg (fun c => (σ.allocClass c).next) u cs none → cs.length < n →
      vmmClassSeek type σ n u = some (cs.find? fun c => σ.classType c = type) := by
    clear h
    induction cs with
    | nil =>
      intro n u hseg hn
      obtain ⟨m, rfl⟩ := Nat.exists_eq_add_of_lt hn
      obtain rfl : u = none := hseg
      rfl
    | cons c cs ih =>
      intro n u hseg hn
      obtain ⟨m, rfl⟩ : ∃ m, n = m + 1 := ⟨n - 1, by simp at hn; omega⟩
      obtain ⟨rfl, hseg⟩ := hseg
      rcases eq_or_ne (σ.classType c) type with heq | hne
      · rw [List.find?_cons_of_pos (by simpa using heq)]
        exact if_pos heq
      · rw [List.find?_cons_of_neg (by simpa using hne)]
        exact (if_neg hne).trans (ih m _ hseg (by simp at hn; omega))
  refine hseek _ _ h.chain ?_
  have hshort := h.short
  simp only [vmmSteps]
  omega

/-- The new area is the last of its class. -/
theorem vmmInsertArea_last (h : ClassState σ c l) (ho : σ.objects = p :: objects)
    (hp : p ∉ l) (size : ℕ) : ∃ σ', vmmInsertArea c (classFront σ c) size σ = some (0, σ') ∧
      Links σ'.areaNext σ'.areaPrev (σ'.allocClass c).vmaHead (l ++ [p]) ∧
      Relinked (σ.newArea p (classFront σ c) size objects) σ' c (p :: l) ∧ σ'.objects = objects := by
  obtain ⟨hlist, hbefore, -⟩ := h.areaList
  obtain ⟨σ', l₁, l₂, hrun, rfl, -, hafter, hlinks, hr, hobj⟩ :=
    vmmInsertArea_spec hlist ho hp size fun q hq => (hbefore q hq).ne
  have hnil : l₂ = [] := List.eq_nil_iff_forall_not_mem.2 fun q hq =>
    absurd (hafter q hq) (hbefore q (List.mem_append_right _ hq)).not_gt
  subst hnil
  rw [List.append_nil] at hr ⊢
  exact ⟨σ', hrun, hlinks, hr, hobj⟩

/-- The state in which the area `p` has just been linked behind the areas `l` of
class `c`, whatever has happened to the pages. -/
structure Appended (σ σ₁ : Vmm) (c p size : ℕ) (l objects : List ℕ) : Prop where
  links : Links σ₁.areaNext σ₁.areaPrev (σ₁.allocClass c).vmaHead (l ++ [p])
  region : σ₁.region = σ.region
  objects : σ₁.objects = objects
  allocClass : ∀ d, d ≠ c → σ₁.allocClass d = σ.allocClass d
  config : (σ₁.allocClass c).config = (σ.allocClass c).config
  hintPtr : (σ₁.allocClass c).hintPtr = (σ.allocClass c).hintPtr
  nextClass : (σ₁.allocClass c).next = (σ.allocClass c).next
  area : ∀ q, q ∉ p :: l → σ₁.area q = σ.area q
  start : ∀ q ∈ l, (σ₁.area q).start = (σ.area q).start
  spans : σ₁.spans l = σ.spans l
  new : (σ₁.area p).start = classFront σ c ∧ (σ₁.area p).size = size

theorem Relinked.appended (h : Relinked (σ.newArea p (classFront σ c) n objects) σ₁ c (p :: l))
    (hlinks : Links σ₁.areaNext σ₁.areaPrev (σ₁.allocClass c).vmaHead (l ++ [p]))
    (hobj : σ₁.objects = objects) (hp : p ∉ l) : Appended σ σ₁ c p n l objects := by
  have hold : ∀ q, q ≠ p → (σ.newArea p (classFront σ c) n objects).area q = σ.area q := fun q hq =>
    Function.update_of_ne hq _ _
  have hself : (σ.newArea p (classFront σ c) n objects).area p = ⟨classFront σ c, n, none, none⟩ :=
    Function.update_self ..
  have hspan : ∀ q ∈ l, (σ₁.area q).start = (σ.area q).start ∧ (σ₁.area q).size = (σ.area q).size :=
    fun q hq => by
      rw [← hold q (ne_of_mem_of_not_mem hq hp)]
      exact h.span q
  refine ⟨hlinks, h.region, hobj, h.allocClass, h.config, h.hintPtr, h.nextClass, fun q hq => ?_,
    fun q hq => (hspan q hq).1, List.map_congr_left fun q hq => ?_, ?_⟩
  · exact (h.area q hq).trans (hold q fun he => hq (he ▸ List.mem_cons_self))
  · rw [(hspan q hq).1, (hspan q hq).2]
  · have hnew := h.span p
    rwa [hself] at hnew

theorem Appended.same (h : Appended σ σ₁ c p n l objects) (hs : SameDescriptors σ₁ σ') :
    Appended σ σ' c p n l objects := by
  obtain ⟨h₁, h₂, h₃, h₄, h₅, h₆, h₇, h₈, h₉, h₁₀, h₁₁⟩ := h
  have hspans : ∀ k, σ'.spans k = σ₁.spans k := fun k => by rw [Vmm.spans, hs.area, Vmm.spans]
  have hnext : σ'.areaNext = σ₁.areaNext := funext fun q => by rw [Vmm.areaNext, hs.area, Vmm.areaNext]
  have hprev : σ'.areaPrev = σ₁.areaPrev := funext fun q => by rw [Vmm.areaPrev, hs.area, Vmm.areaPrev]
  refine ⟨?_, hs.region.trans h₂, hs.objects.trans h₃, ?_, ?_, ?_, ?_, ?_, ?_, ?_, ?_⟩
  · rwa [hnext, hprev, hs.allocClass]
  all_goals simp only [hs.allocClass, hs.area, hspans]
  all_goals assumption

/-- What a class allocation does to the lists: nothing, or one area more. -/
inductive Allocated (σ σ' : Vmm) (r : ℕ) (cs : List ℕ) (ls : ℕ → List ℕ) (type : VmClass)
    (size : ℕ) : ℕ → Prop
  | failed : Classes σ' r cs ls → Fresh σ' cs ls →
    (∀ d ∈ cs, σ'.allocClass d = σ.allocClass d ∧ σ'.spans (ls d) = σ.spans (ls d)) →
    Allocated σ σ' r cs ls type size 0
  | done (c p : ℕ) : c ∈ cs → σ.classType c = type →
    classFront σ c + size ≤ (σ.allocClass c).config.stop →
    Classes σ' r cs (Function.update ls c (ls c ++ [p])) →
    Fresh σ' cs (Function.update ls c (ls c ++ [p])) →
    σ'.spans (ls c ++ [p]) = σ.spans (ls c) ++ [⟨classFront σ c, size⟩] →
    (∀ d ∈ cs, (σ'.allocClass d).config = (σ.allocClass d).config ∧
      (d ≠ c → σ'.spans (ls d) = σ.spans (ls d))) →
    Allocated σ σ' r cs ls type size (classFront σ c)

/-- The request fits behind the areas of its class, or the window does not reach that
far: no address wraps, the validator agrees, and it does not run into what the other
classes have handed out, which is between their start and their hint. -/
def ClearRequest (σ : Vmm) (r : ℕ) (type : VmClass) (pages : ℕ) : Prop :=
  pages * pageSize < 2 ^ 32 ∧ ∀ c, vmmClassGet r type σ = some (some c) →
    classFront σ c + pages * pageSize < 2 ^ 32 ∧
    (classFront σ c + pages * pageSize ≤ (σ.allocClass c).config.stop →
      (σ.allocClass c).config.valid (classFront σ c) (pages * pageSize) = true ∧
      ∀ other d, vmmClassGet r other σ = some (some d) → d ≠ c →
        classFront σ c + pages * pageSize ≤ (σ.allocClass d).config.start ∨
        (σ.allocClass d).hintPtr ≤ classFront σ c ∨
        (σ.allocClass d).hintPtr ≤ (σ.allocClass d).config.start)

/-- Nothing that the classes consist of has changed. -/
theorem Classes.congr (h : Classes σ r cs ls)
    (hlist : (σ'.region r).classList = (σ.region r).classList)
    (hclass : ∀ d ∈ cs, σ'.allocClass d = σ.allocClass d)
    (harea : ∀ d ∈ cs, ∀ p ∈ ls d, σ'.area p = σ.area p) : Classes σ' r cs ls where
  chain := by
    rw [hlist]
    exact LinkedList.Seg.congr h.chain fun d hd => congrArg AllocClass.next (hclass d hd)
  short := h.short
  types := h.types.imp_of_mem fun {c d} hc hd hne => by
    rwa [Vmm.classType, Vmm.classType, hclass c hc, hclass d hd]
  state d hd := ((h.state d hd).congr (hclass d hd) (harea d hd)).1
  nodes := h.nodes

theorem AllocClass.eq_of_fields {x y : AllocClass} (h₁ : x.config = y.config)
    (h₂ : x.vmaHead = y.vmaHead) (h₃ : x.hintPtr = y.hintPtr) (h₄ : x.next = y.next) : x = y := by
  cases x
  cases y
  simp_all

section Append

variable (h : Classes σ r cs ls) (hc : c ∈ cs) (hobj : p ∉ ls c ∧ ∀ d ∈ cs, p ∉ ls d)
  (ha : Appended σ σ₁ c p n (ls c) objects)

include h hc hobj ha in
theorem Appended.other (hd : d ∈ cs) (hdc : d ≠ c) : ∀ q ∈ ls d, σ₁.area q = σ.area q := fun q hq =>
  ha.area q fun hmem => (List.mem_cons.1 hmem).elim (fun he => hobj.2 d hd (he ▸ hq))
    fun hqc => h.nodes d hd c hc hdc hq hqc

include h hc hobj ha in
/-- The allocation is complete: the hint moves behind the new area. -/
theorem Appended.complete (hn : 0 < n) (hdvd : pageSize ∣ n)
    (hfit : classFront σ c + n ≤ (σ.allocClass c).config.stop) :
    Classes (σ₁.setHintPtr c (classFront σ c + n)) r cs (Function.update ls c (ls c ++ [p])) ∧
      (σ₁.setHintPtr c (classFront σ c + n)).spans (ls c ++ [p]) =
        σ.spans (ls c) ++ [⟨classFront σ c, n⟩] ∧
      ∀ d ∈ cs, ((σ₁.setHintPtr c (classFront σ c + n)).allocClass d).config =
          (σ.allocClass d).config ∧
        (d ≠ c → (σ₁.setHintPtr c (classFront σ c + n)).spans (ls d) = σ.spans (ls d)) := by
  have hother := fun d hd hdc => ha.other h hc hobj (d := d) hd hdc
  generalize hσ' : σ₁.setHintPtr c (classFront σ c + n) = σ'
  have hself : σ'.allocClass c = { σ₁.allocClass c with hintPtr := classFront σ c + n } := by
    rw [← hσ']
    exact Function.update_self ..
  have hne : ∀ d, d ≠ c → σ'.allocClass d = σ.allocClass d := fun d hd => by
    rw [← hσ', ← ha.allocClass d hd]
    exact Function.update_of_ne hd _ _
  have harea : σ'.area = σ₁.area := by rw [← hσ']; rfl
  have hspans : σ'.spans (ls c ++ [p]) = σ.spans (ls c) ++ [⟨classFront σ c, n⟩] := by
    rw [← ha.spans, Vmm.spans, Vmm.spans, List.map_append, harea, List.map_singleton, ha.new.1,
      ha.new.2]
  have hstate := h.state c hc
  refine ⟨h.update hc ?_ hne ?_ ?_ ?_ ⟨?_, ?_, ?_⟩ ?_, hspans, fun d hd => ⟨?_, fun hdc => ?_⟩⟩
  · rw [← hσ']
    exact congrArg (fun f => (f r).classList) ha.region
  · rw [hself]
    exact ha.nextClass
  · rw [hself]
    exact ha.config
  · rw [harea]
    exact hother
  · rw [hself, ha.config]
    exact hstate.config
  · rw [hself]
    refine ha.links.congr (fun q _ => ?_) fun q _ => ?_
    · rw [Vmm.areaNext, harea, Vmm.areaNext]
    · rw [Vmm.areaPrev, harea, Vmm.areaPrev]
  · rw [hspans, hself, ha.config]
    exact hstate.packed.snoc rfl hn hdvd hfit
  · intro d hd hdc q hq hqd
    rcases List.mem_append.1 hq with hq | hq
    · exact h.nodes c hc d hd (Ne.symm hdc) hq hqd
    · rw [List.mem_singleton] at hq
      exact hobj.2 d hd (hq ▸ hqd)
  · rcases eq_or_ne d c with rfl | hdc
    · rw [hself, ha.config]
    · rw [hne d hdc]
  · exact List.map_congr_left fun q hq => by rw [harea, hother d hd hdc q hq]

theorem Area.eq_of_fields {x y : Area} (h₁ : x.start = y.start) (h₂ : x.size = y.size)
    (h₃ : x.next = y.next) (h₄ : x.prev = y.prev) : x = y := by
  cases x
  cases y
  simp_all

include h hc ha in
/-- `vmm_remove_area` restores every descriptor but that of the new area. -/
theorem Appended.restored : ∃ σ', vmmRemoveArea c (classFront σ c) σ₁ = some σ' ∧
    Relinked σ₁ σ' c (ls c ++ [p]) ∧ σ'.objects = p :: objects ∧ σ'.allocClass = σ.allocClass ∧
    (∀ q, q ≠ p → σ'.area q = σ.area q) := by
  have hstate := h.state c hc
  obtain ⟨-, hbefore, hlen⟩ := hstate.areaList
  obtain ⟨σ', hrun, hlinks, hr, ho⟩ := vmmRemoveArea_spec
    (ha.links : Links _ _ _ (ls c ++ p :: [])) ha.new.1
    (fun q hq => (ha.start q hq).trans_ne (hbefore q hq).ne) hlen
  rw [List.append_nil] at hlinks
  refine ⟨σ', hrun, hr, ho.trans (congrArg _ ha.objects), funext fun d => ?_, fun q hq => ?_⟩
  · rcases eq_or_ne d c with rfl | hdc
    · refine AllocClass.eq_of_fields (hr.config.trans ha.config) ?_ (hr.hintPtr.trans ha.hintPtr)
        (hr.nextClass.trans ha.nextClass)
      rw [hlinks.head_eq, hstate.links.head_eq]
    · exact (hr.allocClass d hdc).trans (ha.allocClass d hdc)
  · by_cases hql : q ∈ ls c
    · have hspan : (⟨(σ₁.area q).start, (σ₁.area q).size⟩ : Extent) =
          ⟨(σ.area q).start, (σ.area q).size⟩ := List.map_inj_left.1 ha.spans q hql
      obtain ⟨hstart, hsize⟩ := Extent.mk.inj hspan
      obtain ⟨hnext, hprev⟩ := Links.fields_eq hstate.links hlinks hql
      exact Area.eq_of_fields ((hr.span q).1.trans hstart) ((hr.span q).2.trans hsize) hnext hprev
    · have hnot : q ∉ p :: ls c := fun hmem => (List.mem_cons.1 hmem).elim hq hql
      exact (hr.area q fun hmem => hnot (by simpa [or_comm] using hmem)).trans (ha.area q hnot)

include h hc hobj ha in
/-- The allocation is given up: `vmm_remove_area` restores the lists. -/
theorem Appended.undo : ∃ σ', vmmRemoveArea c (classFront σ c) σ₁ = some σ' ∧ Classes σ' r cs ls ∧
    σ'.objects = p :: objects ∧
    ∀ d ∈ cs, σ'.allocClass d = σ.allocClass d ∧ σ'.spans (ls d) = σ.spans (ls d) := by
  obtain ⟨σ', hrun, hr, ho, hclass, harea⟩ := ha.restored h hc
  have hkept : ∀ d ∈ cs, ∀ q ∈ ls d, σ'.area q = σ.area q := fun d hd q hq =>
    harea q (ne_of_mem_of_not_mem hq (hobj.2 d hd))
  refine ⟨σ', hrun, h.congr ?_ (fun d _ => congrFun hclass d) hkept, ho, fun d hd =>
    ⟨congrFun hclass d, List.map_congr_left fun q hq => by rw [hkept d hd q hq]⟩⟩
  exact congrArg (fun f => (f r).classList) (hr.region.trans ha.region)

end Append

/-- **`vmm_class_alloc`** hands out what comes behind the areas of the class, or fails
and leaves the lists as they were. -/
theorem vmmClassAlloc_fits (h : Classes σ r cs ls) (hf : Fresh σ cs ls) {type : VmClass} {pages v : ℕ}
    (hpos : 0 < pages) (hwrap : pages * pageSize < 2 ^ 32)
    (hclear : ∀ c, vmmClassGet r type σ = some (some c) → classFront σ c + pages * pageSize < 2 ^ 32 ∧
      (classFront σ c + pages * pageSize ≤ (σ.allocClass c).config.stop →
        (σ.allocClass c).config.valid (classFront σ c) (pages * pageSize) = true))
    (hrun : vmmClassAlloc r type pages σ = some (v, σ')) :
    Allocated σ σ' r cs ls type (pages * pageSize) v := by
  have hget := vmmClassGet_spec h type
  rw [vmmClassAlloc, hget] at hrun
  have hnothing : ∀ {σ' : Vmm}, σ' = σ → Allocated σ σ' r cs ls type (pages * pageSize) 0 := by
    rintro _ rfl
    exact .failed h hf fun _ _ => ⟨rfl, rfl⟩
  rcases hfind : cs.find? (fun c => decide (σ.classType c = type)) with - | c
  · rw [hfind] at hrun
    obtain ⟨rfl, rfl⟩ := Prod.mk.inj (Option.some.inj hrun)
    exact hnothing rfl
  · rw [hfind] at hrun hget
    have hc := List.mem_of_find?_eq_some hfind
    have htype : σ.classType c = type := by simpa using List.find?_some hfind
    have hstate := h.state c hc
    obtain ⟨hlt, hclear⟩ := hclear c hget
    have hsize : 0 < pages * pageSize := Nat.mul_pos hpos (by decide)
    have hgood := good_of_mem hstate.config
    replace hrun : (vmmFindFit c (u32 (pages * pageSize)) σ).bind _ = _ := hrun
    rw [u32_of_lt hwrap] at hrun
    rcases Nat.lt_or_ge (σ.allocClass c).config.stop (classFront σ c + pages * pageSize) with
      hfull | hfit
    · rw [vmmFindFit_full hstate hsize hlt hfull] at hrun
      obtain ⟨rfl, rfl⟩ := Prod.mk.inj (Option.some.inj hrun)
      exact hnothing rfl
    · have hfront : classFront σ c ≠ 0 := by
        have h₁ := hstate.front_le
        have h₂ := hstate.bounds.2.2.1
        have h₃ := hgood.start_pos
        omega
      rw [vmmFindFit_fits hstate hlt hfit (hclear hfit)] at hrun
      replace hrun := (if_neg hfront).symm.trans hrun
      obtain ⟨⟨status, σ₁⟩, hinsert, hrun⟩ := Option.bind_eq_some_iff.1 hrun
      rcases hobj : σ.objects with - | ⟨p, objects⟩
      · have hnone : vmmInsertArea c (classFront σ c) (pages * pageSize) σ = some (-1, σ) := by
          rw [vmmInsertArea, Vmm.kmalloc, hobj]
        obtain ⟨rfl, rfl⟩ := Prod.mk.inj (Option.some.inj (hinsert.symm.trans hnone))
        obtain ⟨rfl, rfl⟩ := Prod.mk.inj (Option.some.inj hrun)
        exact hnothing rfl
      · have hp : p ∈ σ.objects := hobj ▸ List.mem_cons_self
        have hpc := hf.not_area p hp
        have hnd := List.nodup_cons.1 (hobj ▸ hf.nodup)
        obtain ⟨σ₁', hinsert', hlinks, hr, ho⟩ :=
          vmmInsertArea_last hstate hobj (hpc c hc) (pages * pageSize)
        obtain ⟨rfl, rfl⟩ := Prod.mk.inj (Option.some.inj (hinsert.symm.trans hinsert'))
        obtain ⟨⟨status, σ₂⟩, hmap, hrun⟩ := Option.bind_eq_some_iff.1 hrun
        have ha := (hr.appended hlinks ho (hpc c hc)).same (vmmMapPages_same hmap)
        replace hrun : (if status ≠ 0 then _ else _) = _ := hrun
        split at hrun
        · obtain ⟨σ₃, hremove, hrun⟩ := Option.bind_eq_some_iff.1 hrun
          obtain ⟨σ₃', hremove', hclasses, hobjects, hsame⟩ := ha.undo h hc ⟨hpc c hc, hpc⟩
          obtain rfl := Option.some.inj (hremove.symm.trans hremove')
          obtain ⟨rfl, rfl⟩ := Prod.mk.inj (Option.some.inj hrun)
          exact .failed hclasses (hf.congr (hobjects.trans hobj.symm)) hsame
        · obtain ⟨rfl, rfl⟩ := Prod.mk.inj (Option.some.inj hrun)
          rw [u32_of_lt hlt]
          obtain ⟨hclasses, hspans, hsame⟩ :=
            ha.complete h hc ⟨hpc c hc, hpc⟩ hsize (Nat.dvd_mul_left _ _) hfit
          exact .done c p hc htype hfit hclasses (hf.take hobj ha.objects) hspans hsame

theorem vmmClassAlloc_spec (h : Classes σ r cs ls) (hf : Fresh σ cs ls) {type : VmClass} {pages v : ℕ}
    (hpos : 0 < pages) (hclear : ClearRequest σ r type pages)
    (hrun : vmmClassAlloc r type pages σ = some (v, σ')) :
    Allocated σ σ' r cs ls type (pages * pageSize) v :=
  vmmClassAlloc_fits h hf hpos hclear.1
    (fun c hc => (hclear.2 c hc).imp_right fun hfits hle => (hfits hle).1) hrun

/-! ### Runs -/

/-- The descriptors that the classes of region `r` consist of. -/
def InUse (σ : Vmm) (r p : ℕ) : Prop :=
  Linked (fun c => (σ.allocClass c).next) (σ.region r).classList p ∨
  ∃ c, Linked (fun c => (σ.allocClass c).next) (σ.region r).classList c ∧
    Linked σ.areaNext (σ.allocClass c).vmaHead p

/-- The rest of the system leaves the classes of region `r` alone, and frees none of
their descriptors. -/
structure Others (σ σ' : Vmm) (r : ℕ) : Prop where
  classList : (σ'.region r).classList = (σ.region r).classList
  allocClass : ∀ c, InUse σ r c → σ'.allocClass c = σ.allocClass c
  area : ∀ p, InUse σ r p → σ'.area p = σ.area p
  nodup : σ'.objects.Nodup
  free : ∀ p ∈ σ'.objects, ¬ InUse σ r p

/-- A run: the state, and the extents that were handed out, with their types. -/
structure ClassRun where
  vmm : Vmm
  live : List (VmClass × Extent)

/-- The extents of one type. -/
def ClassRun.ofType (s : ClassRun) (type : VmClass) : List Extent :=
  (s.live.filter fun x => x.1 = type).map Prod.snd

/-- `vmm_classes_init` has returned. -/
def ClassRun.Start (r : ℕ) (s : ClassRun) : Prop :=
  s.live = [] ∧ ∃ σ, σ.objects.Nodup ∧ vmmClassesInit r σ = some s.vmm

/-- One call for at least one page, that returns, after the others have done
something. -/
def ClassRun.Step (r : ℕ) (s : ClassRun) (request : VmClass × ℕ) (s' : ClassRun) : Prop :=
  0 < request.2 ∧ ∃ σ v, Others s.vmm σ r ∧
    vmmClassAlloc r request.1 request.2 σ = some (v, s'.vmm) ∧
    s'.live = if v = 0 then s.live else s.live ++ [(request.1, ⟨v, request.2 * pageSize⟩)]

/-- One call as before, on a request that is clear. -/
def ClassRun.ClearStep (r : ℕ) (s : ClassRun) (request : VmClass × ℕ) (s' : ClassRun) : Prop :=
  s.Step r request s' ∧ ClearRequest s.vmm r request.1 request.2

/-- The extents are apart and in their windows, and the lists hold them. -/
structure ClassRun.Sound (r : ℕ) (s : ClassRun) : Prop where
  apart : s.live.Pairwise fun x y => x.2.Apart y.2
  window : ∀ x ∈ s.live, ∃ config ∈ classConfigs, config.type = x.1 ∧
    config.start ≤ x.2.start ∧ x.2.start + x.2.len ≤ config.stop ∧ config.align ∣ x.2.start
  lists : ∀ type, ∃ o, vmmClassGet r type s.vmm = some o ∧ (o = none → s.ofType type = []) ∧
    ∀ c, o = some c → ∃ l, Links s.vmm.areaNext s.vmm.areaPrev (s.vmm.allocClass c).vmaHead l ∧
      (l.Pairwise fun p q => (s.vmm.area p).start < (s.vmm.area q).start) ∧
      s.vmm.spans l = s.ofType type

/-- The invariant: what is handed out of a type is what its class holds. -/
structure ClassInv (r : ℕ) (s : ClassRun) (cs : List ℕ) (ls : ℕ → List ℕ) : Prop where
  classes : Classes s.vmm r cs ls
  fresh : Fresh s.vmm cs ls
  known : ∀ x ∈ s.live, ∃ c ∈ cs, s.vmm.classType c = x.1
  spans : ∀ c ∈ cs, s.vmm.spans (ls c) = s.ofType (s.vmm.classType c)
  apart : s.live.Pairwise fun x y => x.2.Apart y.2

theorem Classes.inUse_iff (h : Classes σ r cs ls) : InUse σ r p ↔ p ∈ cs ∨ ∃ c ∈ cs, p ∈ ls c := by
  have hiff : ∀ c, Linked (fun c => (σ.allocClass c).next) (σ.region r).classList c ↔ c ∈ cs :=
    fun c => h.chain.linked_iff
  simp only [InUse, hiff]
  refine or_congr Iff.rfl (exists_congr fun c => and_congr_right fun hc => ?_)
  exact LinkedList.Chain.linked_iff (h.state c hc).links.chain

/-- A class is found by its type. -/
theorem Classes.get (h : Classes σ r cs ls) (hc : c ∈ cs) :
    vmmClassGet r (σ.classType c) σ = some (some c) := by
  rw [vmmClassGet_spec h]
  refine congrArg some (List.find?_eq_some_iff_append.2 ⟨by simp, ?_⟩)
  obtain ⟨a, b, rfl⟩ := List.append_of_mem hc
  refine ⟨a, b, rfl, fun d hd => ?_⟩
  have hne := (List.pairwise_append.1 h.types).2.2 d hd c List.mem_cons_self
  simpa using hne

theorem Others.classes (ho : Others σ σ' r) (h : Classes σ r cs ls) :
    Classes σ' r cs ls ∧ Fresh σ' cs ls ∧ (∀ c ∈ cs, σ'.allocClass c = σ.allocClass c) ∧
      ∀ c ∈ cs, σ'.spans (ls c) = σ.spans (ls c) := by
  have hclass : ∀ c ∈ cs, σ'.allocClass c = σ.allocClass c := fun c hc =>
    ho.allocClass c (h.inUse_iff.2 (.inl hc))
  have harea : ∀ c ∈ cs, ∀ p ∈ ls c, σ'.area p = σ.area p := fun c hc p hp =>
    ho.area p (h.inUse_iff.2 (.inr ⟨c, hc, hp⟩))
  refine ⟨h.congr ho.classList hclass harea, ⟨ho.nodup, fun p hp hc => ?_, fun p hp c hc hpc => ?_⟩,
    hclass, fun c hc => List.map_congr_left fun p hp => by rw [harea c hc p hp]⟩
  · exact ho.free p hp (h.inUse_iff.2 (.inl hc))
  · exact ho.free p hp (h.inUse_iff.2 (.inr ⟨c, hc, hpc⟩))

theorem Classes.type_inj (h : Classes σ r cs ls) (hc : c ∈ cs) (hd : d ∈ cs)
    (he : σ.classType c = σ.classType d) : c = d := by
  have hget := h.get hc
  rw [he, h.get hd] at hget
  exact (Option.some.inj (Option.some.inj hget)).symm

theorem Classes.of_get (h : Classes σ r cs ls) {type : VmClass}
    (hget : vmmClassGet r type σ = some (some c)) : c ∈ cs ∧ σ.classType c = type := by
  rw [vmmClassGet_spec h] at hget
  have hfind := Option.some.inj hget
  exact ⟨List.mem_of_find?_eq_some hfind, by simpa using List.find?_some hfind⟩

/-- The rest of the system does not change what a request meets. -/
theorem Others.clearRequest (ho : Others σ σ' r) (h : Classes σ r cs ls) {type : VmClass} {pages : ℕ}
    (hclear : ClearRequest σ r type pages) : ClearRequest σ' r type pages := by
  obtain ⟨h', -, hclass, -⟩ := ho.classes h
  have hget : ∀ {type c}, vmmClassGet r type σ' = some (some c) →
      vmmClassGet r type σ = some (some c) ∧ σ'.allocClass c = σ.allocClass c := fun {type c} hg => by
    obtain ⟨hc, rfl⟩ := h'.of_get hg
    have htype : σ'.classType c = σ.classType c := by rw [Vmm.classType, hclass c hc, Vmm.classType]
    rw [htype]
    exact ⟨h.get hc, hclass c hc⟩
  refine ⟨hclear.1, fun c hc => ?_⟩
  obtain ⟨hc', hsame⟩ := hget hc
  have hfront : classFront σ' c = classFront σ c := by rw [classFront, hsame, classFront]
  obtain ⟨hlt, hfit⟩ := hclear.2 c hc'
  rw [hfront, hsame]
  refine ⟨hlt, fun hle => ⟨(hfit hle).1, fun other d hd hdc => ?_⟩⟩
  obtain ⟨hd', hsame'⟩ := hget hd
  rw [hsame']
  exact (hfit hle).2 other d hd' hdc

theorem ClassRun.ofType_append {s s' : ClassRun} {type : VmClass} {e : Extent}
    (h : s'.live = s.live ++ [(type, e)]) (other : VmClass) :
    s'.ofType other = if type = other then s.ofType other ++ [e] else s.ofType other := by
  rw [ofType, h, List.filter_append, List.map_append, ofType]
  split
  · next heq => simp [heq]
  · next hne => simp [hne]

/-- What one call preserves. -/
theorem ClassInv.step {s s' : ClassRun} {request : VmClass × ℕ} (h : ClassInv r s cs ls)
    (hstep : s.ClearStep r request s') : ∃ ls', ClassInv r s' cs ls' := by
  obtain ⟨⟨hpos, σ, v, ho, hrun, hlive⟩, hclear⟩ := hstep
  obtain ⟨hclasses, hfresh, hsame, hspans⟩ := ho.classes h.classes
  have htype : ∀ c ∈ cs, σ.classType c = s.vmm.classType c := fun c hc => by
    rw [Vmm.classType, hsame c hc, Vmm.classType]
  have hout := vmmClassAlloc_spec hclasses hfresh hpos (ho.clearRequest h.classes hclear) hrun
  generalize hσ' : s'.vmm = σ' at *
  cases hout with
  | failed hclasses' hfresh' hkeep =>
    rw [if_pos rfl] at hlive
    have hof : s'.ofType = s.ofType := funext fun type => by rw [ClassRun.ofType, hlive, ClassRun.ofType]
    have htype' : ∀ c ∈ cs, σ'.classType c = s.vmm.classType c := fun c hc => by
      rw [← htype c hc, Vmm.classType, (hkeep c hc).1, Vmm.classType]
    refine ⟨ls, hσ' ▸ hclasses', hσ' ▸ hfresh', fun x hx => ?_, fun c hc => ?_, hlive ▸ h.apart⟩
    · obtain ⟨c, hc, hx⟩ := h.known x (hlive ▸ hx)
      rw [hσ']
      exact ⟨c, hc, (htype' c hc).trans hx⟩
    · rw [hσ', (hkeep c hc).2, htype' c hc, hspans c hc, hof]
      exact h.spans c hc
  | done c p hc hct hfit hclasses' hfresh' hgrown hkeep =>
    have hstate := hclasses.state c hc
    have hfront : classFront σ c ≠ 0 := by
      have h₁ := hstate.front_le
      have h₂ := hstate.bounds.2.2.1
      have h₃ := (good_of_mem hstate.config).start_pos
      omega
    rw [if_neg hfront] at hlive
    have hof := ClassRun.ofType_append hlive
    have htype' : ∀ d ∈ cs, σ'.classType d = s.vmm.classType d := fun d hd => by
      rw [← htype d hd, Vmm.classType, (hkeep d hd).1, Vmm.classType]
    have hct' : s.vmm.classType c = request.1 := (htype c hc).symm.trans hct
    refine ⟨_, hσ' ▸ hclasses', hσ' ▸ hfresh', fun x hx => ?_, fun d hd => ?_, ?_⟩
    · rw [hσ']
      rw [hlive, List.mem_append, List.mem_singleton] at hx
      rcases hx with hx | rfl
      · obtain ⟨d, hd, hx⟩ := h.known x hx
        exact ⟨d, hd, (htype' d hd).trans hx⟩
      · exact ⟨c, hc, (htype' c hc).trans hct'⟩
    · rw [hσ', htype' d hd, hof]
      rcases eq_or_ne d c with rfl | hdc
      · rw [Function.update_self, hgrown, hspans d hd, h.spans d hd, if_pos hct'.symm]
      · rw [Function.update_of_ne hdc, (hkeep d hd).2 hdc, hspans d hd, h.spans d hd, if_neg]
        exact fun he => hdc (h.classes.type_inj hd hc (he.symm.trans hct'.symm))
    · rw [hlive]
      refine List.pairwise_append.2 ⟨h.apart, List.pairwise_singleton _ _, fun x hx y hy => ?_⟩
      obtain rfl := List.mem_singleton.1 hy
      obtain ⟨d, hd, hxd⟩ := h.known x hx
      have hmem : x.2 ∈ σ.spans (ls d) := by
        rw [hspans d hd, h.spans d hd, hxd]
        exact List.mem_map_of_mem (List.mem_filter.2 ⟨hx, by simp⟩)
      obtain ⟨hlo, -, hxpos, hhi⟩ := (hclasses.state d hd).bounds.2.2.2.2.1 x.2 hmem
      rcases eq_or_ne d c with rfl | hdc
      · exact .inl (hhi.trans hstate.front_le)
      · have hget : vmmClassGet r request.1 σ = some (some c) := hct ▸ hclasses.get hc
        obtain ⟨-, hclear'⟩ := (ho.clearRequest h.classes hclear).2 c hget
        rcases (hclear' hfit).2 _ d (hclasses.get hd) hdc with hle | hle | hle
        · exact .inr (hle.trans hlo)
        · exact .inl (hhi.trans hle)
        · omega

/-- What the invariant says to the callers. -/
theorem ClassInv.sound {s : ClassRun} (h : ClassInv r s cs ls) : s.Sound r where
  apart := h.apart
  window x hx := by
    obtain ⟨c, hc, htype⟩ := h.known x hx
    have hstate := h.classes.state c hc
    have hmem : x.2 ∈ s.vmm.spans (ls c) := by
      rw [h.spans c hc, htype]
      exact List.mem_map_of_mem (List.mem_filter.2 ⟨hx, by simp⟩)
    obtain ⟨-, -, -, hstop, hall, -⟩ := hstate.bounds
    obtain ⟨hlo, halign, -, hhi⟩ := hall x.2 hmem
    exact ⟨_, hstate.config, htype, hlo, hhi.trans hstop, halign⟩
  lists type := by
    refine ⟨_, vmmClassGet_spec h.classes type, fun hnone => ?_, fun c hc => ?_⟩
    · refine List.map_eq_nil_iff.2 (List.filter_eq_nil_iff.2 fun x hx => ?_)
      obtain ⟨c, hc, hxc⟩ := h.known x hx
      have hne := List.find?_eq_none.1 hnone c hc
      simpa [hxc] using hne
    · have hmem := List.mem_of_find?_eq_some hc
      have htype : s.vmm.classType c = type := by simpa using List.find?_some hc
      have hstate := h.classes.state c hmem
      exact ⟨ls c, hstate.links, hstate.areaList.1.sorted, htype ▸ h.spans c hmem⟩

/-- **`vmm_class_register`** adds a class with no areas, or does nothing. -/
theorem vmmClassRegister_spec (h : Classes σ r cs fun _ => []) (hf : Fresh σ cs fun _ => [])
    {config : ClassConfig} (hconfig : config ∈ classConfigs) (hshort : cs.length < 4) :
    ∃ status σ' cs', vmmClassRegister r config σ = some (status, σ') ∧
      cs'.length ≤ cs.length + 1 ∧ Classes σ' r cs' (fun _ => []) ∧ Fresh σ' cs' fun _ => [] := by
  have hget := vmmClassGet_spec h config.type
  rcases hfind : cs.find? (fun c => decide (σ.classType c = config.type)) with - | c
  · rw [hfind] at hget
    rcases hobj : σ.objects with - | ⟨p, objects⟩
    · refine ⟨-1, σ, cs, ?_, Nat.le_succ _, h, hf⟩
      refine Option.bind_eq_some_iff.2 ⟨_, hget, ?_⟩
      simp only [Vmm.kmalloc, hobj]
      rfl
    · have hp : p ∈ σ.objects := hobj ▸ List.mem_cons_self
      have hpc := hf.not_class p hp
      have hnd := List.nodup_cons.1 (hobj ▸ hf.nodup)
      obtain ⟨σ', hσ'⟩ : ∃ σ', σ' = (({ σ with objects := objects }.setClass p
        ⟨config, none, config.start, (σ.region r).classList⟩).setRegion r
          { σ.region r with classList := some p }) := ⟨_, rfl⟩
      have hself : σ'.allocClass p = ⟨config, none, config.start, (σ.region r).classList⟩ := by
        rw [hσ']
        exact Function.update_self ..
      have hold : ∀ c ∈ cs, σ'.allocClass c = σ.allocClass c := fun c hc => by
        rw [hσ']
        exact Function.update_of_ne (ne_of_mem_of_not_mem hc hpc) _ _
      have hlist : (σ'.region r).classList = some p := by
        rw [hσ', region_setRegion]
      have harea : σ'.area = σ.area := by rw [hσ']; rfl
      have hobj' : σ'.objects = objects := by rw [hσ']; rfl
      refine ⟨0, σ', p :: cs, ?_, le_rfl, ⟨?_, ?_, ?_, ?_, ?_⟩, ⟨hobj' ▸ hnd.2, ?_, by simp⟩⟩
      · refine Option.bind_eq_some_iff.2 ⟨_, hget, ?_⟩
        simp only [Vmm.kmalloc, hobj, hσ']
        rfl
      · refine ⟨hlist, ?_⟩
        change LinkedList.Seg _ (σ'.allocClass p).next cs none
        rw [hself]
        exact LinkedList.Seg.congr h.chain fun c hc => congrArg AllocClass.next (hold c hc)
      · rw [List.length_cons]
        exact hshort
      · refine List.pairwise_cons.2 ⟨fun c hc => ?_, ?_⟩
        · have hne := List.find?_eq_none.1 hfind c hc
          rw [Vmm.classType, hself, Vmm.classType, hold c hc]
          exact fun he => hne (decide_eq_true he.symm)
        · refine h.types.imp_of_mem fun {c d} hc hd hne => ?_
          rwa [Vmm.classType, Vmm.classType, hold c hc, hold d hd]
      · intro c hc
        rcases List.mem_cons.1 hc with rfl | hc
        · refine ⟨by rw [hself]; exact hconfig, by rw [hself]; rfl, by rw [hself]; rfl⟩
        · exact ((h.state c hc).congr (hold c hc) fun p _ => by rw [harea]).1
      · exact fun _ _ _ _ _ => List.disjoint_nil_left _
      · intro q hq
        rw [hobj'] at hq
        rw [List.mem_cons, not_or]
        exact ⟨ne_of_mem_of_not_mem hq hnd.1, hf.not_class q (hobj ▸ List.mem_cons_of_mem _ hq)⟩
  · rw [hfind] at hget
    exact ⟨-1, σ, cs, Option.bind_eq_some_iff.2 ⟨_, hget, rfl⟩, Nat.le_succ _, h, hf⟩

theorem vmmRegisterAll_spec (configs : List ClassConfig) (h : Classes σ r cs fun _ => [])
    (hf : Fresh σ cs fun _ => []) (hconfigs : ∀ config ∈ configs, config ∈ classConfigs)
    (hshort : cs.length + configs.length ≤ 4) :
    ∃ σ' cs', vmmRegisterAll r configs σ = some σ' ∧ Classes σ' r cs' (fun _ => []) ∧
      Fresh σ' cs' fun _ => [] := by
  induction configs generalizing σ cs with
  | nil => exact ⟨σ, cs, rfl, h, hf⟩
  | cons config configs ih =>
    rw [List.length_cons] at hshort
    obtain ⟨status, σ₁, cs₁, hrun, hlen, h₁, hf₁⟩ :=
      vmmClassRegister_spec h hf (hconfigs config List.mem_cons_self) (by omega)
    obtain ⟨σ', cs', hrun', h', hf'⟩ := ih h₁ hf₁
      (fun c hc => hconfigs c (List.mem_cons_of_mem _ hc)) (by omega)
    exact ⟨σ', cs', Option.bind_eq_some_iff.2 ⟨_, hrun, hrun'⟩, h', hf'⟩

theorem ClassRun.Start.inv {s : ClassRun} (h : s.Start r) : ∃ cs ls, ClassInv r s cs ls := by
  obtain ⟨hlive, σ, hnd, hrun⟩ := h
  have hempty : Classes (σ.setRegion r { σ.region r with classList := none }) r [] fun _ => [] := by
    refine ⟨?_, by simp, .nil, by simp, by simp⟩
    rw [region_setRegion]
    rfl
  obtain ⟨σ', cs, hrun', hclasses, hfresh⟩ := vmmRegisterAll_spec classConfigs hempty
    ⟨hnd, by simp, by simp⟩ (fun _ h => h) (by decide)
  obtain rfl := Option.some.inj (hrun.symm.trans hrun')
  refine ⟨cs, _, hclasses, hfresh, ?_, fun c _ => ?_, ?_⟩
  · rw [hlive]
    simp
  · rw [ClassRun.ofType, hlive]
    rfl
  · rw [hlive]
    exact .nil

theorem ClassRun.inv {s : ClassRun} (h : Reach (ClassRun.Start r) (ClassRun.ClearStep r) s) :
    ∃ cs ls, ClassInv r s cs ls := by
  refine h.invariant (P := fun s => ∃ cs ls, ClassInv r s cs ls) (fun s hs => hs.inv) ?_
  rintro s request s' - ⟨cs, ls, hinv⟩ hstep
  obtain ⟨ls', hinv'⟩ := hinv.step hstep
  exact ⟨cs, ls', hinv'⟩

/-- **Class allocations stay apart.**  In every run of requests that are clear, with
any of the calls failing, the extents that were handed out are apart and in their
windows, and each class holds exactly its own, sorted and linked both ways. -/
theorem class_allocations_apart {s : ClassRun}
    (h : Reach (ClassRun.Start r) (ClassRun.ClearStep r) s) : s.Sound r := by
  obtain ⟨cs, ls, hinv⟩ := ClassRun.inv h
  exact hinv.sound

instance decidableForallVmClass {P : VmClass → Prop} [DecidablePred P] : Decidable (∀ t, P t) :=
  decidable_of_iff (P .kernel ∧ P .user ∧ P .mmio ∧ P .dma ∧ P .stack ∧ P .custom)
    ⟨fun ⟨h₁, h₂, h₃, h₄, h₅, h₆⟩ t => by cases t <;> assumption,
      fun h => ⟨h _, h _, h _, h _, h _, h _⟩⟩

instance decidableForallFound (o : Option (Option ℕ)) (P : ℕ → Prop) [DecidablePred P] :
    Decidable (∀ c, o = some (some c) → P c) :=
  match o with
  | none => .isTrue (by simp)
  | some none => .isTrue (by simp)
  | some (some c) => decidable_of_iff (P c) (by simp)

instance decidableClearRequest (σ : Vmm) (r : ℕ) (type : VmClass) (pages : ℕ) :
    Decidable (ClearRequest σ r type pages) := inferInstanceAs (Decidable (_ ∧ _))

/-- One call, with nothing else going on. -/
def ClassRun.exec (r : ℕ) (request : VmClass × ℕ) (s : ClassRun) : Option ClassRun :=
  (vmmClassAlloc r request.1 request.2 s.vmm).map fun o =>
    ⟨o.2, if o.1 = 0 then s.live else s.live ++ [(request.1, ⟨o.1, request.2 * pageSize⟩)]⟩

theorem ClassInv.exec {s s' : ClassRun} {request : VmClass × ℕ} (h : ClassInv r s cs ls)
    (hpos : 0 < request.2) (hexec : s.exec r request = some s') : s.Step r request s' := by
  obtain ⟨⟨v, σ'⟩, hrun, rfl⟩ := Option.map_eq_some_iff.1 hexec
  refine ⟨hpos, s.vmm, v, ⟨rfl, fun _ _ => rfl, fun _ _ => rfl, h.fresh.nodup, fun p hp huse => ?_⟩,
    hrun, rfl⟩
  rcases h.classes.inUse_iff.1 huse with hc | ⟨c, hc, hpc⟩
  · exact h.fresh.not_class p hp hc
  · exact h.fresh.not_area p hp c hc hpc

/-- Calls that are clear, one after the other. -/
theorem ClassRun.reach_exec {s s' : ClassRun} {requests : List (VmClass × ℕ)} (h : s.Start r)
    (hrun : requests.foldlM (fun s request =>
      if 0 < request.2 ∧ ClearRequest s.vmm r request.1 request.2 then s.exec r request else none) s =
        some s') : Reach (ClassRun.Start r) (ClassRun.ClearStep r) s' := by
  have hreach := Reach.of_guarded h hrun
  refine hreach.invariant (fun s hs => .init hs) ?_
  rintro s request s' - hr ⟨⟨hpos, hclear⟩, hexec⟩
  obtain ⟨cs, ls, hinv⟩ := ClassRun.inv hr
  exact hr.step request ⟨hinv.exec hpos hexec, hclear⟩

/-- A region over clear memory that is current, with its classes. -/
def classRun : Option ClassRun :=
  (vmmClassesInit 0 (vmmSwitch 0
    (vmmRegionNew (clearVmm ((List.range' 1 24).map (· * pageSize)) (List.range 24))).2)).map (⟨·, []⟩)

theorem classRun_start {s : ClassRun} (h : classRun = some s) : s.Start 0 := by
  obtain ⟨σ, hrun, rfl⟩ := Option.map_eq_some_iff.1 h
  exact ⟨rfl, _, by decide, hrun⟩

/-- A page of user memory and fifteen pages for DMA. -/
def fullRun : Option ClassRun :=
  classRun.bind fun s => ((.user, 1) :: List.replicate 15 (.dma, 1)).foldlM (fun s request =>
    if 0 < request.2 ∧ ClearRequest s.vmm 0 request.1 request.2 then s.exec 0 request else none) s

theorem fullRun_reach {s : ClassRun} (h : fullRun = some s) :
    Reach (ClassRun.Start 0) (ClassRun.ClearStep 0) s := by
  obtain ⟨s₀, hs₀, hrun⟩ := Option.bind_eq_some_iff.1 h
  exact ClassRun.reach_exec (classRun_start hs₀) hrun

/-- The pages for DMA lie `0x10000` apart, so that fifteen fit before user memory. -/
theorem class_allocations_apart_full : ∃ s : ClassRun, s.live.length = 16 ∧ s.Sound 0 := by
  have hrun : fullRun.map (fun s => s.live.length) = some 16 := by decide +kernel
  obtain ⟨s, hs, hlen⟩ := Option.map_eq_some_iff.1 hrun
  exact ⟨s, hlen, class_allocations_apart (fullRun_reach hs)⟩

/-- The sixteenth page for DMA is the page of user memory. -/
theorem class_allocations_meet : ¬ ∀ (r : ℕ) (s : ClassRun),
    Reach (ClassRun.Start r) (ClassRun.Step r) s → s.Sound r := by
  intro hall
  have hrun : (fullRun.bind (ClassRun.exec 0 (.dma, 1))).map
      (fun s => decide (s.live.Pairwise fun x y => x.2.Apart y.2)) = some false := by decide +kernel
  obtain ⟨s', hrun, hmeet⟩ := Option.map_eq_some_iff.1 hrun
  obtain ⟨s, hs, hexec⟩ := Option.bind_eq_some_iff.1 hrun
  have hreach := fullRun_reach hs
  obtain ⟨cs, ls, hinv⟩ := ClassRun.inv hreach
  have hreach' : Reach (ClassRun.Start 0) (ClassRun.Step 0) s :=
    hreach.mono (fun _ hs => hs) fun _ _ _ hstep => hstep.1
  have hsound := hall 0 s' (hreach'.step (.dma, 1) (hinv.exec Nat.one_pos hexec))
  exact absurd hsound.apart (of_decide_eq_false hmeet)

end Flopperating
