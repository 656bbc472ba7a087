/-
# Pages over the life of an address space

`vmm_region_destroy` frees the page of the directory and leaves the page tables and the
data pages.  So what a region took while it was in use is given back exactly when it took
nothing, step by step (`pages_returned_iff`).
-/

import Flopperating.Mem.VmmCopy

namespace Flopperating

open Vmm LinkedList

variable {σ σ' σ₁ σ₂ : Vmm} {dirs : ℕ → Prop} {l : List ℕ} {d i n r va pa flags : ℕ} {status : ℤ}

theorem FreeOk.suffix {free free' : List ℕ} (h : FreeOk free) (hs : free' <:+ free) : FreeOk free' :=
  ⟨h.1.sublist hs.sublist, fun t ht => h.2 t (hs.subset ht)⟩

/-! ### Pages that single calls take -/

/-- What `vmm_map` does to the free pages. -/
inductive MapTakes (σ σ' : Vmm) (r va : ℕ) : ℤ → Prop
  | table : present (σ.pde r (pdIndex va)) = true → σ'.freePages = σ.freePages → MapTakes σ σ' r va 0
  | noPage : present (σ.pde r (pdIndex va)) = false → σ.freePages = [] → σ'.freePages = σ.freePages →
      MapTakes σ σ' r va (-1)
  | taken (t : ℕ) : present (σ.pde r (pdIndex va)) = false → σ.freePages = t :: σ'.freePages →
      MapTakes σ σ' r va 0

theorem vmmMap_takes (hfree : FreeOk σ.freePages) (h : vmmMap r va pa flags σ = some (status, σ')) :
    MapTakes σ σ' r va status := by
  obtain ⟨⟨status₁, σ₁⟩, htable, h⟩ := Option.bind_eq_some_iff.1 h
  have h : (if status₁ < 0 then some (-1, σ₁) else (σ₁.recursivePt (pdIndex va)).bind fun pt =>
    some (0, σ₁.setWord pt (ptIndex va) (pageEntry pa flags))) = some (status, σ') := h
  have hset : ∀ {τ : Vmm}, ¬ status₁ < 0 → τ.freePages = σ₁.freePages →
      status = 0 ∧ σ'.freePages = τ.freePages := fun hge hτ => by
    rw [if_neg hge] at h
    obtain ⟨pt, -, h⟩ := Option.bind_eq_some_iff.1 h
    obtain ⟨rfl, rfl⟩ := Prod.mk.inj (Option.some.inj h)
    exact ⟨rfl, hτ.symm⟩
  rw [vmmMapTable] at htable
  split at htable
  · next hpres =>
    obtain ⟨rfl, rfl⟩ := Prod.mk.inj (Option.some.inj htable)
    obtain ⟨rfl, hsame⟩ := hset (by decide) rfl
    exact .table hpres hsame
  · next hpres =>
    have hpres := Bool.not_eq_true _ ▸ hpres
    rcases hf : σ.freePages with - | ⟨t, free⟩
    · rw [Vmm.allocPage, hf] at htable
      obtain ⟨rfl, rfl⟩ := Prod.mk.inj (Option.some.inj htable)
      rw [if_pos (by decide)] at h
      obtain ⟨rfl, rfl⟩ := Prod.mk.inj (Option.some.inj h)
      exact .noPage hpres hf rfl
    · have ht : t ≠ 0 := (hfree.2 t (hf ▸ List.mem_cons_self)).1.ne'
      simp only [Vmm.allocPage, hf, ht, if_false] at htable
      obtain ⟨pt, -, htable⟩ := Option.bind_eq_some_iff.1 htable
      obtain ⟨rfl, rfl⟩ := Prod.mk.inj (Option.some.inj htable)
      obtain ⟨rfl, hsame⟩ := hset (τ := { σ with freePages := free }) (by decide) rfl
      exact .taken t hpres (by rw [hf, hsame])

theorem MapTakes.suffix (h : MapTakes σ σ' r va status) : σ'.freePages <:+ σ.freePages := by
  cases h with
  | table _ hsame => rw [hsame]
  | noPage _ _ hsame => rw [hsame]
  | taken t _ hcons =>
    rw [hcons]
    exact List.suffix_cons t _

/-- The pages are as they were exactly when no table was made. -/
theorem MapTakes.same_iff (h : MapTakes σ σ' r va status) :
    σ'.freePages.length = σ.freePages.length ↔ present (σ.pde r (pdIndex va)) = true ∨ σ.freePages = [] := by
  cases h with
  | table hpres hsame => exact iff_of_true (by rw [hsame]) (.inl hpres)
  | noPage _ hnil hsame => exact iff_of_true (by rw [hsame]) (.inr hnil)
  | taken t hpres hcons =>
    rw [hcons, hpres]
    simp

theorem vmmUnmapRangeFrom_free (h : vmmUnmapRangeFrom r va n i σ = some (status, σ')) :
    σ'.freePages = σ.freePages := by
  induction n generalizing i σ with
  | zero =>
    obtain ⟨-, rfl⟩ := Prod.mk.inj (Option.some.inj h)
    rfl
  | succ n ih =>
    obtain ⟨⟨status₁, σ₁⟩, hunmap, h⟩ := Option.bind_eq_some_iff.1 h
    have hone := vmmUnmap_freePages hunmap
    change (if status₁ < 0 then some (-1, σ₁) else vmmUnmapRangeFrom r va n (i + 1) σ₁) = _ at h
    split at h
    · obtain ⟨-, rfl⟩ := Prod.mk.inj (Option.some.inj h)
      exact hone
    · exact (ih h).trans hone

theorem vmmMapFresh_suffix {e : LoopEnd} (hfree : FreeOk σ.freePages)
    (h : vmmMapFresh false r va flags n i σ = some (e, σ')) : σ'.freePages <:+ σ.freePages := by
  induction n generalizing i σ with
  | zero =>
    obtain ⟨-, rfl⟩ := Prod.mk.inj (Option.some.inj h)
    exact List.suffix_rfl
  | succ n ih =>
    rw [vmmMapFresh] at h
    rcases hf : σ.freePages with - | ⟨t, free⟩
    · rw [Vmm.allocPage, hf] at h
      obtain ⟨-, rfl⟩ := Prod.mk.inj (Option.some.inj h)
      rw [hf]
    · have ht : t ≠ 0 := (hfree.2 t (hf ▸ List.mem_cons_self)).1.ne'
      have hsuffix : free <:+ σ.freePages := by
        rw [hf]
        exact List.suffix_cons t free
      simp only [Vmm.allocPage, hf, ht, if_false] at h
      obtain ⟨⟨status, σ₁⟩, hmap, h⟩ := Option.bind_eq_some_iff.1 h
      have hmap := (vmmMap_takes (σ := { σ with freePages := free }) (hfree.suffix hsuffix) hmap).suffix
      have hrest : σ₁.freePages <:+ σ.freePages := hmap.trans hsuffix
      rw [← hf]
      exact (ih (hfree.suffix hrest) h).trans hrest

/-- The loop takes the first page there is. -/
theorem vmmMapFresh_takes {e : LoopEnd} (hfree : FreeOk σ.freePages) (hn : n ≠ 0) (hne : σ.freePages ≠ [])
    (h : vmmMapFresh false r va flags n i σ = some (e, σ')) : σ'.freePages.length < σ.freePages.length := by
  obtain ⟨n, rfl⟩ := Nat.exists_eq_succ_of_ne_zero hn
  obtain ⟨t, free, hf⟩ := List.exists_cons_of_ne_nil hne
  have ht : t ≠ 0 := (hfree.2 t (hf ▸ List.mem_cons_self)).1.ne'
  have hok : FreeOk free := hfree.suffix (by rw [hf]; exact List.suffix_cons t free)
  rw [vmmMapFresh] at h
  simp only [Vmm.allocPage, hf, ht, if_false] at h
  obtain ⟨⟨status, σ₁⟩, hmap, h⟩ := Option.bind_eq_some_iff.1 h
  have hmap := (vmmMap_takes (σ := { σ with freePages := free }) hok hmap).suffix
  have hrest : σ'.freePages <:+ free := (vmmMapFresh_suffix (hok.suffix hmap) h).trans hmap
  rw [hf]
  exact Nat.lt_succ_of_le hrest.length_le

/-- Pages were only taken, none of them exactly if `idle`, and the list of regions is as it
was. -/
structure Takes (σ σ' : Vmm) (idle : Prop) : Prop where
  suffix : σ'.freePages <:+ σ.freePages
  same_iff : σ'.freePages.length = σ.freePages.length ↔ idle
  pgDir : ∀ s, (σ'.region s).pgDir = (σ.region s).pgDir
  next : ∀ s, (σ'.region s).next = (σ.region s).next
  regionList : σ'.regionList = σ.regionList

namespace Takes

variable {idle idle' : Prop}

theorem refl (h : idle) : Takes σ σ idle :=
  ⟨List.suffix_rfl, iff_of_true rfl h, fun _ => rfl, fun _ => rfl, rfl⟩

theorem trans (h : Takes σ σ₁ idle) (h' : Takes σ₁ σ' idle') : Takes σ σ' (idle ∧ idle') where
  suffix := h'.suffix.trans h.suffix
  same_iff := by
    have hle := h.suffix.length_le
    have hle' := h'.suffix.length_le
    rw [← h.same_iff, ← h'.same_iff]
    omega
  pgDir s := (h'.pgDir s).trans (h.pgDir s)
  next s := (h'.next s).trans (h.next s)
  regionList := h'.regionList.trans h.regionList

theorem iff (h : Takes σ σ' idle) (he : idle ↔ idle') : Takes σ σ' idle' :=
  { h with same_iff := h.same_iff.trans he }

theorem of_same (hs : SameDescriptors σ σ₁) (hfree : σ'.freePages = σ₁.freePages)
    (hsuffix : σ₁.freePages <:+ σ.freePages) (hsame : σ₁.freePages.length = σ.freePages.length ↔ idle)
    (hregion : σ'.region = σ₁.region ∨ ∃ top, σ'.region = (σ₁.setNextFreeVa r top).region)
    (hlist : σ'.regionList = σ₁.regionList) : Takes σ σ' idle := by
  have hfields : ∀ s, (σ'.region s).pgDir = (σ.region s).pgDir ∧ (σ'.region s).next = (σ.region s).next := by
    intro s
    rcases hregion with hregion | ⟨top, hregion⟩
    · rw [hregion, hs.region]
      exact ⟨rfl, rfl⟩
    · rw [hregion, ← hs.region]
      change (Function.update σ₁.region r _ s).pgDir = _ ∧ (Function.update σ₁.region r _ s).next = _
      rcases eq_or_ne s r with rfl | hne
      · rw [Function.update_self]
        exact ⟨rfl, rfl⟩
      · rw [Function.update_of_ne hne]
        exact ⟨rfl, rfl⟩
  exact ⟨by rw [hfree]; exact hsuffix, by rw [hfree]; exact hsame, fun s => (hfields s).1,
    fun s => (hfields s).2, hlist.trans hs.regionList⟩

end Takes

/-- **`vmm_alloc`** takes no page exactly when it is asked for none or there is none. -/
theorem vmmAlloc_takes {v : ℕ} (hfree : FreeOk σ.freePages) (h : vmmAlloc r n flags σ = some (v, σ')) :
    Takes σ σ' (n = 0 ∨ σ.freePages = []) := by
  rw [vmmAlloc] at h
  split at h
  · next hn =>
    obtain ⟨-, rfl⟩ := Prod.mk.inj (Option.some.inj h)
    exact .refl (.inl hn)
  · next hn =>
    obtain ⟨⟨e, σ₁⟩, hloop, h⟩ := Option.bind_eq_some_iff.1 h
    have hs := vmmMapFresh_same hloop
    have hsuffix := vmmMapFresh_suffix hfree hloop
    have hsame : σ₁.freePages.length = σ.freePages.length ↔ n = 0 ∨ σ.freePages = [] := by
      rcases eq_or_ne σ.freePages [] with hnil | hne
      · rw [hnil] at hsuffix
        rw [hnil, List.suffix_nil.1 hsuffix]
        exact iff_of_true rfl (.inr rfl)
      · exact iff_of_false (vmmMapFresh_takes hfree hn hne hloop).ne (not_or.2 ⟨hn, hne⟩)
    cases e with
    | noPage i =>
      obtain ⟨⟨status, σ₂⟩, hundo, h⟩ := Option.bind_eq_some_iff.1 h
      obtain ⟨-, rfl⟩ := Prod.mk.inj (Option.some.inj h)
      have hs₂ := vmmUnmapRangeFrom_same hundo
      exact .of_same (r := r) hs (vmmUnmapRangeFrom_free hundo) hsuffix hsame (.inl hs₂.region) hs₂.regionList
    | done =>
      obtain ⟨-, rfl⟩ := Prod.mk.inj (Option.some.inj h)
      exact .of_same hs rfl hsuffix hsame (.inr ⟨_, rfl⟩) rfl
    | noTable =>
      obtain ⟨-, rfl⟩ := Prod.mk.inj (Option.some.inj h)
      exact .of_same hs rfl hsuffix hsame (.inr ⟨_, rfl⟩) rfl

/-! ### The use of a region -/

/-- `sched_internal_alloc_user_stack`, for any address and flags: a page is mapped, or given
back. -/
def schedAllocUserStack (r va flags : ℕ) (σ : Vmm) : Option Vmm :=
  let (phys, σ) := σ.allocPage
  if phys = 0 then some σ
  else (vmmMap r va phys flags σ).bind fun o => some (if o.1 < 0 then o.2.freePage phys else o.2)

/-- What is done with a region. -/
inductive UseOp
  | alloc (pages flags : ℕ)
  | stack (va flags : ℕ)
  /-- a page that the region has is mapped once more -/
  | map (va pa flags : ℕ)
  | switch (s : ℕ)

namespace UseOp

def run (r : ℕ) : UseOp → Vmm → Option Vmm
  | alloc pages flags, σ => (vmmAlloc r pages flags σ).map Prod.snd
  | stack va flags, σ => schedAllocUserStack r va flags σ
  | map va pa flags, σ => (vmmMap r va pa flags σ).map Prod.snd
  | switch s, σ => some (vmmSwitch s σ)

/-- The call takes no page. -/
def Idle (r : ℕ) (σ : Vmm) : UseOp → Prop
  | alloc pages _ => pages = 0 ∨ σ.freePages = []
  | stack va _ => σ.freePages = [] ∨ present (σ.pde r (pdIndex va)) = false ∧ σ.freePages.length = 1
  | map va _ _ => present (σ.pde r (pdIndex va)) = true ∨ σ.freePages = []
  | switch _ => True

end UseOp

theorem schedAllocUserStack_takes (hfree : FreeOk σ.freePages)
    (h : schedAllocUserStack r va flags σ = some σ') :
    Takes σ σ' (σ.freePages = [] ∨ present (σ.pde r (pdIndex va)) = false ∧ σ.freePages.length = 1) := by
  rw [schedAllocUserStack] at h
  rcases hf : σ.freePages with - | ⟨t, free⟩
  · rw [Vmm.allocPage, hf] at h
    obtain rfl := Option.some.inj h
    exact .refl (.inl rfl)
  · have ht := hfree.2 t (hf ▸ List.mem_cons_self)
    have hok : FreeOk free := hfree.suffix (by rw [hf]; exact List.suffix_cons t free)
    simp only [Vmm.allocPage, hf, ht.1.ne', if_false] at h
    obtain ⟨⟨status, σ₁⟩, hmap, h⟩ := Option.bind_eq_some_iff.1 h
    have hs := vmmMap_same hmap
    have hs : SameDescriptors σ σ₁ := ⟨hs.1, hs.2, hs.3, hs.4, hs.5, hs.6, hs.7⟩
    obtain rfl : (if status < 0 then σ₁.freePage t else σ₁) = σ' := Option.some.inj h
    have hsuffix : ∀ {free' : List ℕ}, free' <:+ free → free' <:+ σ.freePages := fun hs =>
      hs.trans (by rw [hf]; exact List.suffix_cons t free)
    cases vmmMap_takes (σ := { σ with freePages := free }) hok hmap with
    | table hpres hsame =>
      have hsame : σ₁.freePages = free := hsame
      have hpres : present (σ.pde r (pdIndex va)) = true := hpres
      rw [if_neg (by decide), hpres]
      refine .of_same (r := r) hs rfl (hsuffix (by rw [hsame])) ?_ (.inl rfl) rfl
      rw [hf, hsame]
      simp
    | noPage hpres hnil hsame =>
      have hnil : free = [] := hnil
      have hpres : present (σ.pde r (pdIndex va)) = false := hpres
      have hback : (σ₁.freePage t).freePages = σ.freePages := by
        have hsame : σ₁.freePages = free := hsame
        rw [Vmm.freePage, if_neg ht.1.ne', hf, maskLow_of_dvd ht.2.1, ← hsame]
      have hs' := hs.trans (freePage_same t σ₁).1
      rw [if_pos (by decide)]
      refine .of_same (r := r) hs' rfl (by rw [hback]) (iff_of_true (by rw [hback]) (.inr ⟨hpres, ?_⟩)) (.inl rfl) rfl
      rw [hnil]
      rfl
    | taken u hpres hcons =>
      have hcons : free = u :: σ₁.freePages := hcons
      rw [if_neg (by decide)]
      refine .of_same (r := r) hs rfl (hsuffix (by rw [hcons]; exact List.suffix_cons u _)) ?_ (.inl rfl) rfl
      rw [hf, hcons]
      refine iff_of_false ?_ (by simp)
      simp only [List.length_cons]
      omega

/-- **One call.** -/
theorem UseOp.run_takes {op : UseOp} (hfree : FreeOk σ.freePages) (h : op.run r σ = some σ') :
    Takes σ σ' (op.Idle r σ) := by
  cases op with
  | alloc pages flags =>
    obtain ⟨⟨v, σ₁⟩, hrun, rfl⟩ := Option.map_eq_some_iff.1 h
    exact vmmAlloc_takes hfree hrun
  | stack va flags => exact schedAllocUserStack_takes hfree h
  | map va pa flags =>
    obtain ⟨⟨status, σ₁⟩, hrun, rfl⟩ := Option.map_eq_some_iff.1 h
    have hs := vmmMap_same hrun
    have htakes := vmmMap_takes hfree hrun
    exact .of_same (r := r) hs rfl htakes.suffix htakes.same_iff (.inl rfl) rfl
  | switch s =>
    obtain rfl := Option.some.inj h
    exact ⟨List.suffix_rfl, iff_of_true rfl trivial, fun _ => rfl, fun _ => rfl, rfl⟩

/-- The calls one after the other. -/
def useAll (r : ℕ) : List UseOp → Vmm → Option Vmm
  | [], σ => some σ
  | op :: ops, σ => (op.run r σ).bind (useAll r ops)

/-- Each of the calls takes no page in the state it is made in. -/
def IdleAll (r : ℕ) : List UseOp → Vmm → Prop
  | [], _ => True
  | op :: ops, σ => op.Idle r σ ∧ ∀ σ', op.run r σ = some σ' → IdleAll r ops σ'

/-- **All calls.** -/
theorem useAll_takes {ops : List UseOp} (hfree : FreeOk σ.freePages) (h : useAll r ops σ = some σ') :
    Takes σ σ' (IdleAll r ops σ) := by
  induction ops generalizing σ with
  | nil =>
    obtain rfl := Option.some.inj h
    exact .refl trivial
  | cons op ops ih =>
    obtain ⟨σ₁, hrun, h⟩ := Option.bind_eq_some_iff.1 h
    have hone := op.run_takes hfree hrun
    refine (hone.trans (ih (hfree.suffix hone.suffix) h)).iff (and_congr_right' ?_)
    constructor
    · intro hidle σ₂ hσ₂
      exact Option.some.inj (hrun.symm.trans hσ₂) ▸ hidle
    · exact fun hidle => hidle σ₁ hrun

/-! ### The origin of a region -/

/-- The list of regions ends before it can be walked. -/
def Listed (σ : Vmm) : Prop :=
  ∃ l, Chain (fun s => (σ.region s).next) σ.regionList l ∧ l.length < vmmSteps

theorem Takes.listed {idle : Prop} (h : Takes σ σ' idle) (hl : Listed σ) : Listed σ' := by
  obtain ⟨l, hchain, hshort⟩ := hl
  refine ⟨l, ?_, hshort⟩
  rw [h.regionList]
  exact hchain.congr fun s _ => h.next s

/-- `vmm_region_destroy` gives the page of the directory back. -/
theorem vmmRegionDestroy_frees (hd : 0 < (σ.region r).pgDir ∧ pageSize ∣ (σ.region r).pgDir)
    (h : vmmRegionDestroy r σ = some σ') : σ'.freePages = (σ.region r).pgDir :: σ.freePages := by
  obtain ⟨σ₁, hremove, h⟩ := Option.bind_eq_some_iff.1 h
  obtain rfl := Option.some.inj h
  rw [vmmRegionRemove] at hremove
  split at hremove
  · exact absurd hremove (by simp)
  · obtain rfl := Option.some.inj hremove
    change (Vmm.freePage (σ.region r).pgDir _).freePages = _
    rw [Vmm.freePage, if_neg hd.1.ne', maskLow_of_dvd hd.2]

theorem vmmRegionDestroy_returns (hl : Listed σ) (r : ℕ) : ∃ σ', vmmRegionDestroy r σ = some σ' := by
  obtain ⟨l, hchain, hshort⟩ := hl
  obtain ⟨σ₁, hremove, -⟩ := vmmRegionRemove_spec hchain hshort r
  exact ⟨_, by rw [vmmRegionDestroy, hremove]; rfl⟩

/-- Where a region comes from. -/
inductive Origin
  | create (initialPages flags : ℕ) (hasOut : Bool)
  | copy (src : ℕ)

namespace Origin

def run : Origin → Vmm → Option (Option ℕ × Vmm)
  | create initialPages flags hasOut, σ =>
    (vmmRegionCreate initialPages flags hasOut σ).map fun o => (o.1.1, o.2)
  | copy src, σ => vmmCopyPagemap src σ

/-- A region that is copied is there. -/
def Ready (σ : Vmm) (dirs : ℕ → Prop) : Origin → Prop
  | create _ _ _ => True
  | copy src => dirs (σ.region src).pgDir ∧ src ∉ σ.objects

/-- The call takes no page besides that of the directory of the region it returns. -/
def Idle (σ : Vmm) : Origin → Prop
  | create initialPages _ hasOut =>
    σ.freePages.length ≤ 1 ∨ σ.objects = [] ∨ initialPages = 0 ∨ hasOut = false
  | copy src => σ.freePages = [] ∨ σ.objects ≠ [] ∧ (σ.freePages.length = 1 ∨
      σ.freePages.length = 2 ∧ ∃ c, (slotCosts σ (σ.region src).pgDir 0 pageEntries).head? = some (some (c + 1)))

end Origin

/-- What comes of a region: nothing, or a region with its directory. -/
inductive Born (σ : Vmm) (idle : Prop) : Option ℕ → Vmm → Prop
  | gone (σ' : Vmm) : σ'.freePages.Sublist σ.freePages → (σ'.freePages.length = σ.freePages.length ↔ idle) →
      Born σ idle none σ'
  | born (r d : ℕ) (σ' : Vmm) : (σ'.region r).pgDir = d → d ∈ σ.freePages →
      (d :: σ'.freePages).Sublist σ.freePages →
      ((d :: σ'.freePages).length = σ.freePages.length ↔ idle) → Listed σ' → Born σ idle (some r) σ'

theorem vmmRegionCreate_born {initialPages : ℕ} {hasOut : Bool} {o : Option ℕ × Option ℕ}
    (h : Running σ dirs l) (hrun : vmmRegionCreate initialPages flags hasOut σ = some (o, σ')) :
    Born σ ((Origin.create initialPages flags hasOut).Idle σ) o.1 σ' := by
  rcases vmmRegionNew_cases h.spaces.freeOk with ⟨hnil, hnew⟩ | ⟨-, hobj, hnone, hsame⟩ | ⟨r, d, σ₁, hnew, hc⟩
  · rw [vmmRegionCreate, hnew] at hrun
    obtain ⟨rfl, rfl⟩ := Prod.mk.inj (Option.some.inj hrun)
    exact .gone σ (.refl _) (iff_of_true rfl (.inl (by rw [hnil]; exact Nat.zero_le 1)))
  · rcases hnew : vmmRegionNew σ with ⟨o', σ₁⟩
    rw [hnew] at hnone hsame
    obtain rfl : o' = none := hnone
    rw [vmmRegionCreate, hnew] at hrun
    obtain ⟨rfl, rfl⟩ := Prod.mk.inj (Option.some.inj hrun)
    have hsame : σ₁.freePages = σ.freePages := hsame
    exact .gone σ₁ (by rw [hsame]) (iff_of_true (by rw [hsame]) (.inr (.inl hobj)))
  · have hd := h.spaces.free_page d hc.mem_free
    have hinv : RegionInv (fun a => dirs a ∨ a = d) (fun _ => True) r d σ₁ := hc.regionInv h
    have hlisted : Listed σ₁ := by
      obtain ⟨l', hl', hshort, -⟩ := hinv.list
      exact ⟨l', hl', hshort⟩
    have hobj : σ.objects ≠ [] := by
      rw [hc.objects]
      exact List.cons_ne_nil _ _
    rw [vmmRegionCreate, hnew] at hrun
    dsimp only at hrun
    split at hrun
    · next hinit =>
      obtain ⟨⟨v, σ₂⟩, halloc, hrun⟩ := Option.bind_eq_some_iff.1 hrun
      have htakes := vmmAlloc_takes hinv.spaces.freeOk halloc
      have hsub : (d :: σ₂.freePages).Sublist σ.freePages := by
        rw [hc.free]
        exact htakes.suffix.sublist.cons_cons d
      have hiff : (d :: σ₂.freePages).length = σ.freePages.length ↔
          (Origin.create initialPages flags hasOut).Idle σ := by
        rw [hc.free, List.length_cons, List.length_cons, Nat.add_right_cancel_iff, htakes.same_iff, Origin.Idle,
          hc.free, ← List.length_eq_zero_iff]
        simp only [hobj, hinit.2, hinit.1.ne', List.length_cons, false_or, or_false, Bool.true_eq_false]
        omega
      have hrun : (if v = minusOne then
          (vmmRegionRemove r σ₂).bind fun σ₃ =>
            some ((none, none), (σ₃.kfree r).freePage (σ₁.region r).pgDir)
          else some ((some r, some v), σ₂)) = some (o, σ') := hrun
      split at hrun
      · obtain ⟨σ₃, hremove, hrun⟩ := Option.bind_eq_some_iff.1 hrun
        obtain ⟨rfl, rfl⟩ := Prod.mk.inj (Option.some.inj hrun)
        obtain ⟨l', hl', hshort⟩ := htakes.listed hlisted
        obtain ⟨σ₃', hremove', -, hfree, -⟩ := vmmRegionRemove_spec hl' hshort r
        obtain rfl := Option.some.inj (hremove'.symm.trans hremove)
        have hfinal : ((σ₃'.kfree r).freePage (σ₁.region r).pgDir).freePages = d :: σ₂.freePages := by
          rw [hinv.pgDir, Vmm.freePage, if_neg hd.1.ne', maskLow_of_dvd hd.2.1]
          exact congrArg (d :: ·) hfree
        exact .gone _ (by rw [hfinal]; exact hsub) (by rw [hfinal]; exact hiff)
      · obtain ⟨rfl, rfl⟩ := Prod.mk.inj (Option.some.inj hrun)
        exact .born r d σ₂ ((htakes.pgDir r).trans hinv.pgDir) hc.mem_free hsub hiff (htakes.listed hlisted)
    · next hinit =>
      obtain ⟨rfl, rfl⟩ := Prod.mk.inj (Option.some.inj hrun)
      have hidle : initialPages = 0 ∨ hasOut = false := by
        rcases Nat.eq_zero_or_pos initialPages with hzero | hpos
        · exact .inl hzero
        · exact .inr (Bool.eq_false_iff.2 fun hout => hinit ⟨hpos, hout⟩)
      exact .born r d σ₁ hinv.pgDir hc.mem_free (by rw [hc.free]) (iff_of_true (by rw [hc.free])
        (.inr (.inr hidle))) hlisted

theorem copyOutcome_le {costs : List (Option ℕ)} {L L' : ℕ} (h : copyOutcome costs L = some (status, L')) :
    L' ≤ L := by
  induction costs generalizing L with
  | nil =>
    obtain ⟨-, rfl⟩ := Prod.mk.inj (Option.some.inj h)
    exact le_rfl
  | cons o costs ih =>
    rcases L with - | L
    · obtain ⟨-, rfl⟩ := Prod.mk.inj (Option.some.inj h)
      exact le_rfl
    · rcases o with - | c
      · exact absurd h (by simp [copyOutcome])
      · rw [copyOutcome] at h
        split at h
        · exact (ih h).trans ((Nat.sub_le L c).trans (Nat.le_succ L))
        · obtain ⟨-, rfl⟩ := Prod.mk.inj (Option.some.inj h)
          exact Nat.succ_le_succ (Nat.zero_le L)

/-- A walk over entries keeps the number of free pages only if it stops at the first. -/
theorem copyOutcome_kept {costs : List (Option ℕ)} {L L' : ℕ} (hne : costs ≠ [])
    (h : copyOutcome costs L = some (status, L')) :
    L' = L ↔ L = 0 ∨ L = 1 ∧ ∃ c, costs.head? = some (some (c + 1)) := by
  obtain ⟨o, costs, rfl⟩ := List.exists_cons_of_ne_nil hne
  rcases L with - | L
  · obtain ⟨-, rfl⟩ := Prod.mk.inj (Option.some.inj h)
    exact iff_of_true rfl (.inl rfl)
  · rcases o with - | c
    · exact absurd h (by simp [copyOutcome])
    · rw [copyOutcome] at h
      simp only [List.head?_cons, Option.some.injEq]
      split at h
      · next hle =>
        have hlt := copyOutcome_le h
        refine iff_of_false (by omega) ?_
        rintro (hzero | ⟨hone, c', rfl⟩) <;> omega
      · next hlt =>
        obtain ⟨-, rfl⟩ := Prod.mk.inj (Option.some.inj h)
        constructor
        · exact fun hL => .inr ⟨hL.symm, c - 1, by omega⟩
        · rintro (hzero | ⟨hone, -⟩) <;> omega

theorem vmmCopyPagemap_born {src : ℕ} {o : Option ℕ} (h : Running σ dirs l)
    (hready : (Origin.copy src).Ready σ dirs) (hrun : vmmCopyPagemap src σ = some (o, σ')) :
    Born σ ((Origin.copy src).Idle σ) o σ' := by
  cases vmmCopyPagemap_started h.spaces hready.1 h.current hready.2 with
  | noPage hnil hnone =>
    obtain ⟨rfl, rfl⟩ := Prod.mk.inj (Option.some.inj (hnone.symm.trans hrun))
    exact .gone σ (.refl _) (iff_of_true rfl (.inl hnil))
  | noObject d σ₁ hfree hobj hnone =>
    obtain ⟨rfl, rfl⟩ := Prod.mk.inj (Option.some.inj (hnone.symm.trans hrun))
    refine .gone σ₁ (by rw [hfree]; exact List.sublist_cons_self d _) (iff_of_false ?_ ?_)
    · rw [hfree, List.length_cons]
      omega
    · simp [Origin.Idle, hfree, hobj]
  | begun dst d σ₁ hb hobj hbegun =>
    have hmem : d ∈ σ.freePages := by
      rw [hb.free]
      exact List.mem_cons_self
    have hd := h.spaces.free_page d hmem
    have hself : slotCost σ (σ.region src).pgDir recursivePde = some _ :=
      if_pos (tableLink_eq_some.1 (h.spaces.self _ hready.1)).1
    have hcosts : slotCosts σ (σ.region src).pgDir 0 pageEntries ≠ [] :=
      List.ne_nil_of_mem (List.mem_filterMap.2 ⟨recursivePde, List.mem_range'_1.2 (by decide), hself⟩)
    have hiff : ∀ {status' : ℤ} {L' : ℕ},
        copyOutcome (slotCosts σ₁ (σ.region src).pgDir 0 pageEntries) σ₁.freePages.length = some (status', L') →
          (L' + 1 = σ.freePages.length ↔ (Origin.copy src).Idle σ) := fun hout => by
      rw [hb.costs _ le_rfl] at hout
      rw [hb.free, List.length_cons, Nat.add_right_cancel_iff, copyOutcome_kept hcosts hout, Origin.Idle,
        hb.free, hobj]
      simp
    have hrun := hbegun.symm.trans hrun
    rcases vmmCopyTablesFrom_outcome (n := pageEntries) (i := 0) hb.ready hb.srcDir hb.dstDir
        (Nat.zero_add _).le with
      ⟨hnone, -⟩ | ⟨σ₂, hfail, hsame, hsub, hout⟩ | ⟨σ₂, taken, hgo, hcopied, hout⟩
    · rw [show vmmCopyTablesFrom src dst pageEntries 0 σ₁ = none from hnone 0] at hrun
      exact absurd hrun (by simp)
    · rw [show vmmCopyTablesFrom src dst pageEntries 0 σ₁ = some (-1, σ₂) from hfail 0, Option.bind_some,
        copyFinish, if_pos (show (-1 : ℤ) < 0 by decide)] at hrun
      obtain ⟨σ₃, hdestroy, hrun⟩ := Option.bind_eq_some_iff.1 hrun
      obtain ⟨rfl, rfl⟩ := Prod.mk.inj (Option.some.inj hrun)
      have hpgDir : (σ₂.region dst).pgDir = d := by
        rw [hsame.region]
        exact hb.dstDir
      have hfree := vmmRegionDestroy_frees (by rw [hpgDir]; exact ⟨hd.1, hd.2.1⟩) hdestroy
      rw [hpgDir] at hfree
      refine .gone _ ?_ ?_
      · rw [hfree, hb.free]
        exact hsub.cons_cons d
      · rw [hfree]
        exact hiff hout
    · rw [show vmmCopyTablesFrom src dst pageEntries 0 σ₁ = some (0, σ₂) from hgo 0, Option.bind_some,
        copyFinish, if_neg (show ¬ (0 : ℤ) < 0 by decide)] at hrun
      obtain ⟨rfl, rfl⟩ := Prod.mk.inj (Option.some.inj hrun)
      have hregion : σ₂.region = σ₁.region := hcopied.same.region
      refine .born dst d _ ?_ hmem ?_ (hiff hout) ?_
      · change (Function.update σ₂.region dst _ dst).pgDir = d
        rw [Function.update_self]
        change (σ₂.region dst).pgDir = d
        rw [hregion]
        exact hb.dstDir
      · rw [hb.free]
        change (d :: σ₂.freePages).Sublist _
        rw [hcopied.free]
        exact (List.sublist_append_right taken _).cons_cons d
      · have hdst : dst ∉ l := h.fresh dst (by rw [hobj]; exact List.mem_cons_self)
        have hchain : Chain (fun s => (σ₂.region s).next) σ.regionList l :=
          h.list.congr fun s hs => by
            rw [hregion]
            exact hb.list s fun hmem => h.fresh s hmem hs
        refine ⟨dst :: l, ?_, h.short⟩
        have hnext : (fun s => ((vmmRegionInsert dst (σ₂.setWord d recursivePde
            (pageEntry d pageRw))).region s).next) =
              Function.update (fun s => (σ₂.region s).next) dst σ.regionList := by
          funext s
          change (Function.update σ₂.region dst _ s).next = _
          rcases eq_or_ne s dst with rfl | hne
          · rw [Function.update_self, Function.update_self]
            exact hcopied.same.regionList.trans hb.regionList
          · rw [Function.update_of_ne hne, Function.update_of_ne hne]
        rw [hnext]
        exact hchain.push hdst

theorem Origin.run_born {o : Origin} {r? : Option ℕ} (h : Running σ dirs l) (hready : o.Ready σ dirs)
    (hrun : o.run σ = some (r?, σ')) : Born σ (o.Idle σ) r? σ' := by
  cases o with
  | create initialPages flags hasOut =>
    obtain ⟨⟨o, σ₁⟩, hcreate, he⟩ := Option.map_eq_some_iff.1 hrun
    obtain ⟨rfl, rfl⟩ := Prod.mk.inj he
    exact vmmRegionCreate_born h hcreate
  | copy src => exact vmmCopyPagemap_born h hready hrun

/-! ### The life of a region -/

/-- A region is made, if it can be, and used. -/
def lifeOf (o : Origin) (ops : List UseOp) (σ : Vmm) : Option (Option ℕ × Vmm) :=
  (o.run σ).bind fun res =>
    match res.1 with
    | none => some (none, res.2)
    | some r => (useAll r ops res.2).bind fun σ => some (some r, σ)

/-- The region, if there is one, is destroyed. -/
def teardown : Option ℕ × Vmm → Option Vmm
  | (none, σ) => some σ
  | (some r, σ) => vmmRegionDestroy r σ

/-- Every page that was free is free again, and as many as before are free. -/
def PagesReturned (σ σ' : Vmm) : Prop :=
  (∀ f ∈ σ.freePages, f ∈ σ'.freePages) ∧ σ'.freePages.length = σ.freePages.length

/-- Nothing but the page of the directory is taken, from making the region to its last use. -/
def IdleLife (o : Origin) (ops : List UseOp) (σ : Vmm) : Prop :=
  o.Idle σ ∧ ∀ r σ₁, o.run σ = some (some r, σ₁) → IdleAll r ops σ₁

theorem pagesReturned_of_sublist (h : σ'.freePages.Sublist σ.freePages) :
    PagesReturned σ σ' ↔ σ'.freePages.length = σ.freePages.length := by
  constructor
  · exact fun hret => hret.2
  · exact fun hlen => ⟨fun f hf => by rw [h.eq_of_length hlen]; exact hf, hlen⟩

/-- **What a region took is given back** exactly when it took nothing: neither when it was
made, besides its directory, nor in any call. -/
theorem pages_returned_iff {o : Origin} {ops : List UseOp} {life : Option ℕ × Vmm} (h : Running σ dirs l)
    (hready : o.Ready σ dirs) (hlife : lifeOf o ops σ = some life) :
    ∃ σ', teardown life = some σ' ∧ (PagesReturned σ σ' ↔ IdleLife o ops σ) := by
  obtain ⟨⟨r?, σ₁⟩, hrun, hlife⟩ := Option.bind_eq_some_iff.1 hlife
  cases Origin.run_born h hready hrun with
  | gone _ hsub hiff =>
    obtain rfl := Option.some.inj hlife
    refine ⟨σ₁, rfl, ?_⟩
    rw [pagesReturned_of_sublist hsub, hiff]
    constructor
    · exact fun hidle => ⟨hidle, fun r σ₂ hrun' => absurd (hrun.symm.trans hrun') (by simp)⟩
    · exact fun hidle => hidle.1
  | born r d _ hpgDir hmem hsub hiff hlisted =>
    obtain ⟨σ₂, hops, hlife⟩ := Option.bind_eq_some_iff.1 hlife
    obtain rfl := Option.some.inj hlife
    have hd := h.spaces.free_page d hmem
    have hok : FreeOk (d :: σ₁.freePages) :=
      ⟨h.spaces.free_nodup.sublist hsub, fun t ht => h.spaces.free_page t (hsub.subset ht)⟩
    have htakes := useAll_takes (hok.suffix (List.suffix_cons d _)) hops
    have hpgDir₂ : (σ₂.region r).pgDir = d := (htakes.pgDir r).trans hpgDir
    obtain ⟨σ', hdestroy⟩ := vmmRegionDestroy_returns (htakes.listed hlisted) r
    have hfree := vmmRegionDestroy_frees (by rw [hpgDir₂]; exact ⟨hd.1, hd.2.1⟩) hdestroy
    rw [hpgDir₂] at hfree
    have hsub₂ : (d :: σ₂.freePages).Sublist (d :: σ₁.freePages) := htakes.suffix.sublist.cons_cons d
    have hlen : (d :: σ₂.freePages).length = σ.freePages.length ↔
        (d :: σ₁.freePages).length = σ.freePages.length ∧ σ₂.freePages.length = σ₁.freePages.length := by
      have hle := hsub.length_le
      have hle₂ := htakes.suffix.length_le
      simp only [List.length_cons] at hle ⊢
      omega
    refine ⟨σ', hdestroy, ?_⟩
    rw [pagesReturned_of_sublist (by rw [hfree]; exact hsub₂.trans hsub), hfree, hlen, hiff, htakes.same_iff,
      IdleLife]
    refine and_congr_right' ⟨fun hidle r' σ₁' hrun' => ?_, fun hidle => hidle r σ₁ hrun⟩
    obtain ⟨he, rfl⟩ := Prod.mk.inj (Option.some.inj (hrun.symm.trans hrun'))
    exact Option.some.inj he ▸ hidle

/-- The life of a region that is switched to and gets a page. -/
def usedLife : Option (Option ℕ × Vmm) :=
  lifeOf (.create 0 0 false) [.switch 2, .alloc 1 (pageRw ||| pageUser)]
    (hostRegion [0x2000, 0x3000, 0x4000, 0x5000])

theorem pages_returned_iff_used : ∃ life σ', usedLife = some life ∧ teardown life = some σ' ∧
    (PagesReturned (hostRegion [0x2000, 0x3000, 0x4000, 0x5000]) σ' ↔
      IdleLife (.create 0 0 false) [.switch 2, .alloc 1 (pageRw ||| pageUser)]
        (hostRegion [0x2000, 0x3000, 0x4000, 0x5000])) := by
  have hsome : usedLife.isSome = true := by decide +kernel
  obtain ⟨life, hlife⟩ := Option.isSome_iff_exists.1 hsome
  obtain ⟨σ', hdestroy, hiff⟩ := pages_returned_iff (o := .create 0 0 false) (running_hostRegion _ (by decide)) trivial hlife
  exact ⟨life, σ', hlife, hdestroy, hiff⟩

/-- Its page and its page table are not given back. -/
theorem not_pages_returned : ¬ ∀ (σ : Vmm) (dirs : ℕ → Prop) (l : List ℕ) (o : Origin) (ops : List UseOp)
    (life : Option ℕ × Vmm) (σ' : Vmm), Running σ dirs l → o.Ready σ dirs → lifeOf o ops σ = some life →
    teardown life = some σ' → PagesReturned σ σ' := by
  intro hall
  have hval : (usedLife.bind teardown).map (·.freePages.length) = some 2 := by decide +kernel
  obtain ⟨σ', hrun, hlen⟩ := Option.map_eq_some_iff.1 hval
  obtain ⟨life, hlife, hdestroy⟩ := Option.bind_eq_some_iff.1 hrun
  have hret := (hall _ _ _ (.create 0 0 false) _ life σ' (running_hostRegion [0x2000, 0x3000, 0x4000, 0x5000] (by decide))
    trivial hlife hdestroy).2
  have hfree : (hostRegion [0x2000, 0x3000, 0x4000, 0x5000]).freePages.length = 4 := by decide +kernel
  omega

end Flopperating
