/-
# Runs of a region

`vmm_map` and `vmm_alloc` keep the address spaces apart whichever directory is loaded, and
the only words of directories that they change are those for new page tables (`Kept`).
This is enough to follow a region from `vmm_region_create`, which allocates the first pages
before the region is switched to, through any calls on it (`RegionHeld.reach`).
-/

import Flopperating.Mem.VmmApart

namespace Flopperating

open LinkedList Transition Vmm

variable {σ σ' σ₁ : Vmm} {dirs slots slots' : ℕ → Prop} {i n r t v va pa flags : ℕ} {l : List ℕ} {status : ℤ}

/-- The address spaces are as before but for what their page tables hold and for page
tables that are new, at `slots`. -/
structure Kept (σ σ' : Vmm) (dirs slots : ℕ → Prop) : Prop where
  spaces : Spaces σ' dirs
  currentPgDir : σ'.currentPgDir = σ.currentPgDir
  pgDir : ∀ s, (σ'.region s).pgDir = (σ.region s).pgDir
  next : ∀ s, (σ'.region s).next = (σ.region s).next
  regionList : σ'.regionList = σ.regionList
  entry : ∀ d i, dirs d → σ'.mem d i = σ.mem d i ∨
    slots i ∧ ∃ t, σ'.mem d i = pageEntry t (pageRw ||| pageUser)

namespace Kept

theorem refl (h : Spaces σ dirs) : Kept σ σ dirs slots :=
  ⟨h, rfl, fun _ => rfl, fun _ => rfl, rfl, fun _ _ _ => .inl rfl⟩

theorem of_same (h : Spaces σ' dirs) (hs : SameDescriptors σ σ')
    (hdir : ∀ d, dirs d → σ'.mem d = σ.mem d) : Kept σ σ' dirs slots where
  spaces := h
  currentPgDir := hs.currentPgDir
  pgDir s := by rw [hs.region]
  next s := by rw [hs.region]
  regionList := hs.regionList
  entry d i hd := .inl (congrFun (hdir d hd) i)

theorem trans (h : Kept σ σ₁ dirs slots) (h' : Kept σ₁ σ' dirs slots) : Kept σ σ' dirs slots where
  spaces := h'.spaces
  currentPgDir := h'.currentPgDir.trans h.currentPgDir
  pgDir s := (h'.pgDir s).trans (h.pgDir s)
  next s := (h'.next s).trans (h.next s)
  regionList := h'.regionList.trans h.regionList
  entry d i hd := by
    rcases h'.entry d i hd with hsame | hnew
    · rw [hsame]
      exact h.entry d i hd
    · exact .inr hnew

theorem mono (h : Kept σ σ' dirs slots) (hsub : ∀ i, slots i → slots' i) : Kept σ σ' dirs slots' :=
  { h with entry := fun d i hd => (h.entry d i hd).imp_right fun ⟨hi, ht⟩ => ⟨hsub i hi, ht⟩ }

theorem setNextFreeVa (h : Kept σ σ' dirs slots) (r va : ℕ) :
    Kept σ (σ'.setNextFreeVa r va) dirs slots where
  spaces := h.spaces.congr (fun _ _ => rfl) rfl
  currentPgDir := h.currentPgDir
  pgDir s := pgDir_setNextFreeVa.trans (h.pgDir s)
  next s := by
    refine Eq.trans ?_ (h.next s)
    change (Function.update σ'.region r _ s).next = _
    rcases eq_or_ne s r with rfl | hs
    · rw [Function.update_self]
    · rw [Function.update_of_ne hs]
  regionList := h.regionList
  entry := h.entry

end Kept

section Calls

variable (h : Spaces σ dirs) (hd : dirs (σ.region r).pgDir) (hcur : dirs σ.currentPgDir)

include h hd hcur in
theorem vmmMap_kept (hva : va < recursiveAddr) (hslot : slots (va / pageSize / pageEntries))
    (hrun : vmmMap r va pa flags σ = some (status, σ')) : Kept σ σ' dirs slots := by
  rcases vmmMap_extends h hd hcur hva hrun with ⟨-, rfl, -, -⟩ | ⟨-, hext⟩
  · exact .refl h
  · refine ⟨hext.spaces, hext.same.currentPgDir, fun s => by rw [hext.same.region],
      fun s => by rw [hext.same.region], hext.same.regionList, fun d i hd' => ?_⟩
    rcases em (d = (σ.region r).pgDir ∧ i = va / pageSize / pageEntries) with ⟨rfl, rfl⟩ | hne
    · rcases hext.cases with ⟨-, -, hsame⟩ | ⟨-, t, -, hnew⟩
      · exact .inl hsame
      · exact .inr ⟨hslot, t, hnew⟩
    · exact .inl (hext.dir d i hd' hne)

include h hd hcur in
theorem vmmMapFresh_kept {checked : Bool} {e : LoopEnd} (hle : va + (i + n) * pageSize ≤ recursiveAddr)
    (hslots : ∀ j < n, slots ((va / pageSize + i + j) / pageEntries))
    (hrun : vmmMapFresh checked r va flags n i σ = some (e, σ')) :
    Kept σ σ' dirs slots ∧ ∀ k, e = .noPage k → k ≤ i + n := by
  induction n generalizing i σ with
  | zero =>
    obtain ⟨rfl, rfl⟩ := Prod.mk.inj (Option.some.inj hrun)
    exact ⟨.refl h, fun k hk => absurd hk (by simp)⟩
  | succ n ih =>
    obtain ⟨hlt, hpage, hle'⟩ := range_page hle
    rcases hfree : σ.freePages with - | ⟨pa, free⟩
    · rw [vmmMapFresh, Vmm.allocPage, hfree] at hrun
      obtain ⟨rfl, rfl⟩ := Prod.mk.inj (Option.some.inj hrun)
      refine ⟨.refl h, fun k hk => ?_⟩
      obtain rfl := LoopEnd.noPage.inj hk
      exact Nat.le_add_right _ _
    · obtain ⟨h₁, -, hpa0, -⟩ := h.take hfree
      rw [vmmMapFresh, Vmm.allocPage, hfree] at hrun
      simp only [hpa0, if_false] at hrun
      obtain ⟨⟨status, σ₁⟩, hmap, hrun⟩ := Option.bind_eq_some_iff.1 hrun
      have hk : Kept { σ with freePages := free } σ₁ dirs slots :=
        vmmMap_kept h₁ hd hcur hlt (by rw [hpage]; exact hslots 0 (Nat.succ_pos n)) hmap
      have hk : Kept σ σ₁ dirs slots :=
        ⟨hk.spaces, hk.currentPgDir, hk.pgDir, hk.next, hk.regionList, hk.entry⟩
      split at hrun
      · obtain ⟨rfl, rfl⟩ := Prod.mk.inj (Option.some.inj hrun)
        exact ⟨hk, fun k hk => absurd hk (by simp)⟩
      · obtain ⟨hk', hend⟩ := ih hk.spaces (by rwa [hk.pgDir]) (by rwa [hk.currentPgDir]) hle'
          (fun j hj => by simpa only [Nat.add_assoc, Nat.add_comm 1] using hslots (j + 1) (by omega)) hrun
        exact ⟨hk.trans hk', fun k he => (hend k he).trans (by omega)⟩

include h hcur in
theorem vmmUnmapRangeFrom_kept (hle : va + (i + n) * pageSize ≤ recursiveAddr)
    (hrun : vmmUnmapRangeFrom r va n i σ = some (status, σ')) : Kept σ σ' dirs slots := by
  induction n generalizing i σ with
  | zero =>
    obtain ⟨-, rfl⟩ := Prod.mk.inj (Option.some.inj hrun)
    exact .refl h
  | succ n ih =>
    obtain ⟨hlt, -, hle'⟩ := range_page hle
    obtain ⟨⟨status₁, σ₁⟩, hunmap, hrun⟩ := Option.bind_eq_some_iff.1 hrun
    obtain ⟨hs, hfree, hdir⟩ := vmmUnmap_dirs h.toDirectories hcur hlt hunmap
    have hk : Kept σ σ₁ dirs slots := .of_same (h.congr hdir hfree) hs hdir
    have hrun : (if status₁ < 0 then some (-1, σ₁) else vmmUnmapRangeFrom r va n (i + 1) σ₁) =
        some (status, σ') := hrun
    split at hrun
    · obtain ⟨-, rfl⟩ := Prod.mk.inj (Option.some.inj hrun)
      exact hk
    · exact hk.trans (ih hk.spaces (by rwa [hk.currentPgDir]) hle' hrun)

include h hd hcur in
theorem vmmAlloc_kept (hle : vmmBump r σ + n * pageSize ≤ recursiveAddr)
    (hslots : ∀ j < n, slots ((vmmBump r σ / pageSize + j) / pageEntries))
    (hrun : vmmAlloc r n flags σ = some (v, σ')) : Kept σ σ' dirs slots := by
  rw [vmmAlloc] at hrun
  split at hrun
  · obtain ⟨-, rfl⟩ := Prod.mk.inj (Option.some.inj hrun)
    exact .refl h
  · obtain ⟨⟨e, σ₁⟩, hloop, hrun⟩ := Option.bind_eq_some_iff.1 hrun
    have hle₀ : vmmBump r σ + (0 + n) * pageSize ≤ recursiveAddr := by rwa [Nat.zero_add]
    obtain ⟨hk, hend⟩ := vmmMapFresh_kept h hd hcur hle₀ hslots hloop
    cases e with
    | noPage i =>
      obtain ⟨⟨status, σ₂⟩, hunmap, hrun⟩ := Option.bind_eq_some_iff.1 hrun
      obtain ⟨-, rfl⟩ := Prod.mk.inj (Option.some.inj hrun)
      have hi := hend i rfl
      refine hk.trans (vmmUnmapRangeFrom_kept hk.spaces (by rwa [hk.currentPgDir]) ?_ hunmap)
      exact le_trans (Nat.add_le_add_left (Nat.mul_le_mul_right _ (by omega)) _) hle
    | done =>
      obtain ⟨-, rfl⟩ := Prod.mk.inj (Option.some.inj hrun)
      exact hk.setNextFreeVa r _
    | noTable i pa =>
      obtain ⟨-, rfl⟩ := Prod.mk.inj (Option.some.inj hrun)
      exact hk.setNextFreeVa r _

end Calls

/-! ### From `vmm_region_create` on -/

/-- The address spaces `dirs`, one of them loaded, and the regions `l`. -/
structure Running (σ : Vmm) (dirs : ℕ → Prop) (l : List ℕ) : Prop where
  spaces : Spaces σ dirs
  current : dirs σ.currentPgDir
  list : Chain (fun s => (σ.region s).next) σ.regionList l
  short : l.length + 1 < vmmSteps
  fresh : ∀ p ∈ σ.objects, p ∉ l

/-- The directory `d` of region `r` links itself and, at `slots`, page tables for user
pages. -/
structure RegionInv (dirs slots : ℕ → Prop) (r d : ℕ) (σ : Vmm) : Prop where
  spaces : Spaces σ dirs
  dir : dirs d
  current : dirs σ.currentPgDir
  pgDir : (σ.region r).pgDir = d
  pos : 0 < d
  self : σ.mem d recursivePde = pageEntry d (pageRw ||| pageUser)
  entry : ∀ i, tableSlot i → present (σ.mem d i) = true → slots i ∧ userBit (σ.mem d i) = true
  list : ∃ l, Chain (fun s => (σ.region s).next) σ.regionList l ∧ l.length < vmmSteps ∧ r ∈ l

variable {d : ℕ} {va' : Option ℕ}

/-- What the calls keep, they keep of the region. -/
theorem RegionInv.kept (h : RegionInv dirs slots r d σ) (hk : Kept σ σ' dirs slots)
    (hslots : ∀ i, slots i → tableSlot i) : RegionInv dirs slots r d σ' where
  spaces := hk.spaces
  dir := h.dir
  current := by
    rw [hk.currentPgDir]
    exact h.current
  pgDir := (hk.pgDir r).trans h.pgDir
  pos := h.pos
  self := by
    rcases hk.entry d recursivePde h.dir with hsame | ⟨hslot, -⟩
    · exact hsame.trans h.self
    · exact absurd (hslots _ hslot) (Nat.lt_irrefl _)
  entry i hi hpres := by
    rcases hk.entry d i h.dir with hsame | ⟨hslot, t, hnew⟩
    · rw [hsame] at hpres ⊢
      exact h.entry i hi hpres
    · rw [hnew]
      exact ⟨hslot, userBit_pageEntry t _⟩
  list := by
    obtain ⟨l, hl, hshort, hr⟩ := h.list
    refine ⟨l, ?_, hshort, hr⟩
    rw [hk.regionList]
    exact hl.congr fun s _ => hk.next s

theorem Created.regionInv (hc : Created σ σ' r d) (h : Running σ dirs l) :
    RegionInv (fun a => dirs a ∨ a = d) slots r d σ' where
  spaces := hc.spaces h.spaces
  dir := .inr rfl
  current := .inl (by rw [hc.currentPgDir]; exact h.current)
  pgDir := hc.pgDir
  pos := (h.spaces.free_page d hc.mem_free).1
  self := hc.self
  entry i hi hpres := by
    rw [hc.empty i hi.ne, present_zero] at hpres
    exact absurd hpres (by simp)
  list := by
    have hr : r ∉ l := h.fresh r (by rw [hc.objects]; exact List.mem_cons_self)
    refine ⟨r :: l, ?_, h.short, List.mem_cons_self⟩
    have hnext : (fun s => (σ'.region s).next) =
        Function.update (fun s => (σ.region s).next) r σ.regionList := by
      funext s
      rw [hc.region]
      rcases eq_or_ne s r with rfl | hs
      · rw [Function.update_self, Function.update_self]
      · rw [Function.update_of_ne hs, Function.update_of_ne hs]
    rw [hnext, hc.regionList]
    exact h.list.push hr

/-- The slots of the addresses below `top`. -/
def slotsBelow (top i : ℕ) : Prop := i < top / (pageSize * pageEntries)

theorem slotsBelow_page {top : ℕ} (hva : va < top) (htop : pageSize * pageEntries ∣ top) :
    slotsBelow top (va / pageSize / pageEntries) := by
  rw [slotsBelow, Nat.div_div_eq_div_mul]
  exact Nat.div_lt_div_of_lt_of_dvd htop hva

theorem slotsBelow_range {top j : ℕ} (hle : va + n * pageSize ≤ top)
    (htop : pageSize * pageEntries ∣ top) (hj : j < n) :
    slotsBelow top ((va / pageSize + j) / pageEntries) := by
  rw [← page_div]
  refine slotsBelow_page (lt_of_lt_of_le ?_ hle) htop
  exact Nat.add_lt_add_left (Nat.mul_lt_mul_of_pos_right hj (by decide)) va

/-- **`vmm_region_create`**: the region it returns is one more address space. -/
theorem vmmRegionCreate_inv {top initialPages flags : ℕ} {hasOut : Bool} (h : Running σ dirs l)
    (htop : top ≤ recursiveAddr) (hdvd : pageSize * pageEntries ∣ top)
    (hle : userSpaceStart + initialPages * pageSize ≤ top)
    (hrun : vmmRegionCreate initialPages flags hasOut σ = some ((some r, va'), σ')) :
    ∃ d, RegionInv (fun a => dirs a ∨ a = d) (slotsBelow top) r d σ' := by
  rcases vmmRegionNew_cases h.spaces.freeOk with ⟨-, hnew⟩ | ⟨-, -, hnone, -⟩ | ⟨r', d, σ₁, hnew, hc⟩
  · rw [vmmRegionCreate, hnew] at hrun
    exact absurd hrun (by simp)
  · rcases hnew : vmmRegionNew σ with ⟨o, σ₁⟩
    rw [hnew] at hnone
    obtain rfl : o = none := hnone
    rw [vmmRegionCreate, hnew] at hrun
    exact absurd hrun (by simp)
  · have hinv : RegionInv (fun a => dirs a ∨ a = d) (slotsBelow top) r' d σ₁ := hc.regionInv h
    have hbump : vmmBump r' σ₁ = userSpaceStart := by
      rw [vmmBump, hc.region, Function.update_self]
      rfl
    rw [vmmRegionCreate, hnew] at hrun
    dsimp only at hrun
    split at hrun
    · obtain ⟨⟨v, σ₂⟩, halloc, hrun⟩ := Option.bind_eq_some_iff.1 hrun
      have hk : Kept σ₁ σ₂ (fun a => dirs a ∨ a = d) (slotsBelow top) := by
        refine vmmAlloc_kept hinv.spaces (by rw [hinv.pgDir]; exact hinv.dir) hinv.current ?_
          (fun j hj => ?_) halloc
        · rw [hbump]
          exact hle.trans htop
        · rw [hbump]
          exact slotsBelow_range hle hdvd hj
      have hrun : (if v = minusOne then
          (vmmRegionRemove r' σ₂).bind fun σ₃ =>
            some ((none, none), (σ₃.kfree r').freePage (σ₁.region r').pgDir)
          else some ((some r', some v), σ₂)) = some ((some r, va'), σ') := hrun
      split at hrun
      · obtain ⟨σ₃, -, hrun⟩ := Option.bind_eq_some_iff.1 hrun
        exact absurd hrun (by simp)
      · obtain ⟨he, rfl⟩ := Prod.mk.inj (Option.some.inj hrun)
        obtain rfl := Option.some.inj (Prod.mk.inj he).1
        exact ⟨d, hinv.kept hk fun i hi => hi.trans_le (Nat.div_le_div_right htop)⟩
    · obtain ⟨he, rfl⟩ := Prod.mk.inj (Option.some.inj hrun)
      obtain rfl := Option.some.inj (Prod.mk.inj he).1
      exact ⟨d, hinv⟩

/-- **`vmm_region_remove`** takes the region off the list. -/
theorem vmmRegionRemove_spec (hlist : Chain (fun s => (σ.region s).next) σ.regionList l)
    (hshort : l.length < vmmSteps) (r : ℕ) :
    ∃ σ', vmmRegionRemove r σ = some σ' ∧ σ'.mem = σ.mem ∧ σ'.freePages = σ.freePages ∧
      (∀ s, (σ'.region s).pgDir = (σ.region s).pgDir) ∧
      ¬ Linked (fun s => (σ'.region s).next) σ'.regionList r := by
  obtain ⟨head, next, hunlink, hchain, -⟩ := unlink_spec r hlist hshort
  have hrun : vmmRegionRemove r σ =
      some { σ with region := fun i => { σ.region i with next := next i }, regionList := head } := by
    rw [vmmRegionRemove, hunlink]
  exact ⟨_, hrun, rfl, rfl, fun _ => rfl, fun hlinked => hlist.nodup.not_mem_erase (hchain.linked_iff.1 hlinked)⟩

/-! ### Calls on the region -/

/-- A call on the region. -/
inductive RegionOp
  | map (va pa flags : ℕ)
  | alloc (pages flags : ℕ)

namespace RegionOp

/-- The state after the call, whatever it returns. -/
def run (r : ℕ) : RegionOp → Vmm → Option Vmm
  | map va pa flags, σ => (vmmMap r va pa flags σ).map Prod.snd
  | alloc pages flags, σ => (vmmAlloc r pages flags σ).map Prod.snd

/-- The call maps pages below `top`. -/
def Below (top r : ℕ) (σ : Vmm) : RegionOp → Prop
  | map va _ _ => va < top
  | alloc pages _ => vmmBump r σ + pages * pageSize ≤ top

end RegionOp

/-- The region `r` has been created and switched to. -/
def RegionStart (top r : ℕ) (s : Vmm) : Prop :=
  ∃ σ dirs l initialPages flags hasOut va σ', Running σ dirs l ∧
    userSpaceStart + initialPages * pageSize ≤ top ∧
    vmmRegionCreate initialPages flags hasOut σ = some ((some r, va), σ') ∧ s = vmmSwitch r σ'

/-- One call. -/
def RegionStep (top r : ℕ) (s : Vmm) (op : RegionOp) (s' : Vmm) : Prop :=
  op.Below top r s ∧ op.run r s = some s'

/-- What holds of the region wherever the calls lead. -/
def RegionHeld (top r d : ℕ) (s : Vmm) : Prop :=
  Loaded s r ∧ ∃ dirs, RegionInv dirs (slotsBelow top) r d s

section Run

variable {top : ℕ} (htop : top ≤ recursiveAddr) (hdvd : pageSize * pageEntries ∣ top)

include htop hdvd in
theorem RegionHeld.start {s : Vmm} (h : RegionStart top r s) : ∃ d, RegionHeld top r d s := by
  obtain ⟨σ, dirs, l, initialPages, flags, hasOut, va, σ', hrunning, hle, hrun, rfl⟩ := h
  obtain ⟨d, hinv⟩ := vmmRegionCreate_inv hrunning htop hdvd hle hrun
  refine ⟨d, loaded_vmmSwitch σ' r, _, ⟨hinv.spaces.switch, hinv.dir, ?_, hinv.pgDir, hinv.pos, hinv.self,
    hinv.entry, hinv.list⟩⟩
  exact .inr hinv.pgDir

include htop hdvd in
/-- What one call preserves. -/
theorem RegionHeld.step {s s' : Vmm} {op : RegionOp} (h : RegionHeld top r d s)
    (hstep : RegionStep top r s op s') : RegionHeld top r d s' := by
  obtain ⟨hl, dirs, hinv⟩ := h
  obtain ⟨hbelow, hrun⟩ := hstep
  have hd : dirs (s.region r).pgDir := by
    rw [hinv.pgDir]
    exact hinv.dir
  have hk : Kept s s' dirs (slotsBelow top) := by
    cases op with
    | map va pa flags =>
      obtain ⟨⟨status, σ'⟩, hmap, rfl⟩ := Option.map_eq_some_iff.1 hrun
      exact vmmMap_kept hinv.spaces hd hinv.current (lt_of_lt_of_le hbelow htop)
        (slotsBelow_page hbelow hdvd) hmap
    | alloc pages flags =>
      obtain ⟨⟨v, σ'⟩, halloc, rfl⟩ := Option.map_eq_some_iff.1 hrun
      refine vmmAlloc_kept hinv.spaces hd hinv.current (le_trans hbelow htop)
        (fun j hj => slotsBelow_range hbelow hdvd hj) halloc
  refine ⟨?_, dirs, hinv.kept hk fun i hi => lt_of_lt_of_le hi (Nat.div_le_div_right htop)⟩
  rw [Loaded, hk.currentPgDir, hk.pgDir]
  exact hl

include htop hdvd in
/-- **A region keeps its form** in every run. -/
theorem RegionHeld.reach {s : Vmm} (h : Reach (RegionStart top r) (RegionStep top r) s) :
    ∃ d, RegionHeld top r d s :=
  h.invariant (P := fun s => ∃ d, RegionHeld top r d s) (fun _ hs => RegionHeld.start htop hdvd hs)
    fun _ _ _ _ ⟨d, hs⟩ hstep => ⟨d, hs.step htop hdvd hstep⟩

end Run

/-! ### A region to start from -/

/-- A region that is loaded over clear memory, and a descriptor for one more. -/
def hostRegion (free : List ℕ) : Vmm := vmmSwitch 1 (vmmRegionNew (clearVmm (0x1000 :: free) [1, 2])).2

theorem running_hostRegion (free : List ℕ) (hfree : FreeOk (0x1000 :: free)) :
    Running (hostRegion free) (· = 0x1000) [1] := by
  obtain ⟨-, hc⟩ := vmmRegionNew_created (σ := clearVmm (0x1000 :: free) [1, 2]) hfree rfl rfl
  have hobjects : (hostRegion free).objects = [2] := (List.cons.inj hc.objects).2.symm
  refine ⟨(hc.spaces_single hfree).switch, hc.pgDir, ?_, by decide, fun p hp => ?_⟩
  · refine ⟨hc.regionList, ?_⟩
    change ((vmmRegionNew (clearVmm (0x1000 :: free) [1, 2])).2.region 1).next = none
    rw [hc.region, Function.update_self]
    rfl
  · rw [hobjects, List.mem_singleton] at hp
    rw [hp]
    decide

/-- A region that has been created, switched to, and has allocated a page. -/
def usedRegion : Option Vmm :=
  (vmmRegionCreate 0 0 false (hostRegion [0x2000, 0x3000, 0x4000, 0x5000])).bind fun o =>
    (RegionOp.alloc 1 (pageRw ||| pageUser)).run 2 (vmmSwitch 2 o.2)

theorem exists_usedRegion : ∃ s, usedRegion = some s := by
  have hsome : usedRegion.isSome = true := by decide +kernel
  exact Option.isSome_iff_exists.1 hsome

/-- The two calls. -/
theorem usedRegion_steps {s : Vmm} {top : ℕ} (h : usedRegion = some s) (htop : userSpaceStart ≤ top) :
    ∃ σ, RegionStart top 2 σ ∧ vmmBump 2 σ = userSpaceStart ∧
      (RegionOp.alloc 1 (pageRw ||| pageUser)).run 2 σ = some s := by
  have hval : (vmmRegionCreate 0 0 false (hostRegion [0x2000, 0x3000, 0x4000, 0x5000])).map
      (fun o => (o.1, vmmBump 2 (vmmSwitch 2 o.2))) = some ((some 2, none), userSpaceStart) := by
    decide +kernel
  obtain ⟨⟨o, σ⟩, hcreate, hrun⟩ := Option.bind_eq_some_iff.1 h
  rw [hcreate] at hval
  obtain ⟨rfl, hbump⟩ := Prod.mk.inj (Option.some.inj hval)
  exact ⟨vmmSwitch 2 σ, ⟨_, _, _, 0, 0, false, none, σ, running_hostRegion _ (by decide), htop, hcreate, rfl⟩,
    hbump, hrun⟩

theorem usedRegion_reach {s : Vmm} {top : ℕ} (h : usedRegion = some s)
    (htop : userSpaceStart + pageSize ≤ top) : Reach (RegionStart top 2) (RegionStep top 2) s := by
  obtain ⟨σ, hstart, hbump, hrun⟩ := usedRegion_steps h ((Nat.le_add_right _ _).trans htop)
  refine (Reach.init hstart).step (.alloc 1 (pageRw ||| pageUser)) ⟨?_, hrun⟩
  change vmmBump 2 σ + 1 * pageSize ≤ top
  rw [hbump, Nat.one_mul]
  exact htop

end Flopperating
