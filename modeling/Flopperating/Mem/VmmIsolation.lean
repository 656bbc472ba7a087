/-
# Address spaces and the recursive window

`vmm_map`, `vmm_unmap` and `vmm_protect` find the directory through their region
argument and the page tables through the window of the loaded directory.  On the
loaded region that is one address space, and no other one changes
(`Rewrote`).  On another region it is two: the word goes to the tables of the loaded
region (`vmmMap_elsewhere`).

`isolated_iff` says on which regions every call keeps to its regions.
-/

import Flopperating.Mem.VmmRefine

namespace Flopperating

open TwoLevel

/-- The regions `rs` have address spaces of their own, and one of them is loaded. -/
structure RegionSet (σ : Vmm) (rs : ℕ → Prop) : Prop where
  spaces : Spaces σ fun d => ∃ r, rs r ∧ (σ.region r).pgDir = d
  inj : ∀ r s, rs r → rs s → (σ.region r).pgDir = (σ.region s).pgDir → r = s
  current : ∃ r, rs r ∧ Loaded σ r

/-- What `vmm_resolve` returns for an address when the region is current. -/
def Vmm.translate (σ : Vmm) (r va : ℕ) : Option ℕ := vmmResolve r va (vmmSwitch r σ)

/-- The calls that change the address spaces of regions. -/
inductive RegionCall
  | map (r va pa flags : ℕ)
  | unmap (r va : ℕ)
  | protect (r va flags : ℕ)
  | alloc (r pages flags : ℕ)
  | free (r va pages : ℕ)
  | mapShared (a b vaA vaB pa pages flags : ℕ)

/-- What writes of words, each to a page of a region, make of the word `w` of page
`q` of region `r`. -/
def applyWrites (writes : List (ℕ × ℕ × ℕ)) (r q w : ℕ) : ℕ :=
  writes.foldl (fun w e => if e.1 = r ∧ q = e.2.1 then e.2.2 else w) w

/-- The writes of `vmm_map_shared` from page `i` on, for `n` pages. -/
def sharedWrites (a b vaA vaB pa flags : ℕ) : ℕ → ℕ → List (ℕ × ℕ × ℕ)
  | 0, _ => []
  | n + 1, i => (a, vaA / pageSize + i, pageEntry (u32 (pa + i * pageSize)) flags) ::
      (b, vaB / pageSize + i, pageEntry (u32 (pa + i * pageSize)) flags) ::
      sharedWrites a b vaA vaB pa flags n (i + 1)

/-- The words of the pages of region `r` have become what `f` makes of them. -/
def Became (σ σ' : Vmm) (r : ℕ) (f : ℕ → ℕ → ℕ) : Prop :=
  ∀ q, q < windowPage → σ'.word (σ'.region r).pgDir q = f q (σ.word (σ.region r).pgDir q)

namespace RegionCall

/-- The region that is changed. -/
def first : RegionCall → ℕ
  | map r .. | unmap r .. | protect r .. | alloc r .. | free r .. => r
  | mapShared a .. => a

/-- The other region that is changed. -/
def second : RegionCall → ℕ
  | map r .. | unmap r .. | protect r .. | alloc r .. | free r .. => r
  | mapShared _ b .. => b

/-- What the call returns, and the state after it. -/
def run (σ : Vmm) : RegionCall → Option (ℤ × Vmm)
  | map r va pa flags => vmmMap r va pa flags σ
  | unmap r va => vmmUnmap r va σ
  | protect r va flags => vmmProtect r va flags σ
  | alloc r pages flags => (vmmAlloc r pages flags σ).map fun o => (o.1, o.2)
  | free r va pages => (vmmFree r va pages σ).map fun σ' => (0, σ')
  | mapShared a b vaA vaB pa pages flags => vmmMapShared a b vaA vaB pa pages flags σ

/-- The pages are below the recursive window. -/
def Below (σ : Vmm) : RegionCall → Prop
  | map _ va .. | unmap _ va | protect _ va .. => va < recursiveAddr
  | alloc r pages _ => vmmBump r σ + pages * pageSize ≤ recursiveAddr
  | free _ va pages => va + pages * pageSize ≤ recursiveAddr
  | mapShared _ _ vaA vaB _ pages _ =>
    vaA + pages * pageSize ≤ recursiveAddr ∧ vaB + pages * pageSize ≤ recursiveAddr

/-- The effect of a call that returns `v` is seen in its regions. -/
def Effect (σ σ' : Vmm) (v : ℤ) : RegionCall → Prop
  | map r va pa flags =>
    (v = 0 ∧ Became σ σ' r fun q w => if q = va / pageSize then pageEntry pa flags else w) ∨
    (v = -1 ∧ Became σ σ' r fun _ w => w)
  | unmap r va =>
    Became σ σ' r (fun q w => if q = va / pageSize then 0 else w) ∧
      (v = 0 ∨ v = -1 ∧ σ.word (σ.region r).pgDir (va / pageSize) = 0)
  | protect r va flags =>
    if present (σ.word (σ.region r).pgDir (va / pageSize)) then
      v = 0 ∧ Became σ σ' r fun q w => if q = va / pageSize then pageEntry w flags else w
    else v = -1 ∧ Became σ σ' r fun _ w => w
  | alloc r pages flags =>
    (v = minusOne ∧ ∃ k ≤ pages, Became σ σ' r fun q w =>
      if vmmBump r σ / pageSize ≤ q ∧ q < vmmBump r σ / pageSize + k then 0 else w) ∨
    (v = vmmBump r σ ∧ ∃ frames : List ℕ, frames.Nodup ∧ (∀ f ∈ frames, f ∈ σ.freePages) ∧
      frames.length ≤ pages ∧ (frames.length = pages ∨ σ'.freePages = []) ∧
      Became σ σ' r fun q w => if vmmBump r σ / pageSize ≤ q then
        (frames[q - vmmBump r σ / pageSize]?.map fun f => pageEntry f flags).getD w else w)
  | free r va pages =>
    (Became σ σ' r fun q w =>
      if va / pageSize ≤ q ∧ q < va / pageSize + pages then 0 else w) ∧
    σ'.freePages = freedPages (σ.word (σ.region r).pgDir) (va % pageSize) (va / pageSize) pages ++
      σ.freePages
  | mapShared a b vaA vaB pa pages flags =>
    ∃ k ≤ 2 * pages, (v = 0 ∧ k = 2 * pages ∨ v = -1 ∧ k < 2 * pages) ∧
      ∀ r, r = a ∨ r = b → Became σ σ' r (applyWrites ((sharedWrites a b vaA vaB pa flags pages 0).take k) r)

/-- The call returns, its effect is seen in its regions, and every other region
translates every address as before. -/
def Isolated (rs : ℕ → Prop) (σ : Vmm) (c : RegionCall) : Prop :=
  ∃ v σ', c.run σ = some (v, σ') ∧ c.Effect σ σ' v ∧
    ∀ s, rs s → s ≠ c.first → s ≠ c.second →
      ∀ va, va < 2 ^ 32 → σ'.translate s va = σ.translate s va

end RegionCall

variable {σ σ' σ₁ : Vmm} {dirs : ℕ → Prop} {a b d i k n p q r s t va vaA vaB pa w flags : ℕ}
  {f g : ℕ → ℕ → ℕ} {rs : ℕ → Prop} {frames : List ℕ}

/-! ### Calls on the loaded region -/

theorem SameDescriptors.pgDir (h : SameDescriptors σ σ') (s : ℕ) :
    (σ'.region s).pgDir = (σ.region s).pgDir := by rw [h.region]

/-- A region that is switched to shows its own words. -/
theorem translate_eq (hva : va < 2 ^ 32) :
    σ.translate r va = some (if present (σ.word (σ.region r).pgDir (va / pageSize)) then
      maskLow (σ.word (σ.region r).pgDir (va / pageSize)) pageSize ||| va % pageSize else 0) :=
  vmmResolve_loaded (loaded_vmmSwitch σ r) hva

/-- The words of directory `d` have become what `f` makes of them, and nothing else
has changed in any address space but page tables of `d`. -/
structure Rewrote (σ σ' : Vmm) (dirs : ℕ → Prop) (d : ℕ) (f : ℕ → ℕ → ℕ) : Prop where
  pgDir : ∀ s, (σ'.region s).pgDir = (σ.region s).pgDir
  dir : ∀ d', dirs d' → d' ≠ d → σ'.mem d' = σ.mem d'
  other : ∀ d' q, dirs d' → d' ≠ d → q < windowPage → σ'.word d' q = σ.word d' q
  word : ∀ q, q < windowPage → σ'.word d q = f q (σ.word d q)

namespace Rewrote

theorem refl : Rewrote σ σ dirs d fun _ w => w :=
  ⟨fun _ => rfl, fun _ _ _ => rfl, fun _ _ _ _ _ => rfl, fun _ _ => rfl⟩

theorem trans (h : Rewrote σ σ₁ dirs d f) (h' : Rewrote σ₁ σ' dirs d g) :
    Rewrote σ σ' dirs d fun q w => g q (f q w) where
  pgDir s := (h'.pgDir s).trans (h.pgDir s)
  dir d' hd' hne := (h'.dir d' hd' hne).trans (h.dir d' hd' hne)
  other d' q hd' hne hq := (h'.other d' q hd' hne hq).trans (h.other d' q hd' hne hq)
  word q hq := by rw [h'.word q hq, h.word q hq]

theorem congr (h : Rewrote σ σ' dirs d f) (hfg : ∀ q w, f q w = g q w) : Rewrote σ σ' dirs d g :=
  ⟨h.pgDir, h.dir, h.other, fun q hq => (h.word q hq).trans (hfg q _)⟩

theorem became (h : Rewrote σ σ' dirs (σ.region r).pgDir f) : Became σ σ' r f := by
  rw [Became, h.pgDir]
  exact h.word

/-- **The other address spaces are as before.** -/
theorem translate (hr : Rewrote σ σ' dirs d f) (h : Directories σ dirs)
    (hs : dirs (σ.region s).pgDir) (hne : (σ.region s).pgDir ≠ d) (hva : va < 2 ^ 32) :
    σ'.translate s va = σ.translate s va := by
  have hword : σ'.word (σ.region s).pgDir (va / pageSize) =
      σ.word (σ.region s).pgDir (va / pageSize) := by
    rcases Nat.lt_or_ge (va / pageSize) windowPage with hlt | hge
    · exact hr.other _ _ hs hne hlt
    · have hp : va / pageSize / pageEntries = recursivePde := by
        simp only [windowPage, recursivePde, pageEntries, pageSize] at *
        omega
      rw [word_window h hs hp, word_of_link (t := (σ.region s).pgDir), hr.dir _ hs hne]
      rw [hr.dir _ hs hne, hp]
      exact h.self _ hs
  rw [translate_eq hva, translate_eq hva, hr.pgDir, hword]

end Rewrote

theorem Wrote.rewrote (h : Wrote σ σ' dirs d p w) (hd : dirs d) :
    Rewrote σ σ' dirs d fun q w' => if q = p then w else w' where
  pgDir := h.same.pgDir
  dir d' hd' _ := h.dir d' hd'
  other d' q hd' hne hq := by rw [h.word d' q hd' hq, if_neg fun hk => hne hk.1]
  word q hq := by
    rw [h.word d q hd hq]
    exact if_congr (and_iff_right rfl) rfl rfl

theorem Mapped.rewrote (h : Mapped σ σ' dirs d p w) (hd : dirs d) :
    Rewrote σ σ' dirs d fun q w' => if q = p then w else w' where
  pgDir := h.same.pgDir
  dir d' hd' hne := funext fun k => h.dir d' k hd' fun hk => hne hk.1
  other d' q hd' hne hq := by rw [h.word d' q hd' hq, if_neg fun hk => hne hk.1]
  word q hq := by
    rw [h.word d q hd hq]
    exact if_congr (and_iff_right rfl) rfl rfl

theorem Cleared.rewrote (h : Cleared σ σ' dirs d p n) (hd : dirs d) :
    Rewrote σ σ' dirs d fun q w => if p ≤ q ∧ q < p + n then 0 else w where
  pgDir := h.same.pgDir
  dir d' hd' _ := h.dir d' hd'
  other d' q hd' hne hq := by rw [h.word d' q hd' hq, if_neg fun hk => hne hk.1]
  word q hq := by
    rw [h.word d q hd hq]
    exact if_congr (and_iff_right rfl) rfl rfl

theorem FreshRun.rewrote (h : FreshRun σ σ' dirs d p flags frames) :
    Rewrote σ σ' dirs d fun q w =>
      if p ≤ q then (frames[q - p]?.map fun f => pageEntry f flags).getD w else w where
  pgDir := h.same.pgDir
  dir := h.dir
  other := h.other
  word q hq := by
    rcases Nat.lt_or_ge q p with hlt | hge
    · rw [if_neg (Nat.not_le.2 hlt), h.word q hq (by omega)]
    · rw [if_pos hge]
      rcases hf : frames[q - p]? with - | f
      · have hlen := List.getElem?_eq_none_iff.1 hf
        exact h.word q hq (by omega)
      · have hmaps := h.maps (q - p) f hf
        rwa [Nat.add_sub_cancel' hge] at hmaps

/-- The descriptors are no pages. -/
theorem Rewrote.setNextFreeVa (h : Rewrote σ σ' dirs d f) (r va : ℕ) :
    Rewrote σ (σ'.setNextFreeVa r va) dirs d f where
  pgDir s := by rw [pgDir_setNextFreeVa, h.pgDir]
  dir := h.dir
  other := h.other
  word := h.word

/-- Mapping pages and unmapping them again. -/
theorem undo_fresh (q w : ℕ) : (if p ≤ q ∧ q < p + frames.length then 0 else
      if p ≤ q then (frames[q - p]?.map fun f => pageEntry f flags).getD w else w) =
    if p ≤ q ∧ q < p + frames.length then 0 else w := by
  rcases Nat.lt_or_ge q p with hlt | hge
  · rw [if_neg (Nat.not_le.2 hlt)]
  · rw [if_pos hge]
    rcases hf : frames[q - p]? with - | f
    · rfl
    · have hlen := (List.getElem?_eq_some_iff.1 hf).1
      rw [if_pos (by omega), if_pos (by omega)]

section Loaded

variable (h : Spaces σ dirs) (hd : dirs (σ.region r).pgDir) (hl : Loaded σ r)

include h hd hl in
/-- **`vmm_map_shared`** of the loaded region with itself writes word after word, up
to the first for which there is no page table. -/
theorem vmmMapSharedFrom_loaded (hA : vaA + (i + n) * pageSize ≤ recursiveAddr)
    (hB : vaB + (i + n) * pageSize ≤ recursiveAddr) :
    ∃ status σ' k, vmmMapSharedFrom r r vaA vaB pa flags n i σ = some (status, σ') ∧ k ≤ 2 * n ∧
      (status = 0 ∧ k = 2 * n ∨ status = -1 ∧ k < 2 * n) ∧
      Rewrote σ σ' dirs (σ.region r).pgDir
        (applyWrites ((sharedWrites r r vaA vaB pa flags n i).take k) r) := by
  induction n generalizing i σ with
  | zero => exact ⟨0, σ, 0, rfl, le_rfl, .inl ⟨rfl, rfl⟩, .refl⟩
  | succ n ih =>
    obtain ⟨hltA, hpageA, hA'⟩ := range_page hA
    obtain ⟨hltB, hpageB, hB'⟩ := range_page hB
    rcases vmmMap_loaded h hd hl hltA (u32 (pa + i * pageSize)) flags with
      ⟨-, -, hrun⟩ | ⟨σ₁, hrun, hm⟩
    · exact ⟨-1, σ, 0, Option.bind_eq_some_iff.2 ⟨_, hrun, rfl⟩, Nat.zero_le _,
        .inr ⟨rfl, by omega⟩, .refl⟩
    · rw [hpageA] at hm
      have hreg := congrFun hm.same.region r
      rcases vmmMap_loaded hm.spaces (hreg ▸ hd) (hl.of_same hm.same) hltB
        (u32 (pa + i * pageSize)) flags with ⟨-, -, hrun'⟩ | ⟨σ₂, hrun', hm'⟩
      · exact ⟨-1, σ₁, 1, Option.bind_eq_some_iff.2 ⟨_, hrun,
          Option.bind_eq_some_iff.2 ⟨_, hrun', rfl⟩⟩, by omega, .inr ⟨rfl, by omega⟩,
          (hm.rewrote hd).congr fun q w => by simp [sharedWrites, applyWrites]⟩
      · rw [hpageB, hreg] at hm'
        have hreg' := (congrFun hm'.same.region r).trans hreg
        obtain ⟨status, σ', k, hrest, hk, hstatus, hr⟩ := ih hm'.spaces (hreg' ▸ hd)
          ((hl.of_same hm.same).of_same hm'.same) hA' hB'
        rw [hreg'] at hr
        refine ⟨status, σ', k + 2, Option.bind_eq_some_iff.2 ⟨_, hrun,
          Option.bind_eq_some_iff.2 ⟨_, hrun', hrest⟩⟩, by omega, by omega, ?_⟩
        refine (((hm.rewrote hd).trans (hm'.rewrote hd)).trans hr).congr fun q w => ?_
        simp [sharedWrites, applyWrites]

include h hd hl in
/-- **A call on the loaded region** has its effect on it and leaves all other address
spaces. -/
theorem RegionCall.run_loaded (c : RegionCall) (hfirst : c.first = r) (hsecond : c.second = r)
    (hb : c.Below σ) :
    ∃ v σ' f, c.run σ = some (v, σ') ∧ Rewrote σ σ' dirs (σ.region r).pgDir f ∧ c.Effect σ σ' v := by
  cases c with
  | map s va pa flags =>
    obtain rfl : s = r := hfirst
    rcases vmmMap_loaded h hd hl hb pa flags with ⟨-, -, hrun⟩ | ⟨σ', hrun, hm⟩
    · exact ⟨-1, σ, _, hrun, .refl, .inr ⟨rfl, fun _ _ => rfl⟩⟩
    · exact ⟨0, σ', _, hrun, hm.rewrote hd, .inl ⟨rfl, (hm.rewrote hd).became⟩⟩
  | unmap s va =>
    obtain rfl : s = r := hfirst
    rcases vmmUnmap_loaded h.toDirectories hd hl hb with ⟨hnone, hrun⟩ | ⟨-, σ', hrun, hw⟩
    · have h0 : σ.word (σ.region s).pgDir (va / pageSize) = 0 := word_of_absent hnone
      refine ⟨-1, σ, _, hrun, .refl, fun q hq => ?_, .inr ⟨rfl, h0⟩⟩
      rcases eq_or_ne q (va / pageSize) with rfl | hne
      · exact h0.trans (if_pos rfl).symm
      · exact (if_neg hne).symm
    · exact ⟨0, σ', _, hrun, hw.rewrote hd, (hw.rewrote hd).became, .inl rfl⟩
  | protect s va flags =>
    obtain rfl : s = r := hfirst
    rcases vmmProtect_loaded h.toDirectories hd hl hb flags with
      ⟨hnone, hrun⟩ | ⟨hsome, σ', hrun, hw⟩
    · refine ⟨-1, σ, _, hrun, .refl, ?_⟩
      change if present (σ.word (σ.region s).pgDir (va / pageSize)) then _ else _
      rw [hnone]
      exact ⟨rfl, fun _ _ => rfl⟩
    · refine ⟨0, σ', _, hrun, hw.rewrote hd, ?_⟩
      change if present (σ.word (σ.region s).pgDir (va / pageSize)) then _ else _
      rw [hsome]
      refine ⟨rfl, fun q hq => ((hw.rewrote hd).became q hq).trans ?_⟩
      rcases eq_or_ne q (va / pageSize) with rfl | hne
      · rfl
      · exact (if_neg hne).trans (if_neg hne).symm
  | alloc s n flags =>
    obtain rfl : s = r := hfirst
    rcases eq_or_ne n 0 with rfl | hn
    · exact ⟨minusOne, σ, _, rfl, .refl, .inl ⟨rfl, 0, le_rfl, fun q _ => (if_neg (by omega)).symm⟩⟩
    · rcases vmmAlloc_loaded h hd hl hb hn flags with
        ⟨σ', frames, hrun, hf, hall⟩ | ⟨σ', frames, hrun, hgiven⟩
      · have hr := hf.rewrote.setNextFreeVa s (u32 (vmmBump s σ + n * pageSize))
        refine ⟨vmmBump s σ, _, _, Option.map_eq_some_iff.2 ⟨_, hrun, rfl⟩, hr, .inr ⟨rfl, frames,
          hf.nodup, fun f hmem => (hf.taken f hmem).1, ?_, ?_, hr.became⟩⟩
        · rcases hall with ⟨hlen, -⟩ | ⟨hlen, -⟩ <;> omega
        · exact hall.imp (·.1) (·.2.1)
      · obtain ⟨σ₁, hf, hc⟩ := hgiven.fresh
        have hr := (hf.rewrote.trans (hc.rewrote hd)).congr fun q w => undo_fresh q w
        exact ⟨minusOne, σ', _, Option.map_eq_some_iff.2 ⟨_, hrun, rfl⟩, hr,
          .inl ⟨rfl, frames.length, hgiven.short.le, hr.became⟩⟩
  | free s va n =>
    obtain rfl : s = r := hfirst
    obtain ⟨σ', hrun, hc, hfree⟩ := vmmFreeFrom_loaded h.toDirectories hd hl
      (by rw [Nat.zero_add]; exact hb : va + (0 + n) * pageSize ≤ recursiveAddr)
    exact ⟨0, σ', _, Option.map_eq_some_iff.2 ⟨_, hrun, rfl⟩, hc.rewrote hd, (hc.rewrote hd).became,
      hfree⟩
  | mapShared a b vaA vaB pa n flags =>
    obtain rfl : a = r := hfirst
    obtain rfl : b = a := hsecond
    obtain ⟨status, σ', k, hrun, hk, hstatus, hr⟩ := vmmMapSharedFrom_loaded h hd hl
      (by rw [Nat.zero_add]; exact hb.1 : vaA + (0 + n) * pageSize ≤ recursiveAddr)
      (by rw [Nat.zero_add]; exact hb.2 : vaB + (0 + n) * pageSize ≤ recursiveAddr)
    refine ⟨status, σ', _, hrun, hr, k, hk, hstatus, ?_⟩
    rintro s (rfl | rfl) <;> exact hr.became

end Loaded

/-- Every call on the loaded region alone is isolated. -/
theorem RegionCall.isolated_loaded (h : RegionSet σ rs) (ha : rs a) (hl : Loaded σ a) (c : RegionCall)
    (hfirst : c.first = a) (hsecond : c.second = a) (hb : c.Below σ) : c.Isolated rs σ := by
  obtain ⟨v, σ', f, hrun, hr, heffect⟩ := c.run_loaded h.spaces ⟨a, ha, rfl⟩ hl hfirst hsecond hb
  refine ⟨v, σ', hrun, heffect, fun s hs hne _ va hva => ?_⟩
  exact hr.translate h.spaces.toDirectories ⟨s, hs, rfl⟩
    (fun he => hne ((h.inj s a hs ha he).trans hfirst.symm)) hva

/-! ### Regions with nothing to work on -/

/-- The region has no page table below the window. -/
def NoTables (σ : Vmm) (r : ℕ) : Prop :=
  ∀ i, tableSlot i → σ.hasTable (σ.region r).pgDir i = false

/-- The region has no page table, and no page is free for one. -/
def Idle (σ : Vmm) (r : ℕ) : Prop := NoTables σ r ∧ σ.freePages = []

theorem NoTables.word (h : NoTables σ r) (hp : p < windowPage) : σ.word (σ.region r).pgDir p = 0 :=
  word_of_absent (h _ (div_lt_of_window hp))

theorem NoTables.pde (h : NoTables σ r) (hva : va < recursiveAddr) :
    present (σ.pde r (pdIndex va)) = false := h _ (pdIndex_lt_recursivePde hva)

/-- `vmm_map` finds neither a table nor a page for one. -/
theorem vmmMap_idle (h : σ.hasTable (σ.region r).pgDir (pdIndex va) = false)
    (hfree : σ.freePages = []) : vmmMap r va pa flags σ = some (-1, σ) := by
  have htable : vmmMapTable r (pdIndex va) σ = some (-1, σ) := by
    rw [vmmMapTable, Vmm.pde, show present _ = false from h, Vmm.allocPage, hfree]
    rfl
  rw [vmmMap, htable]
  rfl

theorem vmmFreeFrom_idle (h : NoTables σ r) (hle : va + (i + n) * pageSize ≤ recursiveAddr) :
    vmmFreeFrom r va n i σ = some σ := by
  induction n generalizing i with
  | zero => rfl
  | succ n ih =>
    obtain ⟨hlt, -, hle'⟩ := range_page hle
    have hres : vmmResolve r (u32 (va + i * pageSize)) σ = some 0 := by
      rw [vmmResolve, vmmTableWord, h.pde hlt]
      simp
    have hunmap : vmmUnmap r (u32 (va + i * pageSize)) σ = some (-1, σ) := by
      rw [vmmUnmap, h.pde hlt]
      rfl
    refine Option.bind_eq_some_iff.2 ⟨_, hres, Option.bind_eq_some_iff.2 ⟨_, hunmap, ih hle'⟩⟩

theorem freedPages_of_zero {word : ℕ → ℕ} {off : ℕ} (h : ∀ q, p ≤ q → q < p + n → word q = 0) :
    freedPages word off p n = [] := by
  refine List.reverse_eq_nil_iff.2 (List.filterMap_eq_nil_iff.2 fun q hq => ?_)
  obtain ⟨hpq, hqn⟩ := List.mem_range'_1.1 hq
  rw [h q hpq hqn]
  simp

/-- **A call on an idle region** does nothing, and says so. -/
theorem RegionCall.isolated_idle (h : Idle σ a) (c : RegionCall) (hfirst : c.first = a)
    (hb : c.Below σ) : c.Isolated rs σ := by
  obtain ⟨hno, hfree⟩ := h
  have hstay : ∀ s, rs s → s ≠ c.first → s ≠ c.second →
      ∀ va, va < 2 ^ 32 → σ.translate s va = σ.translate s va := fun _ _ _ _ _ _ => rfl
  cases c with
  | map s va pa flags =>
    obtain rfl : s = a := hfirst
    exact ⟨-1, σ, vmmMap_idle (hno _ (pdIndex_lt_recursivePde hb)) hfree, .inr ⟨rfl, fun _ _ => rfl⟩,
      hstay⟩
  | unmap s va =>
    obtain rfl : s = a := hfirst
    have h0 : σ.word (σ.region s).pgDir (va / pageSize) = 0 := hno.word (page_lt_windowPage hb)
    refine ⟨-1, σ, ?_, ⟨fun q hq => ?_, .inr ⟨rfl, h0⟩⟩, hstay⟩
    · change vmmUnmap s va σ = _
      rw [vmmUnmap, hno.pde hb]
      rfl
    · rw [hno.word hq]
      exact (ite_self _).symm
  | protect s va flags =>
    obtain rfl : s = a := hfirst
    refine ⟨-1, σ, ?_, ?_, hstay⟩
    · change vmmProtect s va flags σ = _
      rw [vmmProtect, hno.pde hb]
      rfl
    · change if present (σ.word (σ.region s).pgDir (va / pageSize)) then _ else _
      rw [hno.word (page_lt_windowPage hb), present_zero]
      exact ⟨rfl, fun _ _ => rfl⟩
  | alloc s n flags =>
    obtain rfl : s = a := hfirst
    refine ⟨minusOne, σ, ?_, .inl ⟨rfl, 0, Nat.zero_le n, fun q _ => (if_neg (by omega)).symm⟩, hstay⟩
    change (vmmAlloc s n flags σ).map _ = _
    cases n with
    | zero => rfl
    | succ n =>
      have hloop : vmmMapFresh false s (vmmBump s σ) flags (n + 1) 0 σ = some (.noPage 0, σ) := by
        rw [vmmMapFresh, Vmm.allocPage, hfree]
        rfl
      rw [vmmAlloc, if_neg (Nat.succ_ne_zero n)]
      simp only [hloop]
      rfl
  | free s va n =>
    obtain rfl : s = a := hfirst
    have hle : va + (0 + n) * pageSize ≤ recursiveAddr := by rw [Nat.zero_add]; exact hb
    refine ⟨0, σ, Option.map_eq_some_iff.2 ⟨_, vmmFreeFrom_idle hno hle, rfl⟩, ⟨fun q hq => ?_, ?_⟩,
      hstay⟩
    · rw [hno.word hq]
      exact (ite_self _).symm
    · rw [freedPages_of_zero fun q _ hqn => hno.word (page_lt_of_range hle (by rwa [Nat.add_zero]))]
      rfl
  | mapShared s t vaA vaB pa n flags =>
    obtain rfl : s = a := hfirst
    cases n with
    | zero => exact ⟨0, σ, rfl, ⟨0, le_rfl, .inl ⟨rfl, rfl⟩, fun _ _ _ _ => rfl⟩, hstay⟩
    | succ n =>
      refine ⟨-1, σ, ?_, ⟨0, Nat.zero_le _, .inr ⟨rfl, by omega⟩, fun _ _ _ _ => rfl⟩, hstay⟩
      obtain ⟨hlt, -, -⟩ := range_page
        (by rw [Nat.zero_add]; exact hb.1 : vaA + (0 + (n + 1)) * pageSize ≤ recursiveAddr)
      exact Option.bind_eq_some_iff.2
        ⟨_, vmmMap_idle (hno _ (pdIndex_lt_recursivePde hlt)) hfree, rfl⟩

/-! ### Calls on other regions -/

/-- `vmm_map` has a page table for index `i`, or a page for one. -/
def Served (σ : Vmm) (r i : ℕ) : Prop :=
  σ.hasTable (σ.region r).pgDir i = true ∨ σ.freePages ≠ []

theorem exists_served (h : ¬ Idle σ r) : ∃ i, tableSlot i ∧ Served σ r i := by
  by_contra hnot
  have hno : ∀ i, tableSlot i → ¬ Served σ r i := fun i hi hs => hnot ⟨i, hi, hs⟩
  refine h ⟨fun i hi => Bool.not_eq_true _ ▸ fun ht => hno i hi (.inl ht), ?_⟩
  exact not_not.1 fun hfree => hno 0 (by decide) (.inr hfree)

/-- **`vmm_map` on any region** writes to the tables of the loaded one. -/
theorem vmmMap_elsewhere (h : Spaces σ dirs) (hd : dirs (σ.region s).pgDir)
    (hcur : dirs σ.currentPgDir) (hva : va < recursiveAddr) {status : ℤ}
    (hrun : vmmMap s va pa flags σ = some (status, σ')) :
    (status = -1 ∧ σ' = σ ∧ ¬ Served σ s (va / pageSize / pageEntries)) ∨
    status = 0 ∧ Extended σ σ' dirs (σ.region s).pgDir (va / pageSize / pageEntries) ∧
      σ'.word σ.currentPgDir (va / pageSize) = pageEntry pa flags := by
  rcases vmmMap_extends h hd hcur hva hrun with ⟨hstatus, hsame, hnone, hfree⟩ | ⟨rfl, hext⟩
  · refine .inl ⟨hstatus, hsame, ?_⟩
    rintro (ht | hf)
    · rw [hnone] at ht
      exact absurd ht (by simp)
    · exact hf hfree
  · refine .inr ⟨rfl, hext, ?_⟩
    have hslot := pdIndex_lt_recursivePde hva
    obtain ⟨⟨status₁, σ₁⟩, hrun₁, hrun₂⟩ := Option.bind_eq_some_iff.1 hrun
    rcases vmmMapTable_extends h hd hcur hslot hrun₁ with ⟨rfl, -⟩ | ⟨rfl, hext₁⟩
    · exact absurd (Prod.mk.inj (Option.some.inj hrun₂)).1 (by decide)
    · obtain ⟨pt, hpt, hrun₃⟩ := Option.bind_eq_some_iff.1 hrun₂
      obtain ⟨-, rfl⟩ := Prod.mk.inj (Option.some.inj hrun₃)
      have hlink : tableLink (σ₁.mem σ.currentPgDir (va / pageSize / pageEntries)) = some pt := by
        rw [← pdIndex_eq (hva.trans (by decide)), ← hext₁.same.currentPgDir]
        exact hpt
      have hne := hext₁.spaces.not_dir hcur (div_lt_of_window (page_lt_windowPage hva)) hlink hcur
      rw [word_of_link (t := pt)]
      · exact write_self
      · exact (congrArg tableLink (congrFun (write_of_ne_page hne) _)).trans hlink

/-- The address of a page. -/
theorem page_addr (hp : p < windowPage) : p * pageSize < recursiveAddr ∧
    p * pageSize / pageSize = p ∧ p * pageSize + 1 * pageSize ≤ recursiveAddr := by
  simp only [windowPage, recursiveAddr, recursivePde, pageEntries, pageSize] at *
  omega

/-- The page as the loaded region sees it once it is mapped. -/
theorem translate_of_word (hdir : (σ.region r).pgDir = d) (hpa : pageSize ∣ pa) (hq : q < windowPage)
    (hword : σ.word d q = pageEntry pa 0) : σ.translate r (q * pageSize) = some pa := by
  obtain ⟨hlt, hdiv, -⟩ := page_addr hq
  rw [translate_eq (hlt.trans (by decide)), hdir, hdiv, hword, present_pageEntry, if_pos rfl,
    maskLow_pageEntry (by decide), maskLow_of_dvd hpa, Nat.mul_mod_left, Nat.or_zero]

/-- A page at which an address is not mapped. -/
theorem exists_other_page (x y : Option ℕ) :
    ∃ pa, pageSize ∣ pa ∧ u32 pa = pa ∧ x ≠ some pa ∧ y ≠ some pa := by
  by_contra hnot
  have hall : ∀ k, 1 ≤ k → k ≤ 3 → x = some (k * pageSize) ∨ y = some (k * pageSize) := fun k h1 h3 => by
    by_contra hk
    rw [not_or] at hk
    refine hnot ⟨k * pageSize, Nat.dvd_mul_left _ _, u32_of_lt ?_, hk.1, hk.2⟩
    simp only [pageSize]
    omega
  have h1 := hall 1 le_rfl (by omega)
  have h2 := hall 2 (by omega) (by omega)
  have h3 := hall 3 (by omega) le_rfl
  simp only [pageSize] at h1 h2 h3
  grind

/-- One page that two regions are to share, seen from any region: only the page in
each of the two has changed. -/
theorem RegionCall.Isolated.kept
    (h : (RegionCall.mapShared a b (p * pageSize) (q * pageSize) pa 1 0).Isolated rs σ) :
    ∃ v σ', vmmMapShared a b (p * pageSize) (q * pageSize) pa 1 0 σ = some (v, σ') ∧
      ∀ s t, rs s → t < windowPage → ¬ (s = a ∧ t = p) → ¬ (s = b ∧ t = q) →
        σ'.translate s (t * pageSize) = σ.translate s (t * pageSize) := by
  obtain ⟨v, σ', hrun, ⟨k, -, -, hbecame⟩, hother⟩ := h
  refine ⟨v, σ', hrun, fun s t hs ht hA hB => ?_⟩
  have hlt : t * pageSize < 2 ^ 32 := (page_addr ht).1.trans (by decide)
  have hdiv : ∀ n, n * pageSize / pageSize = n := fun n => Nat.mul_div_cancel n (by decide)
  rcases em (s = a ∨ s = b) with hab | hab
  · have hword := hbecame s hab t ht
    have hkeep : ∀ w, applyWrites ((sharedWrites a b (p * pageSize) (q * pageSize) pa 0 1 0).take k)
        s t w = w := fun w => by
      have hA' : ¬ (a = s ∧ t = p) := fun he => hA ⟨he.1.symm, he.2⟩
      have hB' : ¬ (b = s ∧ t = q) := fun he => hB ⟨he.1.symm, he.2⟩
      rcases k with - | - | k <;> simp [sharedWrites, applyWrites, hdiv, hA', hB']
    rw [hkeep] at hword
    rw [translate_eq hlt, translate_eq hlt, hdiv, hword]
  · rw [not_or] at hab
    exact hother s hs hab.1 hab.2 _ hlt

/-- The two calls that `vmm_map_shared` of one page makes. -/
theorem vmmMapShared_one {v : ℤ} (hp : p < windowPage) (hq : q < windowPage) (hpa : u32 pa = pa)
    (hrun : vmmMapShared a b (p * pageSize) (q * pageSize) pa 1 0 σ = some (v, σ')) :
    (∃ status, status < 0 ∧ vmmMap a (p * pageSize) pa 0 σ = some (status, σ')) ∨
    ∃ status σ₁ status', 0 ≤ status ∧ vmmMap a (p * pageSize) pa 0 σ = some (status, σ₁) ∧
      vmmMap b (q * pageSize) pa 0 σ₁ = some (status', σ') := by
  have hu : ∀ t, t < windowPage → u32 (t * pageSize + 0 * pageSize) = t * pageSize := fun t ht => by
    rw [Nat.zero_mul, Nat.add_zero]
    exact u32_of_lt ((page_addr ht).1.trans (by decide))
  have hu' : u32 (pa + 0 * pageSize) = pa := by rw [Nat.zero_mul, Nat.add_zero, hpa]
  obtain ⟨⟨status, σ₁⟩, hrun₁, hrun₂⟩ := Option.bind_eq_some_iff.1 hrun
  rw [hu p hp, hu'] at hrun₁
  rcases lt_or_ge status 0 with hneg | hpos
  · simp only [hneg, if_true] at hrun₂
    obtain ⟨-, rfl⟩ := Prod.mk.inj (Option.some.inj hrun₂)
    exact .inl ⟨status, hneg, hrun₁⟩
  · simp only [not_lt.2 hpos, if_false] at hrun₂
    obtain ⟨⟨status', σ₂⟩, hrun₃, hrun₄⟩ := Option.bind_eq_some_iff.1 hrun₂
    rw [hu q hq, hu'] at hrun₃
    have hσ : σ₂ = σ' := by
      rcases lt_or_ge status' 0 with hneg | hpos'
      · simp only [hneg, if_true] at hrun₄
        exact (Prod.mk.inj (Option.some.inj hrun₄)).2
      · simp only [not_lt.2 hpos', if_false] at hrun₄
        exact (Prod.mk.inj (Option.some.inj hrun₄)).2
    exact .inr ⟨status, σ₁, status', hpos, hrun₁, hσ ▸ hrun₃⟩

/-- Two pages of the 4 MiB at index `i`. -/
theorem slot_pages (hi : tableSlot i) : ∃ p q, p ≠ q ∧ p < windowPage ∧ q < windowPage ∧
    p / pageEntries = i ∧ q / pageEntries = i := by
  refine ⟨i * pageEntries, i * pageEntries + 1, by omega, ?_⟩
  simp only [tableSlot, windowPage, recursivePde, pageEntries] at *
  omega

section Broken

variable (h : RegionSet σ rs) (ha : rs a) (hb : rs b)
  (hiso : ∀ c : RegionCall, c.first = a → c.second = b → c.Below σ → c.Isolated rs σ)

include h ha hb hiso in
/-- A region that is not loaded has nothing to work on, or the loaded region is
changed with it. -/
theorem idle_of_isolated (hl : ¬ Loaded σ a) : Idle σ a := by
  by_contra hidle
  obtain ⟨i, hi, hserved⟩ := exists_served hidle
  obtain ⟨r, hr, hcur⟩ := h.current
  obtain ⟨p, q, hpq, hp, hq, hpi, hqi⟩ := slot_pages hi
  obtain ⟨hva, hdiv, hle⟩ := page_addr hp
  obtain ⟨hva', hdiv', hle'⟩ := page_addr hq
  obtain ⟨pa, hpa, hpa32, hnp, hnq⟩ := exists_other_page (σ.translate r (p * pageSize))
    (σ.translate r (q * pageSize))
  obtain ⟨v, σ', hrun, hkept⟩ := (hiso (.mapShared a b (p * pageSize) (q * pageSize) pa 1 0) rfl rfl
    ⟨hle, hle'⟩).kept
  have hdcur : (fun d => ∃ r, rs r ∧ (σ.region r).pgDir = d) σ.currentPgDir := ⟨r, hr, hcur.symm⟩
  have hra : r ≠ a := fun he => hl (he ▸ hcur)
  rw [← hpi, ← hdiv] at hserved
  rcases vmmMapShared_one hp hq hpa32 hrun with ⟨status, hneg, hrun₁⟩ |
    ⟨status, σ₁, status', hpos, hrun₁, hrun₂⟩
  · rcases vmmMap_elsewhere h.spaces ⟨a, ha, rfl⟩ hdcur hva hrun₁ with ⟨-, -, hnot⟩ | ⟨rfl, -⟩
    · exact hnot hserved
    · exact absurd hneg (by decide)
  · obtain ⟨-, hext, hword⟩ := (vmmMap_elsewhere h.spaces ⟨a, ha, rfl⟩ hdcur hva hrun₁).resolve_left
      fun hk => hk.2.2 hserved
    have hreg : ∀ s, (σ₁.region s).pgDir = (σ.region s).pgDir := hext.same.pgDir
    have hcur₁ : Loaded σ₁ r := hcur.of_same hext.same
    rw [hdiv, hcur] at hword
    -- the loaded region cannot show `pa` in the end at a page that is not its own
    have hnot : ∀ t, t < windowPage → ¬ (r = b ∧ t = q) → σ.translate r (t * pageSize) ≠ some pa →
        (σ'.region r).pgDir = (σ.region r).pgDir →
        σ'.word (σ.region r).pgDir t ≠ pageEntry pa 0 := fun t ht hbt hne hdir hw =>
      hne ((hkept r t hr ht (fun he => hra he.1) hbt).symm.trans (translate_of_word hdir hpa ht hw))
    rcases eq_or_ne r b with rfl | hrb
    · rcases vmmMap_loaded hext.spaces ⟨r, hr, (hreg r).symm⟩ hcur₁ hva' pa 0 with
        ⟨-, -, hrun'⟩ | ⟨σ₂, hrun', hm⟩
      · obtain ⟨-, rfl⟩ := Prod.mk.inj (Option.some.inj (hrun₂.symm.trans hrun'))
        exact hnot p hp (fun he => hpq he.2) hnp (hreg r) hword
      · obtain ⟨-, rfl⟩ := Prod.mk.inj (Option.some.inj (hrun₂.symm.trans hrun'))
        refine hnot p hp (fun he => hpq he.2) hnp ((hm.same.pgDir r).trans (hreg r)) ?_
        rw [hm.word _ p ⟨r, hr, rfl⟩ hp, hdiv', if_neg fun he => hpq he.2, hword]
    · have hd₁ : (fun d => ∃ r, rs r ∧ (σ.region r).pgDir = d) σ₁.currentPgDir := by
        rw [hext.same.currentPgDir]
        exact hdcur
      rcases vmmMap_elsewhere hext.spaces ⟨b, hb, (hreg b).symm⟩ hd₁ hva' hrun₂ with
        ⟨-, rfl, -⟩ | ⟨-, hext', hword'⟩
      · exact hnot p hp (fun he => hrb he.1) hnp (hreg r) hword
      · rw [hdiv', hcur₁, hreg] at hword'
        exact hnot q hq (fun he => hrb he.1) hnq ((hext'.same.pgDir r).trans (hreg r)) hword'

include h ha hb hiso in
/-- The loaded region and another one: the second call would go to the tables of the
first. -/
theorem not_served_of_isolated (hl : Loaded σ a) (hab : a ≠ b) (hi : tableSlot i) (hk : tableSlot k)
    (hserved : Served σ a i) : ∃ σ₁, Extended σ σ₁ (fun d => ∃ r, rs r ∧ (σ.region r).pgDir = d)
      (σ.region a).pgDir i ∧ ¬ Served σ₁ b k := by
  obtain ⟨p, -, -, hp, -, hpi, -⟩ := slot_pages hi
  obtain ⟨q, hpq, hq, hqk⟩ : ∃ q, p ≠ q ∧ q < windowPage ∧ q / pageEntries = k := by
    obtain ⟨q, q', hne, hq, hq', hqk, hqk'⟩ := slot_pages hk
    rcases eq_or_ne p q with rfl | hpq
    · exact ⟨q', hne, hq', hqk'⟩
    · exact ⟨q, hpq, hq, hqk⟩
  obtain ⟨hva, hdiv, hle⟩ := page_addr hp
  obtain ⟨hva', hdiv', hle'⟩ := page_addr hq
  obtain ⟨pa, hpa, hpa32, hnq, -⟩ := exists_other_page (σ.translate a (q * pageSize)) none
  obtain ⟨v, σ', hrun, hkept⟩ := (hiso (.mapShared a b (p * pageSize) (q * pageSize) pa 1 0) rfl rfl
    ⟨hle, hle'⟩).kept
  have hdcur : (fun d => ∃ r, rs r ∧ (σ.region r).pgDir = d) σ.currentPgDir := ⟨a, ha, hl.symm⟩
  rw [← hpi, ← hdiv] at hserved
  rcases vmmMapShared_one hp hq hpa32 hrun with ⟨status, hneg, hrun₁⟩ |
    ⟨status, σ₁, status', hpos, hrun₁, hrun₂⟩
  · rcases vmmMap_elsewhere h.spaces ⟨a, ha, rfl⟩ hdcur hva hrun₁ with ⟨-, -, hnot⟩ | ⟨rfl, -⟩
    · exact absurd hserved hnot
    · exact absurd hneg (by decide)
  · obtain ⟨-, hext, -⟩ := (vmmMap_elsewhere h.spaces ⟨a, ha, rfl⟩ hdcur hva hrun₁).resolve_left
      fun hk => hk.2.2 hserved
    have hd₁ : (fun d => ∃ r, rs r ∧ (σ.region r).pgDir = d) σ₁.currentPgDir := by
      rw [hext.same.currentPgDir]
      exact hdcur
    rw [hdiv, hpi] at hext
    refine ⟨σ₁, hext, fun hserved₁ => ?_⟩
    rw [← hqk, ← hdiv'] at hserved₁
    obtain ⟨-, hext', hword⟩ := (vmmMap_elsewhere hext.spaces ⟨b, hb, (hext.same.pgDir b).symm⟩ hd₁
      hva' hrun₂).resolve_left fun hk => hk.2.2 hserved₁
    rw [hdiv', hext.same.currentPgDir, hl] at hword
    refine hnq ((hkept a q ha hq (fun he => hpq he.2.symm) fun he => hab he.1).symm.trans ?_)
    exact translate_of_word ((hext'.same.pgDir a).trans (hext.same.pgDir a)) hpa hq hword

end Broken

/-- Every call on the regions `a` and `b` keeps to them: they are the loaded region, or
nothing can be mapped in `a`, or it is the loaded one and nothing can then be mapped
in `b`. -/
def KeepsApart (σ : Vmm) (a b : ℕ) : Prop :=
  Idle σ a ∨ Loaded σ a ∧
    (a = b ∨ NoTables σ b ∧ (σ.freePages = [] ∨ NoTables σ a ∧ σ.freePages.length ≤ 1))

/-- What can be mapped in the loaded region leaves no page for a table of `b`. -/
theorem RegionCall.isolated_starved (h : RegionSet σ rs) (ha : rs a) (hb : rs b) (hl : Loaded σ a)
    (hab : a ≠ b) (hno : NoTables σ b)
    (hfree : σ.freePages = [] ∨ NoTables σ a ∧ σ.freePages.length ≤ 1) (c : RegionCall)
    (hfirst : c.first = a) (hsecond : c.second = b) (hbelow : c.Below σ) : c.Isolated rs σ := by
  cases c with
  | mapShared s t vaA vaB pa n flags =>
    obtain rfl : s = a := hfirst
    obtain rfl : t = b := hsecond
    cases n with
    | zero =>
      exact ⟨0, σ, rfl, ⟨0, le_rfl, .inl ⟨rfl, rfl⟩, fun _ _ _ _ => rfl⟩, fun _ _ _ _ _ _ => rfl⟩
    | succ n =>
      obtain ⟨hA, hpageA, -⟩ := range_page
        (by rw [Nat.zero_add]; exact hbelow.1 : vaA + (0 + (n + 1)) * pageSize ≤ recursiveAddr)
      obtain ⟨hB, hpageB, -⟩ := range_page
        (by rw [Nat.zero_add]; exact hbelow.2 : vaB + (0 + (n + 1)) * pageSize ≤ recursiveAddr)
      have hd : (fun d => ∃ r, rs r ∧ (σ.region r).pgDir = d) (σ.region s).pgDir := ⟨s, ha, rfl⟩
      have hne : (σ.region t).pgDir ≠ (σ.region s).pgDir := fun he => hab (h.inj t s hb ha he).symm
      rcases vmmMap_loaded h.spaces hd hl hA (u32 (pa + 0 * pageSize)) flags with
        ⟨-, -, hrun⟩ | ⟨σ₁, hrun, hm⟩
      · exact ⟨-1, σ, Option.bind_eq_some_iff.2 ⟨_, hrun, rfl⟩, ⟨0, Nat.zero_le _,
          .inr ⟨rfl, by omega⟩, fun _ _ _ _ => rfl⟩, fun _ _ _ _ _ _ => rfl⟩
      · have hr := hm.rewrote hd
        rw [hpageA] at hr
        have hfree₁ : σ₁.freePages = [] := by
          have hsub := hm.free_sublist
          rcases hfree with hnil | ⟨hnoA, hlen⟩
          · rw [hnil] at hsub
            exact List.sublist_nil.1 hsub
          · rcases hm.cases with ⟨hold, -⟩ | ⟨-, t, hf, -⟩
            · rw [hnoA _ (div_lt_of_window (page_lt_windowPage hA))] at hold
              exact absurd hold (by simp)
            · rw [hf, List.length_cons] at hlen
              exact List.length_eq_zero_iff.1 (by omega)
        have hnoB : σ₁.hasTable (σ₁.region t).pgDir (pdIndex (u32 (vaB + 0 * pageSize))) = false := by
          rw [hm.same.pgDir, Vmm.hasTable, hr.dir _ ⟨t, hb, rfl⟩ hne]
          exact hno _ (pdIndex_lt_recursivePde hB)
        refine ⟨-1, σ₁, Option.bind_eq_some_iff.2 ⟨_, hrun, Option.bind_eq_some_iff.2
          ⟨_, vmmMap_idle hnoB hfree₁, rfl⟩⟩, ⟨1, by omega, .inr ⟨rfl, by omega⟩, ?_⟩,
          fun u hu hus _ va hva => hr.translate h.spaces.toDirectories ⟨u, hu, rfl⟩
            (fun he => hus (h.inj u s hu ha he)) hva⟩
        rintro u (rfl | rfl)
        · refine (hr.congr fun q w => ?_).became
          simp [sharedWrites, applyWrites]
        · intro q hq
          rw [hm.same.pgDir, hr.other _ q ⟨u, hb, rfl⟩ hne hq]
          simp [sharedWrites, applyWrites, hab]
  | map s | unmap s | protect s | alloc s | free s => exact absurd (hfirst.symm.trans hsecond) hab

/-- **Calls keep to their regions on the loaded region only**, or where they can do
nothing. -/
theorem isolated_iff (h : RegionSet σ rs) (ha : rs a) (hb : rs b) :
    (∀ c : RegionCall, c.first = a → c.second = b → c.Below σ → c.Isolated rs σ) ↔
      KeepsApart σ a b := by
  constructor
  · intro hiso
    rcases em (Loaded σ a) with hl | hl
    · rcases em (Idle σ a) with hidle | hidle
      · exact .inl hidle
      refine .inr ⟨hl, ?_⟩
      rcases eq_or_ne a b with hab | hab
      · exact .inl hab
      have hne : (σ.region b).pgDir ≠ (σ.region a).pgDir := fun he => hab (h.inj b a hb ha he).symm
      refine .inr ⟨fun k hk => ?_, ?_⟩
      · obtain ⟨i, hi, hserved⟩ := exists_served hidle
        obtain ⟨σ₁, hext, hnot⟩ := not_served_of_isolated h ha hb hiso hl hab hi hk hserved
        refine Bool.not_eq_true _ ▸ fun ht => hnot (.inl ?_)
        rw [hext.same.pgDir, Vmm.hasTable, hext.dir _ k ⟨b, hb, rfl⟩ fun he => hne he.1]
        exact ht
      · rcases eq_or_ne σ.freePages [] with hfree | hfree
        · exact .inl hfree
        have hlate : ∀ i, tableSlot i → ∃ t, σ.freePages = [t] ∧
            σ.hasTable (σ.region a).pgDir i = false := fun i hi => by
          obtain ⟨σ₁, hext, hnot⟩ :=
            not_served_of_isolated h ha hb hiso hl hab hi (by decide : tableSlot 0) (.inr hfree)
          have hnil : σ₁.freePages = [] := not_not.1 fun hf => hnot (.inr hf)
          rcases hext.cases with ⟨-, hf, -⟩ | ⟨hold, t, hf, -⟩
          · exact absurd (hf.symm.trans hnil) hfree
          · exact ⟨t, hnil ▸ hf, hold⟩
        obtain ⟨t, hf, -⟩ := hlate 0 (by decide)
        refine .inr ⟨fun i hi => (hlate i hi).choose_spec.2, ?_⟩
        rw [hf, List.length_singleton]
    · exact .inl (idle_of_isolated h ha hb hiso hl)
  · rintro (hidle | ⟨hl, rfl | ⟨hno, hfree⟩⟩) c hfirst hsecond hbelow
    · exact c.isolated_idle hidle hfirst hbelow
    · exact c.isolated_loaded h ha hl hfirst hsecond hbelow
    · rcases eq_or_ne a b with rfl | hab
      · exact c.isolated_loaded h ha hl hfirst hsecond hbelow
      · exact c.isolated_starved h ha hb hl hab hno hfree hfirst hsecond hbelow

/-! ### Two regions -/

/-- A region that has just been made and is switched to. -/
theorem RegionSet.first (hfree : FreeOk σ.freePages) (hc : Created σ σ' r t) :
    RegionSet (vmmSwitch r σ') (· = r) where
  spaces := (hc.spaces_single hfree).switch.mono fun d hd => by
    obtain ⟨s, rfl, hs⟩ := hd
    exact hs.symm.trans hc.pgDir
  inj s s' hs hs' _ := hs.trans hs'.symm
  current := ⟨r, rfl, rfl⟩

/-- One more region. -/
theorem RegionSet.created (h : RegionSet σ rs) (hc : Created σ σ' r t) (hr : ¬ rs r) :
    RegionSet σ' fun s => rs s ∨ s = r := by
  have hold : ∀ s, rs s → (σ'.region s).pgDir = (σ.region s).pgDir := fun s hs => by
    rw [hc.region_of_ne fun he => hr (he ▸ hs)]
  have hnew : ∀ s, rs s → (σ'.region s).pgDir ≠ t := fun s hs he =>
    (h.spaces.free_plain t hc.mem_free).1 ⟨s, hs, (hold s hs).symm.trans he⟩
  refine ⟨(hc.spaces h.spaces).mono ?_, ?_, ?_⟩
  · rintro d ⟨s, hs | rfl, rfl⟩
    · exact .inl ⟨s, hs, (hold s hs).symm⟩
    · exact .inr hc.pgDir
  · rintro s s' (hs | rfl) (hs' | rfl) he
    · exact h.inj s s' hs hs' ((hold s hs).symm.trans (he.trans (hold s' hs')))
    · exact absurd (he.trans hc.pgDir) (hnew s hs)
    · exact absurd (he.symm.trans hc.pgDir) (hnew s' hs')
    · rfl
  · obtain ⟨s, hs, hl⟩ := h.current
    refine ⟨s, .inl hs, ?_⟩
    rw [Loaded, hc.currentPgDir, hold s hs]
    exact hl

/-- The regions `1`, which is current, and `2`. -/
def twoRegions : Vmm :=
  (vmmRegionNew (vmmSwitch 1 (vmmRegionNew
    (clearVmm [0x1000, 0x2000, 0x3000, 0x4000] [1, 2])).2)).2

theorem regionSet_twoRegions : RegionSet twoRegions fun s => s = 1 ∨ s = 2 := by
  obtain ⟨-, hc⟩ := vmmRegionNew_created (σ := clearVmm [0x1000, 0x2000, 0x3000, 0x4000] [1, 2])
    (by decide) rfl rfl
  have hfirst := RegionSet.first (by decide) hc
  obtain ⟨-, hc'⟩ := vmmRegionNew_created hfirst.spaces.freeOk
    (show (vmmSwitch 1 _).freePages = 0x2000 :: _ from rfl) (show (vmmSwitch 1 _).objects = 2 :: _ from rfl)
  exact hfirst.created hc' (by decide)

/-- Of two empty regions the loaded one can be worked on, and the other can not. -/
theorem isolated_iff_two :
    ((∀ c : RegionCall, c.first = 1 → c.second = 1 → c.Below twoRegions →
        c.Isolated (fun s => s = 1 ∨ s = 2) twoRegions) ↔ KeepsApart twoRegions 1 1) ∧
      ((∀ c : RegionCall, c.first = 2 → c.second = 2 → c.Below twoRegions →
        c.Isolated (fun s => s = 1 ∨ s = 2) twoRegions) ↔ KeepsApart twoRegions 2 2) :=
  ⟨isolated_iff regionSet_twoRegions (.inl rfl) (.inl rfl),
    isolated_iff regionSet_twoRegions (.inr rfl) (.inr rfl)⟩

/-- The words of the directories may change below the window. -/
theorem RegionSet.mapped (h : RegionSet σ rs)
    (hm : Mapped σ σ' (fun d => ∃ r, rs r ∧ (σ.region r).pgDir = d) d p w) : RegionSet σ' rs where
  spaces := hm.spaces.mono fun d hd => by
    obtain ⟨r, hr, rfl⟩ := hd
    exact ⟨r, hr, (hm.same.pgDir r).symm⟩
  inj r s hr hs he := h.inj r s hr hs (by rwa [hm.same.pgDir, hm.same.pgDir] at he)
  current := by
    obtain ⟨r, hr, hl⟩ := h.current
    exact ⟨r, hr, hl.of_same hm.same⟩

/-- `vmm_map` at `0x400000` in region `2` changes what region `1`, which is current,
has there. -/
theorem not_isolated : ¬ ∀ (σ : Vmm) (rs : ℕ → Prop), RegionSet σ rs → ∀ c : RegionCall,
    rs c.first → rs c.second → c.Below σ → c.Isolated rs σ := by
  intro hall
  have hruns : ((vmmMap 1 0x400000 0x9000 pageRw twoRegions).bind fun o =>
      (vmmMap 2 0x400000 0xA000 pageRw o.2).map fun o' =>
        (o.2.translate 1 0x400000, o'.2.translate 1 0x400000)) =
      some (some 0x9000, some 0xA000) := by decide +kernel
  obtain ⟨⟨status, σ⟩, hrun, hrest⟩ := Option.bind_eq_some_iff.1 hruns
  obtain ⟨⟨status', σ'⟩, hrun', he⟩ := Option.map_eq_some_iff.1 hrest
  obtain ⟨hbefore, hafter⟩ := Prod.mk.inj he
  have h := regionSet_twoRegions
  rcases vmmMap_loaded h.spaces ⟨1, .inl rfl, rfl⟩ rfl (by decide : 0x400000 < recursiveAddr)
      0x9000 pageRw with
    ⟨-, hnil, -⟩ | ⟨σ₁, hrun₁, hm⟩
  · exact absurd hnil (by decide)
  · obtain ⟨-, rfl⟩ := Prod.mk.inj (Option.some.inj (hrun.symm.trans hrun₁))
    obtain ⟨v, σ₂, hrun₂, -, hother⟩ := hall σ _ (h.mapped hm) (.map 2 0x400000 0xA000 pageRw)
      (.inr rfl) (.inr rfl) (by decide : 0x400000 < recursiveAddr)
    obtain ⟨-, rfl⟩ := Prod.mk.inj (Option.some.inj (hrun'.symm.trans hrun₂))
    have heq := hother 1 (.inl rfl) (by decide) (by decide) 0x400000 (by decide)
    exact absurd (hbefore.symm.trans (heq.symm.trans hafter)) (by decide)

end Flopperating
