/-
# The page tables of the current region are a map

What the two levels of tables, made when they are needed, are for is a finite map
from pages to a frame and flags (`PageMap`).  `Vmm.pageMap` reads that map off
the tables, and every call has its effect on it (`PageOp.run_effect`): so over
any sequence of calls the tables say what the calls have asked for
(`page_tables_refine`).

Between two calls the rest of the system may take and give back pages and write to
every page that is no directory and no page table (`Interfere`).  Which pages the
physical allocator hands out, and when it has none, is left open that way.
-/

import Flopperating.Data.Transition
import Flopperating.Mem.VmmLoops

namespace Flopperating

open TwoLevel Transition

/-! ### The map -/

/-- The frame and the flags of each page. -/
abbrev PageMap := ℕ → Option (ℕ × ℕ)

/-- The frame and the flags in a word. -/
def decode (word : ℕ) : Option (ℕ × ℕ) :=
  if present word then some (maskLow word pageSize, word % pageSize) else none

/-- The map that the tables of directory `d` stand for. -/
def Vmm.pageMap (σ : Vmm) (d : ℕ) : PageMap := fun p =>
  if p < windowPage then decode (σ.word d p) else none

/-- The pages `p` to `p + n` are changed to what `f` says. -/
def setPages (m : PageMap) (p n : ℕ) (f : PageMap) : PageMap := fun q =>
  if p ≤ q ∧ q < p + n then f q else m q

/-- What `vmm_map` of `pa` at `va` and of the pages that follow makes of a page. -/
def framesFrom (va pa flags : ℕ) : PageMap := fun q =>
  some (maskLow (u32 (pa + (q - va / pageSize) * pageSize)) pageSize, flags ||| pagePresent)

variable {m m' : PageMap} {f : PageMap} {σ σ' : Vmm} {d n i p q r va pa flags w : ℕ}

theorem setPages_zero : setPages m p 0 f = m := funext fun q => if_neg (by omega)

theorem setPages_succ :
    setPages (Function.update m p (f p)) (p + 1) n f = setPages m p (n + 1) f := by
  funext q
  rcases eq_or_ne q p with rfl | hq
  · rw [setPages, setPages, if_neg (by omega), if_pos (by omega), Function.update_self]
  · rw [setPages, setPages, Function.update_of_ne hq]
    exact if_congr (by omega) rfl rfl

theorem decode_pageEntry (h : flags < pageSize) :
    decode (pageEntry pa flags) = some (maskLow pa pageSize, flags ||| pagePresent) := by
  rw [decode, if_pos (present_pageEntry pa flags), maskLow_pageEntry h, pageEntry_mod,
    Nat.mod_eq_of_lt h]

theorem decode_zero : decode 0 = none := rfl

/-- A page table is not seen in the map; a word is the value at its page. -/
theorem pageMap_of_word (hp : p < windowPage)
    (hw : ∀ q, q < windowPage → σ'.word d q = if q = p then w else σ.word d q) :
    σ'.pageMap d = Function.update (σ.pageMap d) p (decode w) := by
  funext q
  rw [Vmm.pageMap]
  rcases eq_or_ne q p with rfl | hq
  · rw [if_pos hp, hw q hp, if_pos rfl, Function.update_self]
  · rw [Function.update_of_ne hq, Vmm.pageMap]
    rcases Nat.lt_or_ge q windowPage with hlt | hge
    · rw [if_pos hlt, if_pos hlt, hw q hlt, if_neg hq]
    · rw [if_neg (Nat.not_lt.2 hge), if_neg (Nat.not_lt.2 hge)]

/-! ### Single pages of the current region -/

/-- The region `r` is the current one and its directory is `d`. -/
structure Paged (σ : Vmm) (r d : ℕ) : Prop where
  spaces : Spaces σ (· = d)
  pgDir : (σ.region r).pgDir = d
  loaded : Loaded σ r
  /-- `vmm_map` gives user code access to every page table it makes. -/
  user : ∀ i, tableSlot i → σ.hasTable d i = true → userBit (σ.mem d i) = true

theorem Paged.step (h : Paged σ r d) (hs : Spaces σ' (· = d)) (hsame : SameDescriptors σ σ')
    (huser : ∀ i, tableSlot i → σ'.hasTable d i = true → userBit (σ'.mem d i) = true) :
    Paged σ' r d :=
  ⟨hs, by rw [hsame.region]; exact h.pgDir, h.loaded.of_same hsame, huser⟩

theorem Paged.mapped (h : Paged σ r d) (hm : Mapped σ σ' (· = d) d p w) : Paged σ' r d := by
  refine h.step hm.spaces hm.same fun i hi ht => ?_
  rcases eq_or_ne i (p / pageEntries) with rfl | hne
  · rcases hm.cases with ⟨hold, -, hw⟩ | ⟨-, t, -, hw⟩
    · rw [hw]
      exact h.user _ hi hold
    · rw [hw, userBit_pageEntry]
      decide
  · have hword := hm.dir d i rfl fun hk => hne hk.2
    rw [hword]
    exact h.user i hi (by rwa [Vmm.hasTable, ← hword])

theorem Paged.wrote (h : Paged σ r d) (hw : Wrote σ σ' (· = d) d p w) : Paged σ' r d :=
  h.step (hw.spaces h.spaces) hw.same fun i hi ht => by
    rw [Vmm.hasTable, hw.dir d rfl] at ht
    rw [hw.dir d rfl]
    exact h.user i hi ht

theorem Wrote.pageMap (hw : Wrote σ σ' (· = d) d p w) (hp : p < windowPage) :
    σ'.pageMap d = Function.update (σ.pageMap d) p (decode w) :=
  pageMap_of_word hp fun q hq => by rw [hw.word d q rfl hq]; exact if_congr (by simp) rfl rfl

theorem Mapped.pageMap (hm : Mapped σ σ' (· = d) d p w) (hp : p < windowPage) :
    σ'.pageMap d = Function.update (σ.pageMap d) p (decode w) :=
  pageMap_of_word hp fun q hq => by rw [hm.word d q rfl hq]; exact if_congr (by simp) rfl rfl

/-- A page whose table is missing is not mapped. -/
theorem pageMap_of_absent (h : σ.hasTable d (p / pageEntries) = false) : σ.pageMap d p = none := by
  rw [Vmm.pageMap, word_of_absent h, decode_zero, ite_self]

/-- **`vmm_map`** sets the page in the map, or returns `-1` and does nothing. -/
theorem vmmMap_pageMap (h : Paged σ r d) (hva : va < recursiveAddr) (hflags : flags < pageSize) :
    ∃ status σ', vmmMap r va pa flags σ = some (status, σ') ∧ Paged σ' r d ∧
      ((status = 0 ∧ σ'.pageMap d = Function.update (σ.pageMap d) (va / pageSize)
          (some (maskLow pa pageSize, flags ||| pagePresent))) ∨
        (status = -1 ∧ σ' = σ)) := by
  have hdir := h.pgDir
  rcases vmmMap_loaded h.spaces hdir h.loaded hva pa flags with ⟨-, -, hrun⟩ | ⟨σ', hrun, hm⟩
  · exact ⟨-1, σ, hrun, h, .inr ⟨rfl, rfl⟩⟩
  · rw [hdir] at hm
    refine ⟨0, σ', hrun, h.mapped hm, .inl ⟨rfl, ?_⟩⟩
    rw [hm.pageMap (page_lt_windowPage hva), decode_pageEntry hflags]

/-- **`vmm_unmap`** removes the page from the map; it returns `-1` only when the
page was not in it. -/
theorem vmmUnmap_pageMap (h : Paged σ r d) (hva : va < recursiveAddr) :
    ∃ status σ', vmmUnmap r va σ = some (status, σ') ∧ Paged σ' r d ∧
      σ'.pageMap d = Function.update (σ.pageMap d) (va / pageSize) none ∧
      (status = 0 ∨ (status = -1 ∧ σ' = σ ∧ σ.pageMap d (va / pageSize) = none)) := by
  have hdir := h.pgDir
  rcases vmmUnmap_loaded h.spaces.toDirectories hdir h.loaded hva with ⟨hnone, hrun⟩ | ⟨-, σ', hrun, hw⟩
  · have hnot := pageMap_of_absent (hdir ▸ hnone)
    exact ⟨-1, σ, hrun, h, (Function.update_eq_self_iff.2 hnot.symm).symm, .inr ⟨rfl, rfl, hnot⟩⟩
  · rw [hdir] at hw
    refine ⟨0, σ', hrun, h.wrote hw, ?_, .inl rfl⟩
    rw [hw.pageMap (page_lt_windowPage hva), decode_zero]

/-! ### Ranges -/

/-- **`vmm_map_range`** maps its pages up to the first for which there is no page
table. -/
theorem vmmMapRangeFrom_pageMap (h : Paged σ r d) (hflags : flags < pageSize)
    (hle : va + (i + n) * pageSize ≤ recursiveAddr) :
    ∃ status σ' k, vmmMapRangeFrom r va pa flags n i σ = some (status, σ') ∧ Paged σ' r d ∧ k ≤ n ∧
      (status = 0 ↔ k = n) ∧
      σ'.pageMap d = setPages (σ.pageMap d) (va / pageSize + i) k (framesFrom va pa flags) := by
  induction n generalizing i σ with
  | zero => exact ⟨0, σ, 0, rfl, h, le_rfl, by simp, setPages_zero.symm⟩
  | succ n ih =>
    obtain ⟨hlt, hpage, hle'⟩ := range_page hle
    obtain ⟨status, σ₁, hrun, h₁, hcase⟩ :=
      vmmMap_pageMap h hlt hflags
    rcases hcase with ⟨rfl, hmap⟩ | ⟨rfl, rfl⟩
    · obtain ⟨status, σ', k, hrun', h', hk, hstatus, hmap'⟩ := ih (i := i + 1) h₁ hle'
      refine ⟨status, σ', k + 1, Option.bind_eq_some_iff.2 ⟨_, hrun, hrun'⟩, h', by omega, by omega, ?_⟩
      have hframe : framesFrom va pa flags (va / pageSize + i) =
          some (maskLow (u32 (pa + i * pageSize)) pageSize, flags ||| pagePresent) := by
        rw [framesFrom, Nat.add_sub_cancel_left]
      rw [hmap', hmap, hpage, ← hframe]
      exact setPages_succ
    · exact ⟨-1, σ₁, 0, Option.bind_eq_some_iff.2 ⟨_, hrun, rfl⟩, h, Nat.zero_le _, by simp,
        setPages_zero.symm⟩

/-- **`vmm_unmap_range`** unmaps its pages up to the first whose page table is
missing. -/
theorem vmmUnmapRangeFrom_pageMap (h : Paged σ r d)
    (hle : va + (i + n) * pageSize ≤ recursiveAddr) :
    ∃ status σ' k, vmmUnmapRangeFrom r va n i σ = some (status, σ') ∧ Paged σ' r d ∧ k ≤ n ∧
      (status = 0 ↔ k = n) ∧
      σ'.pageMap d = setPages (σ.pageMap d) (va / pageSize + i) k fun _ => none := by
  induction n generalizing i σ with
  | zero => exact ⟨0, σ, 0, rfl, h, le_rfl, by simp, setPages_zero.symm⟩
  | succ n ih =>
    obtain ⟨hlt, hpage, hle'⟩ := range_page hle
    obtain ⟨status, σ₁, hrun, h₁, hmap, rfl | ⟨rfl, rfl, -⟩⟩ := vmmUnmap_pageMap h hlt
    · obtain ⟨status, σ', k, hrun', h', hk, hstatus, hmap'⟩ := ih (i := i + 1) h₁ hle'
      refine ⟨status, σ', k + 1, Option.bind_eq_some_iff.2 ⟨_, hrun, hrun'⟩, h', by omega, by omega, ?_⟩
      rw [hmap', hmap, hpage]
      exact setPages_succ (f := fun _ => none)
    · exact ⟨-1, σ₁, 0, Option.bind_eq_some_iff.2 ⟨_, hrun, rfl⟩, h, Nat.zero_le _, by simp,
        setPages_zero.symm⟩

/-! ### Runs -/

/-- The calls of a run. -/
inductive PageOp
  | map (va pa flags : ℕ)
  | unmap (va : ℕ)
  | mapRange (va pa pages flags : ℕ)
  | unmapRange (va pages : ℕ)

namespace PageOp

/-- The call, on the region `r`. -/
def run (r : ℕ) : PageOp → Vmm → Option (ℤ × Vmm)
  | map va pa flags => vmmMap r va pa flags
  | unmap va => vmmUnmap r va
  | mapRange va pa pages flags => vmmMapRange r va pa pages flags
  | unmapRange va pages => vmmUnmapRange r va pages

/-- Its pages lie below the recursive window and its flags are flags. -/
def Below : PageOp → Prop
  | map va _ flags => va < recursiveAddr ∧ flags < 0x1000
  | unmap va => va < recursiveAddr
  | mapRange va _ pages flags => va + pages * pageSize ≤ recursiveAddr ∧ flags < 0x1000
  | unmapRange va pages => va + pages * pageSize ≤ recursiveAddr

instance instDecidablePredBelow : DecidablePred Below := fun op => by
  cases op <;> unfold Below <;> infer_instance

/-- What a call that returns `status` makes of a map.  A call on a range that
fails has done a first part of its pages. -/
def Effect (status : ℤ) (m m' : PageMap) : PageOp → Prop
  | map va pa flags =>
    (status = 0 ∧ m' = Function.update m (va / pageSize)
      (some (maskLow pa pageSize, flags ||| pagePresent))) ∨ (status = -1 ∧ m' = m)
  | unmap va => m' = Function.update m (va / pageSize) none
  | mapRange va pa pages flags => ∃ k ≤ pages, (status = 0 ↔ k = pages) ∧
      m' = setPages m (va / pageSize) k (framesFrom va pa flags)
  | unmapRange va pages => ∃ k ≤ pages, (status = 0 ↔ k = pages) ∧
      m' = setPages m (va / pageSize) k fun _ => none

/-- **Every call returns, and has its effect on the map.** -/
theorem run_effect (op : PageOp) (h : Paged σ r d) (hop : op.Below) :
    ∃ status σ', op.run r σ = some (status, σ') ∧ Paged σ' r d ∧
      op.Effect status (σ.pageMap d) (σ'.pageMap d) := by
  cases op with
  | map va pa flags =>
    obtain ⟨status, σ', hrun, h', hcase⟩ := vmmMap_pageMap h hop.1 hop.2
    exact ⟨status, σ', hrun, h', hcase.imp_right fun hc => ⟨hc.1, by rw [hc.2]⟩⟩
  | unmap va =>
    obtain ⟨status, σ', hrun, h', hmap, -⟩ := vmmUnmap_pageMap h hop
    exact ⟨status, σ', hrun, h', hmap⟩
  | mapRange va pa pages flags =>
    have hle : va + (0 + pages) * pageSize ≤ recursiveAddr := by rw [Nat.zero_add]; exact hop.1
    obtain ⟨status, σ', k, hrun, h', hk, hstatus, hmap⟩ := vmmMapRangeFrom_pageMap h hop.2 hle
    exact ⟨status, σ', hrun, h', k, hk, hstatus, hmap⟩
  | unmapRange va pages =>
    have hle : va + (0 + pages) * pageSize ≤ recursiveAddr := by rw [Nat.zero_add]; exact hop
    obtain ⟨status, σ', k, hrun, h', hk, hstatus, hmap⟩ := vmmUnmapRangeFrom_pageMap h hle
    exact ⟨status, σ', hrun, h', k, hk, hstatus, hmap⟩

end PageOp

/-- What the rest of the system may do between two calls. -/
structure Interfere (σ σ' : Vmm) (d : ℕ) : Prop where
  same : SameDescriptors σ σ'
  mem : ∀ t, ¬ σ.Plain (· = d) t → σ'.mem t = σ.mem t
  free : FreeOk σ'.freePages
  plain : ∀ t ∈ σ'.freePages, σ.Plain (· = d) t

theorem Interfere.dir (hi : Interfere σ σ' d) {a : ℕ} (ha : a = d) : σ'.mem a = σ.mem a :=
  hi.mem a fun hp => hp.1 ha

theorem Interfere.spaces (hi : Interfere σ σ' d) (h : Directories σ (· = d)) : Spaces σ' (· = d) :=
  ⟨h.congr fun _ => hi.dir, hi.free.1, hi.free.2, fun t ht => (hi.plain t ht).congr fun _ => hi.dir⟩

theorem Interfere.paged (hi : Interfere σ σ' d) (h : Paged σ r d) : Paged σ' r d := by
  refine h.step (hi.spaces h.spaces.toDirectories) hi.same fun i hslot ht => ?_
  rw [Vmm.hasTable, hi.dir rfl] at ht
  rw [hi.dir rfl]
  exact h.user i hslot ht

theorem Interfere.word (hi : Interfere σ σ' d) (hp : p < windowPage) : σ'.word d p = σ.word d p :=
  entry_congr hi.mem rfl (div_lt_of_window hp)

theorem Interfere.pageMap (hi : Interfere σ σ' d) : σ'.pageMap d = σ.pageMap d := by
  funext p
  rw [Vmm.pageMap, Vmm.pageMap]
  split
  · next hp => rw [hi.word hp]
  · rfl

/-- The others may do nothing. -/
theorem Interfere.refl (h : Spaces σ (· = d)) : Interfere σ σ d :=
  ⟨.refl σ, fun _ _ => rfl, h.freeOk, h.free_plain⟩

/-- What `vmm_resolve`, `vmm_is_mapped` and `vmm_is_user_mapped` say is what is in
the map. -/
def Agrees (σ : Vmm) (r : ℕ) (m : PageMap) : Prop :=
  ∀ va, va < recursiveAddr →
    vmmResolve r va σ = some (match m (va / pageSize) with
      | none => 0
      | some (frame, _) => frame ||| va % pageSize) ∧
    vmmIsMapped r va σ = some (m (va / pageSize)).isSome ∧
    vmmIsUserMapped r va σ = some (match m (va / pageSize) with
      | none => false
      | some (_, flags) => userBit flags)

theorem userBit_mod (w : ℕ) : userBit (w % pageSize) = userBit w := by
  rw [userBit, show pageSize = 2 ^ 12 from rfl, Nat.testBit_mod_two_pow]
  simp [userBit]

theorem Paged.agrees (h : Paged σ r d) : Agrees σ r (σ.pageMap d) := by
  intro va hva
  have hva32 : va < 2 ^ 32 := hva.trans (by decide)
  have hp := page_lt_windowPage hva
  have hmap : σ.pageMap d (va / pageSize) = decode (σ.word d (va / pageSize)) := if_pos hp
  have hword := vmmTableWord_loaded h.loaded hva32
  rw [h.pgDir] at hword
  rw [vmmResolve, vmmIsMapped, vmmIsUserMapped, hword, hmap, decode, Vmm.pde, h.pgDir,
    pdIndex_eq hva32]
  rcases hb : present (σ.word d (va / pageSize)) with - | -
  · simp [hb]
  · have htab := hasTable_of_present hb
    have huser := h.user _ (div_lt_of_window hp) htab
    have hpres : present (σ.mem d (va / pageSize / pageEntries)) = true := htab
    simp [hb, hpres, huser, userBit_mod]

/-- A run: the state and the calls made, latest first, with what they returned. -/
structure PageRun where
  vmm : Vmm
  history : List (PageOp × ℤ)

/-- A new region has just been made the current one. -/
def PageRun.Start (r d : ℕ) (s : PageRun) : Prop :=
  s.history = [] ∧ ∃ σ₀ σ₁, FreeOk σ₀.freePages ∧
    vmmRegionCreate 0 0 false σ₀ = some ((some r, none), σ₁) ∧ (σ₁.region r).pgDir = d ∧
    s.vmm = vmmSwitch r σ₁

/-- One call, after the others have done something. -/
def PageRun.Step (r d : ℕ) (s : PageRun) (op : PageOp) (s' : PageRun) : Prop :=
  op.Below ∧ ∃ σ status, Interfere s.vmm σ d ∧ op.run r σ = some (status, s'.vmm) ∧
    s'.history = (op, status) :: s.history

/-- What a sequence of calls asks for, starting with nothing mapped: each page has
the frame of the last successful map not unmapped since. -/
inductive Traced : List (PageOp × ℤ) → PageMap → Prop
  | nil : Traced [] fun _ => none
  | cons {history : List (PageOp × ℤ)} {m m' : PageMap} {op : PageOp} {status : ℤ} :
    Traced history m → op.Effect status m m' → Traced ((op, status) :: history) m'

theorem PageRun.Start.paged {s : PageRun} (h : s.Start r d) :
    Paged s.vmm r d ∧ s.vmm.pageMap d = fun _ => none := by
  obtain ⟨-, σ₀, σ₁, hfree, hrun, rfl, hs⟩ := h
  rw [vmmRegionCreate] at hrun
  rcases vmmRegionNew_cases hfree with ⟨-, hnew⟩ | ⟨-, -, hnone, -⟩ | ⟨r', t, σ', hnew, hc⟩
  · rw [hnew] at hrun
    exact absurd hrun (by simp)
  · rcases hnew : vmmRegionNew σ₀ with ⟨o, σ'⟩
    rw [hnew] at hrun hnone
    obtain rfl : o = none := hnone
    exact absurd hrun (by simp)
  · rw [hnew] at hrun
    simp only [Nat.lt_irrefl, gt_iff_lt, false_and, if_false, Option.some.injEq, Prod.mk.injEq,
      and_true] at hrun
    obtain ⟨rfl, rfl⟩ := hrun
    have hdir := hc.pgDir
    rw [hs, hdir]
    refine ⟨⟨(hc.spaces_single hfree).switch, hdir, rfl, fun i hi ht => ?_⟩, ?_⟩
    · exact absurd (ht.symm.trans (hc.hasTable hi)) (by simp)
    · funext p
      rw [Vmm.pageMap]
      split
      · next hp => exact congrArg decode (hc.word hp)
      · rfl

/-- **The page tables of the current region refine a map.**  After any sequence of
calls, with the physical allocator handing out any pages that are no tables or
none at any point, every call returns, and `vmm_resolve`, `vmm_is_mapped` and
`vmm_is_user_mapped` say what the calls made so far have asked for. -/
theorem page_tables_refine {s : PageRun} (h : Reach (PageRun.Start r d) (PageRun.Step r d) s) :
    (∃ m, Traced s.history m ∧ Agrees s.vmm r m) ∧
      ∀ op : PageOp, op.Below → ∃ status σ', op.run r s.vmm = some (status, σ') := by
  have hinv : Paged s.vmm r d ∧ Traced s.history (s.vmm.pageMap d) := by
    refine h.invariant (P := fun s => Paged s.vmm r d ∧ Traced s.history (s.vmm.pageMap d)) ?_ ?_
    · intro s hs
      obtain ⟨hp, hm⟩ := hs.paged
      rw [hm, hs.1]
      exact ⟨hp, .nil⟩
    · rintro s op s' - ⟨hp, ht⟩ ⟨hbelow, σ, status, hi, hrun, hhist⟩
      obtain ⟨status', σ', hrun', hp', heff⟩ := op.run_effect (hi.paged hp) hbelow
      obtain ⟨rfl, rfl⟩ := Prod.mk.inj (Option.some.inj (hrun.symm.trans hrun'))
      rw [hi.pageMap] at heff
      rw [hhist]
      exact ⟨hp', .cons ht heff⟩
  refine ⟨⟨_, hinv.2, hinv.1.agrees⟩, fun op hop => ?_⟩
  obtain ⟨status, σ', hrun, -⟩ := op.run_effect hinv.1 hop
  exact ⟨status, σ', hrun⟩

/-- A new region over clear memory, in which one page is mapped: a second page
table can not be had any more. -/
theorem page_tables_refine_two : ∃ s : PageRun,
    s.history = [(.map 0x800000 0x6000 pageRw, -1), (.map 0x400000 0x5000 pageUser, 0)] ∧
    (∃ m, Traced s.history m ∧ Agrees s.vmm 0x500 m) ∧
      ∀ op : PageOp, op.Below → ∃ status σ', op.run 0x500 s.vmm = some (status, σ') := by
  have hstart : PageRun.Start 0x500 0x1000
      ⟨vmmSwitch 0x500 (vmmRegionNew (clearVmm [0x1000, 0x2000] [0x500])).2, []⟩ :=
    ⟨rfl, clearVmm [0x1000, 0x2000] [0x500], _, by decide, rfl, rfl, rfl⟩
  have hrun : ((PageOp.map 0x400000 0x5000 pageUser).run 0x500
      (vmmSwitch 0x500 (vmmRegionNew (clearVmm [0x1000, 0x2000] [0x500])).2)).bind (fun o =>
        ((PageOp.map 0x800000 0x6000 pageRw).run 0x500 o.2).map fun o' => (o.1, o'.1)) =
      some (0, -1) := by decide +kernel
  obtain ⟨⟨status, σ₁⟩, hrun₁, hrun₂⟩ := Option.bind_eq_some_iff.1 hrun
  obtain ⟨⟨status', σ₂⟩, hrun₂, he⟩ := Option.map_eq_some_iff.1 hrun₂
  obtain ⟨rfl, rfl⟩ := Prod.mk.inj he
  have hpaged := hstart.paged.1
  obtain ⟨_, _, hrun₁', hpaged₁, -⟩ :=
    (PageOp.map 0x400000 0x5000 pageUser).run_effect hpaged (by decide)
  obtain ⟨rfl, rfl⟩ := Prod.mk.inj (Option.some.inj (hrun₁.symm.trans hrun₁'))
  have hreach₁ : Reach (PageRun.Start 0x500 0x1000) (PageRun.Step 0x500 0x1000)
      ⟨σ₁, [(.map 0x400000 0x5000 pageUser, 0)]⟩ :=
    (Reach.init hstart).step _ ⟨by decide, _, 0, .refl hpaged.spaces, hrun₁, rfl⟩
  have hreach₂ : Reach (PageRun.Start 0x500 0x1000) (PageRun.Step 0x500 0x1000)
      ⟨σ₂, [(.map 0x800000 0x6000 pageRw, -1), (.map 0x400000 0x5000 pageUser, 0)]⟩ :=
    hreach₁.step _ ⟨by decide, σ₁, -1, .refl hpaged₁.spaces, hrun₂, rfl⟩
  exact ⟨_, rfl, page_tables_refine hreach₂⟩

end Flopperating
