/-
# What the operations of `tmpflopfs` keep

The tree is described by the children `kids d` of every node `d` in the order of their list, with
what the links and the parents say about them (`Inv`): a child is newer than its parent.  A path
is then looked up by its segments in a tree of names (`tmpfsWalkPath_eq`).

Each operation has one equation that says when it fails and what it leaves, and one lemma that it
keeps `Inv` (`inv_inserted`, `inv_removed`, `inv_renamed`).
-/

import Mathlib.Data.List.Find
import Flopperating.Data.NameTree
import Flopperating.Fs.TmpfsTree

namespace Flopperating
namespace TmpfsTree

open LinkedList NameTree

variable {σ σ' : TmpfsTree} {kids : ℕ → List ℕ} {d i m n : ℕ} {nd pd : TmpfsNode} {path name x : CString} {l : List ℕ}
  {p : Option ℕ}

theorem heap_setNode : (σ.setNode d nd).heap = Function.update σ.heap d (some nd) := rfl

def nameOf (σ : TmpfsTree) (m : ℕ) : Option CString := (σ.heap m).map (·.name)

/-- The first child with a name. -/
def childOf (σ : TmpfsTree) (kids : ℕ → List ℕ) (d : ℕ) (x : CString) : Option ℕ :=
  (kids d).find? fun m => decide (σ.nameOf m = some x)

/-- A path without the slash it may start with. -/
def relative (path : CString) : CString := if path.head? = some slash then path.tail else path

/-- What a path leads to. -/
def resolve (σ : TmpfsTree) (kids : ℕ → List ℕ) (path : CString) : Option ℕ :=
  walk (σ.childOf kids) (segments slash (relative path)) σ.root

structure Inv (σ : TmpfsTree) (kids : ℕ → List ℕ) : Prop where
  chain : ∀ d nd, σ.heap d = some nd → Chain σ.nextOf nd.children (kids d)
  kid : ∀ d m, m ∈ kids d → (∃ pd, σ.heap d = some pd) ∧ ∃ nd, σ.heap m = some nd ∧ nd.parent = some d
  older : ∀ m nd d, σ.heap m = some nd → nd.parent = some d → d < m
  listed : ∀ m nd d pd, σ.heap m = some nd → nd.parent = some d → σ.heap d = some pd → m ∈ kids d
  root : ∃ nd, σ.heap σ.root = some nd ∧ nd.parent = none
  bound : ∀ m nd, σ.heap m = some nd → m < σ.fresh

/-! ### Looking up -/

theorem nameOf_of_heap (h : σ.heap m = some nd) : σ.nameOf m = some nd.name := by rw [nameOf, h, Option.map_some]

theorem nextOf_of_heap (h : σ.heap m = some nd) : σ.nextOf m = nd.nextSibling := by rw [nextOf, h, Option.bind_some]

theorem childOf_eq_some (h : σ.childOf kids d x = some m) : m ∈ kids d ∧ σ.nameOf m = some x := by
  unfold childOf at h
  have hname := List.find?_some h
  exact ⟨List.mem_of_find?_eq_some h, of_decide_eq_true hname⟩

theorem childOf_eq_none : σ.childOf kids d x = none ↔ ∀ m ∈ kids d, σ.nameOf m ≠ some x := by
  rw [childOf, List.find?_eq_none]
  exact forall₂_congr fun m _ => by rw [decide_eq_true_iff]

theorem Inv.kid_live (h : σ.Inv kids) (hm : m ∈ kids d) : ∃ nd, σ.heap m = some nd ∧ nd.parent = some d := (h.kid d m hm).2

theorem Inv.kid_lt (h : σ.Inv kids) (hm : m ∈ kids d) : d < m := by
  obtain ⟨nd, hnd, hpar⟩ := h.kid_live hm
  exact h.older m nd d hnd hpar

/-- The children of a node are all different. -/
theorem Inv.nodup (h : σ.Inv kids) (d : ℕ) : (kids d).Nodup := by
  cases hk : kids d with
  | nil => exact List.nodup_nil
  | cons m l =>
    obtain ⟨pd, hpd⟩ := (h.kid d m (by rw [hk]; exact List.mem_cons_self)).1
    rw [← hk]
    exact (h.chain d pd hpd).nodup

theorem Inv.length_le (h : σ.Inv kids) (d : ℕ) : (kids d).length ≤ σ.fresh := by
  have hsub : kids d ⊆ List.range σ.fresh := fun m hm => by
    obtain ⟨nd, hnd, -⟩ := h.kid_live hm
    exact List.mem_range.2 (h.bound m nd hnd)
  have hle := ((h.nodup d).subperm hsub).length_le
  rwa [List.length_range] at hle

theorem Inv.childOf_lt (h : σ.Inv kids) : ∀ d x m, σ.childOf kids d x = some m → d < m :=
  fun _ _ _ hc => h.kid_lt (childOf_eq_some hc).1

/-- The loop over the children. -/
theorem findChild_chain {fuel : ℕ} (hchain : Chain σ.nextOf p l) (hlive : ∀ m ∈ l, ∃ nd, σ.heap m = some nd)
    (hfuel : l.length ≤ fuel) : σ.findChild x fuel p = some (l.find? fun m => decide (σ.nameOf m = some x)) := by
  induction l generalizing p fuel with
  | nil =>
    obtain rfl : p = none := hchain
    cases fuel with
    | zero => rfl
    | succ fuel => rfl
  | cons m l ih =>
    obtain ⟨rfl, hchain⟩ := hchain
    obtain ⟨fuel, rfl⟩ := Nat.exists_eq_add_of_lt (Nat.lt_of_lt_of_le (Nat.succ_pos l.length) hfuel)
    obtain ⟨nd, hnd⟩ := hlive m List.mem_cons_self
    rw [nextOf_of_heap hnd] at hchain
    rw [List.length_cons] at hfuel
    rw [Nat.zero_add, findChild, hnd, Option.bind_some, List.find?_cons, nameOf_of_heap hnd]
    by_cases heq : nd.name = x
    · rw [if_pos (flopstrcmp_eq_zero.2 heq), heq, decide_eq_true rfl]
    · rw [if_neg fun hzero => heq (flopstrcmp_eq_zero.1 hzero), decide_eq_false fun hsome => heq (Option.some.inj hsome)]
      exact ih hchain (fun m hm => hlive m (List.mem_cons_of_mem _ hm)) (by omega)

theorem Inv.findChild_eq (h : σ.Inv kids) (hd : σ.heap d = some nd) (x : CString) :
    σ.findChild x (σ.fresh + 1) nd.children = some (σ.childOf kids d x) :=
  findChild_chain (h.chain d nd hd) (fun _ hm => ⟨_, (h.kid_live hm).choose_spec.1⟩) (Nat.le_succ_of_le (h.length_le d))

theorem Inv.childOf_live (h : σ.Inv kids) (hc : σ.childOf kids d x = some m) : ∃ nd, σ.heap m = some nd ∧ nd.parent = some d :=
  h.kid_live (childOf_eq_some hc).1

/-- The loop over the segments. -/
theorem Inv.tmpfsWalkFrom_eq (h : σ.Inv kids) {segment : CString} {curr : ℕ} (hcurr : ∃ nd, σ.heap curr = some nd) :
    σ.tmpfsWalkFrom segment curr = some (walk (σ.childOf kids) (segments slash segment) curr) := by
  induction hlen : segment.length using Nat.strong_induction_on generalizing segment curr with
  | h len ih =>
    obtain ⟨nd, hnd⟩ := hcurr
    by_cases hseg : segment = []
    · rw [tmpfsWalkFrom, if_pos hseg, hseg]
      rfl
    · rw [tmpfsWalkFrom, if_neg hseg, hnd, Option.bind_some, h.findChild_eq hnd, Option.bind_some, segments_eq_cons hseg,
        walk_cons]
      cases hc : σ.childOf kids curr (segment.takeWhile fun c => decide (c ≠ slash)) with
      | none => rfl
      | some child =>
        rw [Option.bind_some]
        by_cases hdrop : segment.dropWhile (fun c => decide (c ≠ slash)) = []
        · rw [hdrop]
          rfl
        · have hpos := List.length_pos_iff.2 hdrop
          have hle := length_dropWhile_slash segment
          refine (if_neg hdrop).trans (ih _ ?_ ⟨_, (h.childOf_live hc).choose_spec.1⟩ rfl)
          rw [List.length_tail]
          omega

/-- **A path is looked up by its segments.** -/
theorem Inv.tmpfsWalkPath_eq (h : σ.Inv kids) (hlen : flopstrlen path < vfsMaxFileName) :
    σ.tmpfsWalkPath path = some (σ.resolve kids path) := by
  obtain ⟨nd, hnd, -⟩ := h.root
  rw [tmpfsWalkPath]
  by_cases hroot : path = [] ∨ path = [slash]
  · rw [if_pos hroot]
    rcases hroot with rfl | rfl
    · rfl
    · rfl
  · rw [if_neg hroot, if_neg (Nat.not_lt.2 hlen), h.tmpfsWalkFrom_eq ⟨nd, hnd⟩]
    rfl

/-- A path that is too long is not looked up at all. -/
theorem Inv.tmpfsWalkPath_eq_some (h : σ.Inv kids) {o : Option ℕ} (hwalk : σ.tmpfsWalkPath path = some o) :
    flopstrlen path < vfsMaxFileName ∧ σ.resolve kids path = o := by
  have hlen : flopstrlen path < vfsMaxFileName := by
    by_contra hlong
    rw [tmpfsWalkPath, if_neg, if_pos (Nat.lt_succ_of_le (Nat.not_lt.1 hlong))] at hwalk
    · exact absurd hwalk (by simp)
    · rintro (rfl | rfl)
      · exact hlong (by decide)
      · exact hlong (by decide)
  rw [h.tmpfsWalkPath_eq hlen] at hwalk
  exact ⟨hlen, Option.some.inj hwalk⟩

/-- What a path leads to is there. -/
theorem Inv.resolve_live (h : σ.Inv kids) (hr : σ.resolve kids path = some m) : ∃ nd, σ.heap m = some nd :=
  walk_induction (P := fun m => ∃ nd, σ.heap m = some nd)
    (fun _ _ _ _ hc => ⟨_, (h.childOf_live hc).choose_spec.1⟩) ⟨_, h.root.choose_spec.1⟩ hr

/-! ### Inserting -/

/-- The tree with a new first child of `parent`. -/
def inserted (type : TmpfsNodeType) (mode parent : ℕ) (pd : TmpfsNode) (name : CString) (σ : TmpfsTree) : TmpfsTree :=
  { σ with
    heap := Function.update (Function.update σ.heap σ.fresh
      (some ⟨name, type, mode, [], some parent, none, pd.children⟩)) parent (some { pd with children := some σ.fresh })
    fresh := σ.fresh + 1 }

/-- The children with a new first child of `parent`. -/
def insertKid (σ : TmpfsTree) (parent : ℕ) (kids : ℕ → List ℕ) : ℕ → List ℕ :=
  Function.update kids parent (σ.fresh :: kids parent)

/-- **What `tmpfs_op_create` and `tmpfs_op_mkdir` do.** -/
theorem Inv.tmpfsAdd_eq (h : σ.Inv kids) {type : TmpfsNodeType} {mode : ℕ} (hdir : flopstrlen (dirPath name) < vfsMaxFileName)
    (hfile : flopstrlen (fileName name) < vfsMaxFileName) :
    σ.tmpfsAdd type mode name = (σ.resolve kids (dirPath name)).elim (some (-1, σ)) fun parent =>
      if σ.grant σ.fresh then (σ.heap parent).map fun pd => (0, σ.inserted type mode parent pd (fileName name)) else none := by
  rw [tmpfsAdd, if_neg (by omega), h.tmpfsWalkPath_eq hdir, Option.bind_some]
  cases hr : σ.resolve kids (dirPath name) with
  | none => rfl
  | some parent =>
    obtain ⟨pd, hpd⟩ := h.resolve_live hr
    have hne : parent ≠ σ.fresh := (h.bound parent pd hpd).ne
    rw [Option.elim_some, tmpfsNodeInternalCreate]
    cases hgrant : σ.grant σ.fresh with
    | false => rfl
    | true =>
      simp only [if_true, if_neg (Nat.not_lt.2 hfile), Option.bind_some, Function.update_self, Function.update_of_ne hne, hpd,
        Option.map_some, setNode, inserted, Function.update_idem]

section Inserted

variable {type : TmpfsNodeType} {mode parent : ℕ}

theorem heap_inserted_parent : (σ.inserted type mode parent pd name).heap parent = some { pd with children := some σ.fresh } :=
  Function.update_self ..

theorem heap_inserted_fresh (hne : σ.fresh ≠ parent) :
    (σ.inserted type mode parent pd name).heap σ.fresh = some ⟨name, type, mode, [], some parent, none, pd.children⟩ :=
  (Function.update_of_ne hne _ _).trans (Function.update_self ..)

theorem heap_inserted_of_ne (hi : i ≠ parent) (hf : i ≠ σ.fresh) :
    (σ.inserted type mode parent pd name).heap i = σ.heap i :=
  (Function.update_of_ne hi _ _).trans (Function.update_of_ne hf _ _)

/-- A node of the tree before is still there, with the same name, parent and pages. -/
theorem heap_inserted_of_heap (hpd : σ.heap parent = some pd) (hi : σ.heap i = some nd) (hf : i ≠ σ.fresh) :
    ∃ c, (σ.inserted type mode parent pd name).heap i = some { nd with children := c } := by
  by_cases hip : i = parent
  · subst hip
    obtain rfl := Option.some.inj (hi.symm.trans hpd)
    exact ⟨_, heap_inserted_parent⟩
  · exact ⟨nd.children, by rw [heap_inserted_of_ne hip hf, hi]⟩

theorem nameOf_inserted (hpd : σ.heap parent = some pd) (hne : σ.fresh ≠ parent) (i : ℕ) :
    (σ.inserted type mode parent pd name).nameOf i = if i = σ.fresh then some name else σ.nameOf i := by
  split_ifs with hf
  · rw [hf, nameOf_of_heap (heap_inserted_fresh hne)]
  · by_cases hip : i = parent
    · rw [hip, nameOf_of_heap heap_inserted_parent, nameOf_of_heap hpd]
    · rw [nameOf, heap_inserted_of_ne hip hf, nameOf]

theorem nextOf_inserted (hpd : σ.heap parent = some pd) (hne : σ.fresh ≠ parent) (i : ℕ) :
    (σ.inserted type mode parent pd name).nextOf i = if i = σ.fresh then pd.children else σ.nextOf i := by
  split_ifs with hf
  · rw [hf, nextOf_of_heap (heap_inserted_fresh hne)]
  · by_cases hip : i = parent
    · rw [hip, nextOf_of_heap heap_inserted_parent, nextOf_of_heap hpd]
    · rw [nextOf, heap_inserted_of_ne hip hf, nextOf]

theorem Inv.fresh_not_mem (h : σ.Inv kids) (d : ℕ) : σ.fresh ∉ kids d := fun hm => by
  obtain ⟨nd, hnd, -⟩ := h.kid_live hm
  exact (h.bound _ nd hnd).false

theorem Inv.kids_eq_nil (h : σ.Inv kids) (hd : σ.heap d = none) : kids d = [] := by
  refine List.eq_nil_iff_forall_not_mem.2 fun m hm => ?_
  obtain ⟨pd, hpd⟩ := (h.kid d m hm).1
  rw [hd] at hpd
  exact absurd hpd (by simp)

theorem Inv.heap_fresh (h : σ.Inv kids) : σ.heap σ.fresh = none := by
  cases hf : σ.heap σ.fresh with
  | none => rfl
  | some nd => exact absurd (h.bound _ nd hf) (lt_irrefl _)

/-- A node of the tree after is the new one or was there. -/
theorem heap_inserted_cases (hpd : σ.heap parent = some pd) (hi : (σ.inserted type mode parent pd name).heap i = some nd) :
    i = σ.fresh ∨ ∃ md, σ.heap i = some md ∧ md.parent = nd.parent ∧ md.pages = nd.pages := by
  by_cases hip : i = parent
  · subst hip
    obtain rfl := Option.some.inj (hi.symm.trans heap_inserted_parent)
    exact .inr ⟨pd, hpd, rfl, rfl⟩
  · by_cases hif : i = σ.fresh
    · exact .inl hif
    · rw [heap_inserted_of_ne hip hif] at hi
      exact .inr ⟨nd, hi, rfl, rfl⟩

theorem mem_insertKid : m ∈ σ.insertKid parent kids d ↔ d = parent ∧ m = σ.fresh ∨ m ∈ kids d := by
  by_cases hd : d = parent
  · rw [insertKid, hd, Function.update_self, List.mem_cons]
    simp
  · rw [insertKid, Function.update_of_ne hd]
    simp [hd]

theorem Inv.inserted (h : σ.Inv kids) (hpd : σ.heap parent = some pd) :
    (σ.inserted type mode parent pd name).Inv (σ.insertKid parent kids) := by
  have hlt := h.bound parent pd hpd
  have hne : σ.fresh ≠ parent := hlt.ne'
  have hfresh : ∀ {nd}, (σ.inserted type mode parent pd name).heap σ.fresh = some nd → nd.parent = some parent ∧ nd.children = none :=
    fun hnd => by
      obtain rfl := Option.some.inj ((heap_inserted_fresh hne).symm.trans hnd)
      exact ⟨rfl, rfl⟩
  have hseg : ∀ {d : ℕ} {q : Option ℕ}, Chain σ.nextOf q (kids d) →
      Chain (σ.inserted type mode parent pd name).nextOf q (kids d) := fun {d} q hc => hc.congr fun m hm => by
    rw [nextOf_inserted hpd hne, if_neg (ne_of_mem_of_not_mem hm (h.fresh_not_mem d))]
  refine ⟨fun d nd hd => ?_, fun d m hm => ?_, fun m nd d hm hpar => ?_, fun m nd d qd hm hpar hd => ?_, ?_, fun m nd hm => ?_⟩
  · by_cases hdp : d = parent
    · subst hdp
      obtain rfl := Option.some.inj (hd.symm.trans heap_inserted_parent)
      rw [insertKid, Function.update_self]
      refine ⟨rfl, ?_⟩
      rw [nextOf_inserted hpd hne, if_pos rfl]
      exact hseg (h.chain d pd hpd)
    · rw [insertKid, Function.update_of_ne hdp]
      by_cases hdf : d = σ.fresh
      · subst hdf
        rw [(hfresh hd).2, h.kids_eq_nil h.heap_fresh]
        rfl
      · rw [heap_inserted_of_ne hdp hdf] at hd
        exact hseg (h.chain d nd hd)
  · rcases mem_insertKid.1 hm with ⟨rfl, rfl⟩ | hm
    · exact ⟨⟨_, heap_inserted_parent⟩, _, heap_inserted_fresh hne, rfl⟩
    · obtain ⟨⟨qd, hqd⟩, nd, hnd, hpar⟩ := h.kid d m hm
      obtain ⟨c, hc⟩ := heap_inserted_of_heap hpd hqd (h.bound d qd hqd).ne
      obtain ⟨c', hc'⟩ := heap_inserted_of_heap hpd hnd (h.bound m nd hnd).ne
      exact ⟨⟨_, hc⟩, _, hc', hpar⟩
  · rcases heap_inserted_cases hpd hm with rfl | ⟨md, hmd, hsame, -⟩
    · obtain rfl := Option.some.inj (hpar.symm.trans (hfresh hm).1)
      exact hlt
    · exact h.older m md d hmd (hsame.trans hpar)
  · rcases heap_inserted_cases hpd hm with rfl | ⟨md, hmd, hsame, -⟩
    · obtain rfl := Option.some.inj (hpar.symm.trans (hfresh hm).1)
      exact mem_insertKid.2 (.inl ⟨rfl, rfl⟩)
    · refine mem_insertKid.2 (.inr ?_)
      rcases heap_inserted_cases hpd hd with rfl | ⟨dd, hdd, -⟩
      · exact absurd (h.older m md _ hmd (hsame.trans hpar)) (h.bound m md hmd).not_gt
      · exact h.listed m md d dd hmd (hsame.trans hpar) hdd
  · obtain ⟨rd, hrd, hnone⟩ := h.root
    obtain ⟨c, hc⟩ := heap_inserted_of_heap hpd hrd (h.bound _ rd hrd).ne
    exact ⟨_, hc, hnone⟩
  · rcases heap_inserted_cases hpd hm with rfl | ⟨md, hmd, -⟩
    · exact Nat.lt_succ_self _
    · exact Nat.lt_succ_of_lt (h.bound m md hmd)

/-- **Look-up after an insertion**: the new child is found first. -/
theorem Inv.childOf_inserted (h : σ.Inv kids) (hpd : σ.heap parent = some pd) (d : ℕ) (x : CString) :
    (σ.inserted type mode parent pd name).childOf (σ.insertKid parent kids) d x =
      if d = parent ∧ x = name then some σ.fresh else σ.childOf kids d x := by
  have hne : σ.fresh ≠ parent := (h.bound parent pd hpd).ne'
  have hold : (kids d).find? (fun m => decide ((σ.inserted type mode parent pd name).nameOf m = some x)) = σ.childOf kids d x := by
    refine List.find?_congr fun m hm => ?_
    rw [nameOf_inserted hpd hne, if_neg (ne_of_mem_of_not_mem hm (h.fresh_not_mem d))]
  by_cases hd : d = parent
  · subst hd
    rw [childOf, insertKid, Function.update_self, List.find?_cons, nameOf_inserted hpd hne, if_pos rfl]
    by_cases hx : x = name
    · rw [if_pos ⟨rfl, hx⟩, hx, decide_eq_true rfl]
    · rw [if_neg fun hboth => hx hboth.2, decide_eq_false fun hsome => hx (Option.some.inj hsome).symm]
      exact hold
  · rw [if_neg fun hboth => hd hboth.1, childOf, insertKid, Function.update_of_ne hd]
    exact hold

end Inserted

/-! ### Removing -/

/-- The links of the nodes may differ, but no name, parent or page. -/
def Relinked (σ σ' : TmpfsTree) (i : ℕ) : Prop :=
  ∃ c s, σ'.heap i = (σ.heap i).map fun md => { md with children := c, nextSibling := s }

structure Removed (σ : TmpfsTree) (n : ℕ) (nd : TmpfsNode) (σ' : TmpfsTree) : Prop where
  gone : σ'.heap n = none
  others : ∀ i, i ≠ n → σ.Relinked σ' i
  fresh : σ'.fresh = σ.fresh
  grant : σ'.grant = σ.grant
  root : σ'.root = σ.root
  frames : σ'.frames = σ.frames.filter (· ∉ nd.pages)

/-- The children without `n`. -/
def removeKid (n parent : ℕ) (kids : ℕ → List ℕ) : ℕ → List ℕ :=
  Function.update (Function.update kids parent ((kids parent).erase n)) n []

theorem Relinked.refl (σ : TmpfsTree) (i : ℕ) : σ.Relinked σ i := by
  cases hi : σ.heap i with
  | none => exact ⟨none, none, by rw [hi]; rfl⟩
  | some md => exact ⟨md.children, md.nextSibling, by rw [hi]; rfl⟩

theorem nextOf_setNode : (σ.setNode d nd).nextOf = Function.update σ.nextOf d nd.nextSibling := by
  funext i
  by_cases hi : i = d
  · rw [hi, Function.update_self, nextOf_of_heap (Function.update_self ..)]
  · rw [Function.update_of_ne hi, nextOf, heap_setNode, Function.update_of_ne hi, nextOf]

theorem relinked_setNode {c s : Option ℕ} (hd : σ.heap d = some pd) (i : ℕ) :
    σ.Relinked (σ.setNode d { pd with children := c, nextSibling := s }) i := by
  by_cases hi : i = d
  · subst hi
    exact ⟨c, s, (Function.update_self ..).trans (by rw [hd]; rfl)⟩
  · obtain ⟨c', s', h⟩ := Relinked.refl σ i
    exact ⟨c', s', (Function.update_of_ne hi _ _).trans h⟩

/-- The loop of `tmpfs_op_unlink` finds a child. -/
theorem unlinkFrom_chain {fuel : ℕ} {l₂ : List ℕ} (parent : ℕ) (prev : Option ℕ) (hchain : Chain σ.nextOf p (l ++ n :: l₂))
    (hlive : ∀ m ∈ l, ∃ nd, σ.heap m = some nd) (hn : σ.heap n = some nd) (hnot : n ∉ l) (hfuel : l.length < fuel) :
    σ.unlinkFrom n parent fuel prev p = (σ.linkChild parent (l.getLast?.or prev) nd.nextSibling).map fun σ =>
      (0, { σ with heap := Function.update σ.heap n none, frames := σ.frames.filter (· ∉ nd.pages) }) := by
  induction l generalizing p prev fuel with
  | nil =>
    obtain ⟨rfl, -⟩ := hchain
    obtain ⟨fuel, rfl⟩ := Nat.exists_eq_succ_of_ne_zero (Nat.ne_of_gt hfuel)
    rw [unlinkFrom, hn, Option.bind_some, if_pos rfl]
    rfl
  | cons m l ih =>
    obtain ⟨rfl, hchain⟩ := hchain
    obtain ⟨fuel, rfl⟩ := Nat.exists_eq_succ_of_ne_zero (Nat.ne_of_gt (Nat.zero_lt_of_lt hfuel))
    obtain ⟨md, hmd⟩ := hlive m List.mem_cons_self
    have hne : m ≠ n := fun heq => hnot (heq ▸ List.mem_cons_self)
    rw [unlinkFrom, hmd, Option.bind_some, if_neg hne]
    rw [nextOf_of_heap hmd] at hchain
    rw [ih _ hchain (fun m' hm' => hlive m' (List.mem_cons_of_mem _ hm')) (fun hm => hnot (List.mem_cons_of_mem _ hm))
      (Nat.lt_of_succ_lt_succ hfuel), List.getLast?_cons]
    cases l.getLast? with
    | none => rfl
    | some q => rfl

theorem Inv.kid_unique (h : σ.Inv kids) {d' : ℕ} (hm : m ∈ kids d) (hm' : m ∈ kids d') : d = d' := by
  obtain ⟨nd, hnd, hpar⟩ := h.kid_live hm
  obtain ⟨nd', hnd', hpar'⟩ := h.kid_live hm'
  obtain rfl := Option.some.inj (hnd.symm.trans hnd')
  exact Option.some.inj (hpar.symm.trans hpar')

/-- What the link past a child leaves: the list of its parent without it, and every other list. -/
theorem Inv.linkChild_spec (h : σ.Inv kids) {parent : ℕ} {l₂ : List ℕ} (hkids : kids parent = l ++ n :: l₂)
    (hn : σ.heap n = some nd) : ∃ σ₁, σ.linkChild parent l.getLast? nd.nextSibling = some σ₁ ∧ (∀ i, σ.Relinked σ₁ i) ∧
      σ₁ = { σ with heap := σ₁.heap } ∧ ∀ d dd, σ₁.heap d = some dd →
        Chain σ₁.nextOf dd.children (if d = parent then l ++ l₂ else kids d) := by
  have hmem : n ∈ kids parent := by rw [hkids]; simp
  obtain ⟨pd, hpd⟩ := (h.kid parent n hmem).1
  have hchain := h.chain parent pd hpd
  rw [hkids] at hchain
  rcases List.eq_nil_or_concat' l with rfl | ⟨l, q, rfl⟩
  · obtain ⟨hhead, htail⟩ := hchain
    have hnext : (σ.setNode parent { pd with children := nd.nextSibling }).nextOf = σ.nextOf := by
      rw [nextOf_setNode, ← nextOf_of_heap hpd, Function.update_eq_self]
    refine ⟨_, by rw [List.getLast?_nil, linkChild, hpd, Option.map_some], relinked_setNode hpd, rfl, fun d dd hd => ?_⟩
    rw [hnext]
    by_cases hdp : d = parent
    · subst hdp
      obtain rfl := Option.some.inj (hd.symm.trans (Function.update_self ..))
      rw [if_pos rfl]
      rw [nextOf_of_heap hn] at htail
      exact htail
    · rw [if_neg hdp]
      exact h.chain d dd ((Function.update_of_ne hdp _ _).symm.trans hd)
  · have hq : q ∈ kids parent := by rw [hkids]; simp
    obtain ⟨qd, hqd, -⟩ := h.kid_live hq
    have hnext : (σ.setNode q { qd with nextSibling := nd.nextSibling }).nextOf = Function.update σ.nextOf q (σ.nextOf n) := by
      rw [nextOf_setNode, nextOf_of_heap hn]
    refine ⟨_, by rw [List.getLast?_concat, linkChild, hqd, Option.map_some], relinked_setNode hqd, rfl, fun d dd hd => ?_⟩
    have hold : ∃ dd₀, σ.heap d = some dd₀ ∧ dd₀.children = dd.children := by
      by_cases hdq : d = q
      · subst hdq
        obtain rfl := Option.some.inj (hd.symm.trans (Function.update_self ..))
        exact ⟨qd, hqd, rfl⟩
      · exact ⟨dd, (Function.update_of_ne hdq _ _).symm.trans hd, rfl⟩
    obtain ⟨dd₀, hdd₀, hsame⟩ := hold
    rw [hnext, ← hsame]
    by_cases hdp : d = parent
    · subst hdp
      obtain rfl := Option.some.inj (hpd.symm.trans hdd₀)
      rw [if_pos rfl, List.append_assoc, List.singleton_append]
      rw [List.append_assoc, List.singleton_append] at hchain
      exact hchain.bypass
    · rw [if_neg hdp]
      exact (h.chain d dd₀ hdd₀).update fun hmem => hdp (h.kid_unique hmem hq)

theorem mem_removeKid {parent : ℕ} (hnd : (kids parent).Nodup) :
    m ∈ removeKid n parent kids d ↔ d ≠ n ∧ m ∈ kids d ∧ (d = parent → m ≠ n) := by
  by_cases hdn : d = n
  · rw [hdn, removeKid, Function.update_self]
    simp
  · rw [removeKid, Function.update_of_ne hdn]
    by_cases hdp : d = parent
    · rw [hdp, Function.update_self, hnd.mem_erase_iff]
      constructor
      · rintro ⟨hne, hm⟩
        exact ⟨fun heq => hdn (hdp.trans heq), hm, fun _ => hne⟩
      · rintro ⟨-, hm, hne⟩
        exact ⟨hne rfl, hm⟩
    · rw [Function.update_of_ne hdp]
      constructor
      · intro hm
        exact ⟨hdn, hm, fun heq => absurd heq hdp⟩
      · rintro ⟨-, hm, -⟩
        exact hm

theorem Removed.heap_of_heap (hrem : σ.Removed n nd σ') (hne : i ≠ n) {md : TmpfsNode} (hi : σ.heap i = some md) :
    ∃ c s, σ'.heap i = some { md with children := c, nextSibling := s } := by
  obtain ⟨c, s, h⟩ := hrem.others i hne
  rw [hi] at h
  exact ⟨c, s, h⟩

/-- What is there after was there before. -/
theorem Removed.of_heap (hrem : σ.Removed n nd σ') {md : TmpfsNode} (hi : σ'.heap i = some md) :
    i ≠ n ∧ ∃ md₀, σ.heap i = some md₀ ∧ md₀.parent = md.parent ∧ md₀.name = md.name ∧ md₀.pages = md.pages ∧ md₀.type = md.type := by
  have hne : i ≠ n := fun heq => by
    rw [heq, hrem.gone] at hi
    exact absurd hi (by simp)
  obtain ⟨c, s, h⟩ := hrem.others i hne
  rw [hi] at h
  obtain ⟨md₀, hmd₀, rfl⟩ := Option.map_eq_some_iff.1 h.symm
  exact ⟨hne, md₀, hmd₀, rfl, rfl, rfl, rfl⟩

theorem Inv.removed (h : σ.Inv kids) {parent : ℕ} (hmem : n ∈ kids parent) (hrem : σ.Removed n nd σ')
    (hchain : ∀ d dd, σ'.heap d = some dd → Chain σ'.nextOf dd.children (removeKid n parent kids d)) :
    σ'.Inv (removeKid n parent kids) := by
  refine ⟨hchain, fun d m hm => ?_, fun m nd d hm hpar => ?_, fun m nd d qd hm hpar hd => ?_, ?_, fun m nd hm => ?_⟩
  · obtain ⟨hdn, hm, hne⟩ := (mem_removeKid (h.nodup parent)).1 hm
    obtain ⟨⟨qd, hqd⟩, md, hmd, hpar⟩ := h.kid d m hm
    obtain ⟨c, s, hc⟩ := hrem.heap_of_heap hdn hqd
    obtain ⟨c', s', hc'⟩ := hrem.heap_of_heap (fun heq => hne (h.kid_unique (heq ▸ hm) hmem) heq) hmd
    exact ⟨⟨_, hc⟩, _, hc', hpar⟩
  · obtain ⟨-, md, hmd, hsame, -⟩ := hrem.of_heap hm
    exact h.older m md d hmd (hsame.trans hpar)
  · obtain ⟨hmn, md, hmd, hsame, -⟩ := hrem.of_heap hm
    obtain ⟨hdn, dd, hdd, -⟩ := hrem.of_heap hd
    exact (mem_removeKid (h.nodup parent)).2 ⟨hdn, h.listed m md d dd hmd (hsame.trans hpar) hdd, fun _ => hmn⟩
  · obtain ⟨rd, hrd, hnone⟩ := h.root
    have hne : σ.root ≠ n := fun heq => by
      obtain ⟨md, hmd, hpar⟩ := h.kid_live hmem
      rw [← heq, hrd] at hmd
      obtain rfl := Option.some.inj hmd
      exact absurd (hnone.symm.trans hpar) (by simp)
    obtain ⟨c, s, hc⟩ := hrem.heap_of_heap hne hrd
    rw [hrem.root]
    exact ⟨_, hc, hnone⟩
  · obtain ⟨-, md, hmd, -⟩ := hrem.of_heap hm
    rw [hrem.fresh]
    exact h.bound m md hmd

/-- A path leads to the root or to a child of its parent. -/
theorem Inv.resolve_parent (h : σ.Inv kids) (hr : σ.resolve kids path = some m) (hm : σ.heap m = some nd) :
    nd.parent = none ∧ m = σ.root ∨ ∃ parent, nd.parent = some parent ∧ m ∈ kids parent := by
  have hall : m = σ.root ∨ ∃ parent, m ∈ kids parent :=
    walk_induction (P := fun m => m = σ.root ∨ ∃ parent, m ∈ kids parent)
      (fun d _ _ _ hc => .inr ⟨d, (childOf_eq_some hc).1⟩) (.inl rfl) hr
  rcases hall with rfl | ⟨parent, hmem⟩
  · obtain ⟨rd, hrd, hnone⟩ := h.root
    obtain rfl := Option.some.inj (hrd.symm.trans hm)
    exact .inl ⟨hnone, rfl⟩
  · obtain ⟨md, hmd, hpar⟩ := h.kid_live hmem
    obtain rfl := Option.some.inj (hmd.symm.trans hm)
    exact .inr ⟨parent, hpar, hmem⟩

/-- **What `tmpfs_op_unlink` does.** -/
theorem Inv.tmpfsOpUnlink_cases (h : σ.Inv kids) (hlen : flopstrlen name < vfsMaxFileName) :
    σ.tmpfsOpUnlink name = some (-1, σ) ∧ (∀ m, σ.resolve kids name = some m → m = σ.root) ∨
      ∃ n nd parent σ', σ.tmpfsOpUnlink name = some (0, σ') ∧ σ.resolve kids name = some n ∧ σ.heap n = some nd ∧
        nd.parent = some parent ∧ n ∈ kids parent ∧ σ.Removed n nd σ' ∧ σ'.Inv (removeKid n parent kids) := by
  rw [tmpfsOpUnlink, h.tmpfsWalkPath_eq hlen, Option.bind_some]
  cases hr : σ.resolve kids name with
  | none => exact .inl ⟨rfl, fun m hm => absurd hm (by simp)⟩
  | some n =>
    obtain ⟨nd, hnd⟩ := h.resolve_live hr
    simp only [hnd, Option.bind_some]
    rcases h.resolve_parent hr hnd with ⟨hnone, rfl⟩ | ⟨parent, hpar, hmem⟩
    · rw [hnone]
      exact .inl ⟨rfl, fun m hm => (Option.some.inj hm).symm⟩
    · obtain ⟨pd, hpd⟩ := (h.kid parent n hmem).1
      obtain ⟨l, l₂, hkids⟩ := List.append_of_mem hmem
      have hnodup := h.nodup parent
      rw [hkids] at hnodup
      have hnot := List.nodup_cons.1 (List.nodup_middle.1 hnodup)
      have hfuel := h.length_le parent
      rw [hkids, List.length_append, List.length_cons] at hfuel
      have hchain := h.chain parent pd hpd
      rw [hkids] at hchain
      obtain ⟨σ₁, hlink, hrel, hfields, hchains⟩ := h.linkChild_spec hkids hnd
      have hrun := unlinkFrom_chain parent none hchain (fun m hm => ?_) hnd
        (fun hl => hnot.1 (List.mem_append_left _ hl)) (by omega : l.length < σ.fresh + 1)
      · rw [Option.or_none, hlink, Option.map_some] at hrun
        have hrem : σ.Removed n nd { σ₁ with
            heap := Function.update σ₁.heap n none, frames := σ₁.frames.filter (· ∉ nd.pages) } := by
          refine ⟨Function.update_self .., fun i hi => ?_, congrArg (·.fresh) hfields, congrArg (·.grant) hfields,
            congrArg (·.root) hfields, congrArg (·.frames.filter (· ∉ nd.pages)) hfields⟩
          obtain ⟨c, s, hi'⟩ := hrel i
          exact ⟨c, s, (Function.update_of_ne hi _ _).trans hi'⟩
        refine .inr ⟨n, nd, parent, _, ?_, rfl, hnd, hpar, hmem, hrem, h.removed hmem hrem fun d dd hd => ?_⟩
        · simp only [hpar, hpd, Option.bind_some]
          exact hrun
        · have hdn : d ≠ n := (hrem.of_heap hd).1
          have hlist : removeKid n parent kids d = if d = parent then l ++ l₂ else kids d := by
            rw [removeKid, Function.update_of_ne hdn]
            split_ifs with hdp
            · rw [hdp, Function.update_self, hkids, List.erase_append_right _ fun hl => hnot.1 (List.mem_append_left _ hl),
                List.erase_cons_head]
            · rw [Function.update_of_ne hdp]
          rw [hlist]
          refine (hchains d dd ((Function.update_of_ne hdn _ _).symm.trans hd)).congr fun i hi => ?_
          have hin : i ≠ n := fun heq => by
            rw [heq] at hi
            split_ifs at hi with hdp
            · exact hnot.1 hi
            · exact hdp (h.kid_unique hi hmem)
          exact congrArg (Option.bind · _) (Function.update_of_ne hin _ _)
      · obtain ⟨md, hmd, -⟩ := h.kid_live (d := parent) (m := m) (by rw [hkids]; exact List.mem_append_left _ hm)
        exact ⟨md, hmd⟩

/-! ### Renaming and writing -/

/-- The links of a node. -/
def linksOf (nd : TmpfsNode) : Option ℕ × Option ℕ × Option ℕ := (nd.parent, nd.children, nd.nextSibling)

/-- The nodes are linked as before. -/
def SameLinks (σ σ' : TmpfsTree) : Prop := ∀ i, (σ'.heap i).map linksOf = (σ.heap i).map linksOf

theorem SameLinks.of_heap (hs : SameLinks σ σ') (hi : σ'.heap i = some nd) :
    ∃ md, σ.heap i = some md ∧ md.parent = nd.parent ∧ md.children = nd.children ∧ md.nextSibling = nd.nextSibling := by
  have hlinks := hs i
  rw [hi] at hlinks
  obtain ⟨md, hmd, heq⟩ := Option.map_eq_some_iff.1 hlinks.symm
  exact ⟨md, hmd, congrArg Prod.fst heq, congrArg (·.2.1) heq, congrArg (·.2.2) heq⟩

theorem SameLinks.nextOf (hs : SameLinks σ σ') : σ'.nextOf = σ.nextOf := by
  funext i
  have hbind : ∀ τ : TmpfsTree, τ.nextOf i = ((τ.heap i).map linksOf).bind (·.2.2) := fun τ => by
    rw [TmpfsTree.nextOf]
    cases τ.heap i with
    | none => rfl
    | some nd => rfl
  rw [hbind, hbind, hs i]

theorem SameLinks.symm (hs : SameLinks σ σ') : SameLinks σ' σ := fun i => (hs i).symm

theorem sameLinks_setNode {nd' : TmpfsNode} (hn : σ.heap n = some nd) (hlinks : linksOf nd' = linksOf nd) :
    SameLinks σ (σ.setNode n nd') := fun i => by
  by_cases hi : i = n
  · rw [hi, hn, heap_setNode, Function.update_self, Option.map_some, Option.map_some, hlinks]
  · rw [heap_setNode, Function.update_of_ne hi]

theorem Inv.of_links (h : σ.Inv kids) (hs : SameLinks σ σ') (hfresh : σ'.fresh = σ.fresh) (hroot : σ'.root = σ.root) :
    σ'.Inv kids := by
  refine ⟨fun d nd hd => ?_, fun d m hm => ?_, fun m nd d hm hpar => ?_, fun m nd d pd hm hpar hd => ?_, ?_, fun m nd hm => ?_⟩
  · obtain ⟨md, hmd, -, hchild, -⟩ := hs.of_heap hd
    rw [hs.nextOf, ← hchild]
    exact h.chain d md hmd
  · obtain ⟨⟨pd, hpd⟩, nd, hnd, hpar⟩ := h.kid d m hm
    obtain ⟨pd', hpd', -⟩ := hs.symm.of_heap hpd
    obtain ⟨nd', hnd', hsame, -⟩ := hs.symm.of_heap hnd
    exact ⟨⟨pd', hpd'⟩, nd', hnd', hsame.trans hpar⟩
  · obtain ⟨md, hmd, hsame, -⟩ := hs.of_heap hm
    exact h.older m md d hmd (hsame.trans hpar)
  · obtain ⟨md, hmd, hsame, -⟩ := hs.of_heap hm
    obtain ⟨qd, hqd, -⟩ := hs.of_heap hd
    exact h.listed m md d qd hmd (hsame.trans hpar) hqd
  · obtain ⟨rd, hrd, hnone⟩ := h.root
    obtain ⟨rd', hrd', hsame, -⟩ := hs.symm.of_heap hrd
    rw [hroot]
    exact ⟨rd', hrd', hsame.trans hnone⟩
  · obtain ⟨md, hmd, -⟩ := hs.of_heap hm
    rw [hfresh]
    exact h.bound m md hmd

/-- **What `tmpfs_op_rename` does.** -/
theorem Inv.tmpfsOpRename_eq (h : σ.Inv kids) {old new : CString} (hold : flopstrlen old < vfsMaxFileName) :
    σ.tmpfsOpRename old new = (σ.resolve kids old).elim (some (-1, σ)) fun n =>
      if flopstrlen new < vfsMaxFileName then (σ.heap n).map fun nd => (0, σ.setNode n { nd with name := new }) else none := by
  rw [tmpfsOpRename, h.tmpfsWalkPath_eq hold, Option.bind_some]
  cases σ.resolve kids old with
  | none => rfl
  | some n =>
    by_cases hnew : flopstrlen new < vfsMaxFileName
    · exact (if_neg (Nat.not_lt.2 hnew)).trans (if_pos hnew).symm
    · exact (if_pos (Nat.lt_succ_of_le (Nat.not_lt.1 hnew))).trans (if_neg hnew).symm

theorem Inv.renamed (h : σ.Inv kids) (hn : σ.heap n = some nd) (new : CString) :
    (σ.setNode n { nd with name := new }).Inv kids :=
  h.of_links (sameLinks_setNode hn rfl) rfl rfl

/-! ### What a call that comes back has done -/

theorem Inv.tmpfsAdd_cases (h : σ.Inv kids) {type : TmpfsNodeType} {mode : ℕ} {r : ℤ}
    (hadd : σ.tmpfsAdd type mode name = some (r, σ')) :
    σ.resolve kids (dirPath name) = none ∧ r = -1 ∧ σ' = σ ∨ ∃ parent pd, σ.resolve kids (dirPath name) = some parent ∧
      σ.heap parent = some pd ∧ r = 0 ∧ σ' = σ.inserted type mode parent pd (fileName name) := by
  have hlens : ¬ (flopstrlen (dirPath name) + 1 > vfsMaxFileName ∨ flopstrlen (fileName name) + 1 > vfsMaxFileName) := fun hlong => by
    rw [tmpfsAdd, if_pos hlong] at hadd
    exact absurd hadd (by simp)
  rw [h.tmpfsAdd_eq (by omega) (by omega)] at hadd
  cases hr : σ.resolve kids (dirPath name) with
  | none =>
    rw [hr] at hadd
    obtain ⟨rfl, rfl⟩ := Prod.mk.inj (Option.some.inj hadd)
    exact .inl ⟨rfl, rfl, rfl⟩
  | some parent =>
    obtain ⟨pd, hpd⟩ := h.resolve_live hr
    rw [hr, Option.elim_some, hpd, Option.map_some] at hadd
    split_ifs at hadd
    obtain ⟨rfl, rfl⟩ := Prod.mk.inj (Option.some.inj hadd)
    exact .inr ⟨parent, pd, rfl, hpd, rfl, rfl⟩

theorem Inv.added (h : σ.Inv kids) {type : TmpfsNodeType} {mode : ℕ} {r : ℤ}
    (hadd : σ.tmpfsAdd type mode name = some (r, σ')) : ∃ kids', σ'.Inv kids' := by
  rcases h.tmpfsAdd_cases hadd with ⟨-, -, rfl⟩ | ⟨parent, pd, -, hpd, -, rfl⟩
  · exact ⟨kids, h⟩
  · exact ⟨_, h.inserted hpd⟩

theorem Inv.unlinked (h : σ.Inv kids) {r : ℤ} (hunlink : σ.tmpfsOpUnlink name = some (r, σ')) :
    r = -1 ∧ σ' = σ ∨ ∃ n nd parent, r = 0 ∧ σ.resolve kids name = some n ∧ σ.heap n = some nd ∧ nd.parent = some parent ∧
      n ∈ kids parent ∧ σ.Removed n nd σ' ∧ σ'.Inv (removeKid n parent kids) := by
  obtain ⟨o, hwalk, -⟩ := Option.bind_eq_some_iff.1 hunlink
  rcases h.tmpfsOpUnlink_cases (h.tmpfsWalkPath_eq_some hwalk).1 with ⟨heq, -⟩ | ⟨n, nd, parent, τ, heq, hall⟩
  · obtain ⟨rfl, rfl⟩ := Prod.mk.inj (Option.some.inj (heq.symm.trans hunlink))
    exact .inl ⟨rfl, rfl⟩
  · obtain ⟨rfl, rfl⟩ := Prod.mk.inj (Option.some.inj (heq.symm.trans hunlink))
    exact .inr ⟨n, nd, parent, rfl, hall⟩

theorem Inv.tmpfsOpRename_cases (h : σ.Inv kids) {old new : CString} {r : ℤ}
    (hrename : σ.tmpfsOpRename old new = some (r, σ')) :
    r = -1 ∧ σ' = σ ∨ ∃ n nd, r = 0 ∧ σ.resolve kids old = some n ∧ σ.heap n = some nd ∧
      σ' = σ.setNode n { nd with name := new } := by
  obtain ⟨o, hwalk, -⟩ := Option.bind_eq_some_iff.1 hrename
  rw [h.tmpfsOpRename_eq (h.tmpfsWalkPath_eq_some hwalk).1] at hrename
  cases hr : σ.resolve kids old with
  | none =>
    rw [hr] at hrename
    obtain ⟨rfl, rfl⟩ := Prod.mk.inj (Option.some.inj hrename)
    exact .inl ⟨rfl, rfl⟩
  | some n =>
    obtain ⟨nd, hnd⟩ := h.resolve_live hr
    rw [hr, Option.elim_some, hnd, Option.map_some] at hrename
    split_ifs at hrename
    obtain ⟨rfl, rfl⟩ := Prod.mk.inj (Option.some.inj hrename)
    exact .inr ⟨n, nd, rfl, rfl, hnd, rfl⟩

/-- `vfs_open` finds the file, or has created it, or fails. -/
theorem Inv.tmpfsOpen_cases (h : σ.Inv kids) {creates : Bool} {o : Option ℕ} (hopen : σ.tmpfsOpen name creates = some (o, σ')) :
    σ' = σ ∧ o = σ.resolve kids name ∨ creates = true ∧ σ.resolve kids name = none ∧
      ∃ r, σ.tmpfsOpCreate name = some (r, σ') ∧ ∀ kids', σ'.Inv kids' → ∀ n, o = some n → σ'.resolve kids' name = some n := by
  obtain ⟨found, hwalk, hopen⟩ := Option.bind_eq_some_iff.1 hopen
  obtain ⟨hlen, rfl⟩ := h.tmpfsWalkPath_eq_some hwalk
  cases hr : σ.resolve kids name with
  | some n =>
    rw [hr] at hopen
    obtain ⟨rfl, rfl⟩ := Prod.mk.inj (Option.some.inj hopen)
    exact .inl ⟨rfl, rfl⟩
  | none =>
    simp only [hr] at hopen
    cases creates with
    | false =>
      obtain ⟨rfl, rfl⟩ := Prod.mk.inj (Option.some.inj hopen)
      exact .inl ⟨rfl, rfl⟩
    | true =>
      rw [if_pos rfl] at hopen
      obtain ⟨⟨r, τ⟩, hcreate, hopen⟩ := Option.bind_eq_some_iff.1 hopen
      by_cases hzero : r = 0
      · rw [if_pos hzero] at hopen
        obtain ⟨found', hwalk', heq⟩ := Option.map_eq_some_iff.1 hopen
        obtain ⟨rfl, rfl⟩ := Prod.mk.inj heq
        exact .inr ⟨rfl, rfl, r, hcreate, fun kids' h' n hn => (h'.tmpfsWalkPath_eq_some hwalk').2.trans hn⟩
      · rw [if_neg hzero] at hopen
        obtain ⟨rfl, rfl⟩ := Prod.mk.inj (Option.some.inj hopen)
        exact .inr ⟨rfl, rfl, r, hcreate, fun _ _ n hn => absurd hn (by simp)⟩

end TmpfsTree

/-! ### Runs -/

open TmpfsTree

variable {s s' : TreeState} {c : TreeCall}

/-- While the tree is mounted its links are right. -/
def TreeState.Ok (s : TreeState) : Prop := s.mounted = true → ∃ kids, s.tree.Inv kids

theorem TreeState.ok_init (grant : ℕ → Bool) : (init grant).Ok := fun _ => by
  have honly : ∀ {i nd}, (mount grant).heap i = some nd → i = 0 ∧ nd = ⟨[slash], .dir, 0o777, [], none, none, none⟩ := fun {i nd} hi => by
    have hi : (if i = 0 then some (⟨[slash], .dir, 0o777, [], none, none, none⟩ : TmpfsNode) else none) = some nd := hi
    split_ifs at hi with hzero
    exact ⟨hzero, (Option.some.inj hi).symm⟩
  refine ⟨fun _ => [], fun d nd hd => ?_, fun d m hm => absurd hm List.not_mem_nil, fun m nd d hm hpar => ?_,
    fun m nd d pd hm hpar _ => ?_, ⟨_, rfl, rfl⟩, fun m nd hm => ?_⟩
  · rw [(honly hd).2]
    rfl
  · rw [(honly hm).2] at hpar
    exact absurd hpar (by simp)
  · rw [(honly hm).2] at hpar
    exact absurd hpar (by simp)
  · rw [(honly hm).1]
    exact Nat.zero_lt_one

theorem TreeState.Ok.onTree {op : TmpfsTree → Option (ℤ × TmpfsTree)} (hok : s.Ok)
    (hop : ∀ σ kids r σ', σ.Inv kids → op σ = some (r, σ') → ∃ kids', σ'.Inv kids') (hstep : s.onTree op = some s') : s'.Ok := by
  unfold TreeState.onTree at hstep
  split_ifs at hstep with hm
  · obtain ⟨kids, h⟩ := hok hm
    obtain ⟨⟨r, σ'⟩, heq, rfl⟩ := Option.map_eq_some_iff.1 hstep
    exact fun _ => hop _ kids r σ' h heq
  · obtain rfl := Option.some.inj hstep
    exact hok

/-- One call. -/
theorem TreeCall.step_ok (hok : s.Ok) (hstep : c.step s = some s') : s'.Ok := by
  cases c with
  | create name => exact hok.onTree (fun σ kids r σ' h => h.added) hstep
  | mkdir name mode => exact hok.onTree (fun σ kids r σ' h => h.added) hstep
  | unlink name =>
    refine hok.onTree (fun σ kids r σ' h hop => ?_) hstep
    rcases h.unlinked hop with ⟨-, rfl⟩ | ⟨n, nd, parent, -, -, -, -, -, -, h'⟩
    · exact ⟨kids, h⟩
    · exact ⟨_, h'⟩
  | rename old new =>
    refine hok.onTree (fun σ kids r σ' h hop => ?_) hstep
    rcases h.tmpfsOpRename_cases hop with ⟨-, rfl⟩ | ⟨n, nd, -, -, hnd, rfl⟩
    · exact ⟨kids, h⟩
    · exact ⟨kids, h.renamed hnd new⟩
  | vopen name creates =>
    rw [TreeCall.step] at hstep
    split_ifs at hstep with hm
    · obtain ⟨kids, h⟩ := hok hm
      obtain ⟨⟨o, σ'⟩, heq, rfl⟩ := Option.map_eq_some_iff.1 hstep
      rcases h.tmpfsOpen_cases heq with ⟨rfl, -⟩ | ⟨-, -, r, hcreate, -⟩
      · exact fun _ => ⟨kids, h⟩
      · exact fun _ => h.added hcreate
    · obtain rfl := Option.some.inj hstep
      exact hok
  | close k =>
    obtain rfl := Option.some.inj hstep
    exact hok
  | access k pages =>
    rw [TreeCall.step] at hstep
    cases hk : s.handles[k]? with
    | none =>
      rw [hk] at hstep
      obtain rfl := Option.some.inj hstep
      exact hok
    | some n =>
      simp only [hk] at hstep
      split_ifs at hstep
      obtain ⟨nd, hnd, rfl⟩ := Option.map_eq_some_iff.1 hstep
      intro hm
      obtain ⟨kids, h⟩ := hok hm
      exact ⟨kids, h.of_links (sameLinks_setNode hnd rfl) rfl rfl⟩
  | unmount =>
    rw [TreeCall.step] at hstep
    split_ifs at hstep with hm
    · obtain rfl := Option.some.inj hstep
      exact fun hm => absurd hm (by simp)
    · obtain rfl := Option.some.inj hstep
      exact hok

theorem treeRun_ok {calls : List TreeCall} (hok : s.Ok) (hrun : treeRun calls s = some s') : s'.Ok := by
  induction calls generalizing s with
  | nil =>
    obtain rfl := Option.some.inj hrun
    exact hok
  | cons c calls ih =>
    obtain ⟨t, hstep, hrun⟩ := Option.bind_eq_some_iff.1 hrun
    exact ih (c.step_ok hok hstep) hrun

end Flopperating
