/-
# Renaming

`tmpfs_op_rename` looks the old path up and writes the whole new path into the name of the node it
finds.  A look-up compares names with single segments, so a new path with a slash in it names a
node that nothing leads to, and a new path without one still names a child of the old parent.  The
node has moved exactly when both paths are names below the root (`rename_moves`).  The old path
still leads somewhere if a sibling had the same name, as two `tmpfs_op_create`s leave it.
-/

import Mathlib.Tactic.IntervalCases
import Flopperating.Fs.TmpfsCreate

namespace Flopperating
namespace TmpfsTree

open NameTree

variable {σ σ' : TmpfsTree} {kids : ℕ → List ℕ} {d i m n : ℕ} {nd : TmpfsNode} {path old new q x : CString} {l : List CString}

/-- The node `m` is `n` or below it. -/
inductive Below (σ : TmpfsTree) (n : ℕ) : ℕ → Prop
  | self : Below σ n n
  | child {m parent : ℕ} {nd : TmpfsNode} : σ.heap m = some nd → nd.parent = some parent → Below σ n parent → Below σ n m

/-- The node `n` has moved from the path `old` to the path `new`, with its contents and all below
it, and no path to another node has changed. -/
structure RenameLaw (σ σ' : TmpfsTree) (old new : CString) (n : ℕ) : Prop where
  named : σ'.tmpfsWalkPath new = some (some n)
  kept : ∀ i nd, σ.heap i = some nd → ∃ name, σ'.heap i = some { nd with name := name }
  gone : σ'.tmpfsWalkPath old = some none
  others : ∀ q m, σ.tmpfsWalkPath q = some (some m) → ¬ Below σ n m → σ'.tmpfsWalkPath q = some (some m)

/-- The new path is a name, and the node is the only child of the root with its name. -/
def RenameFits (σ : TmpfsTree) (n : ℕ) (new : CString) : Prop :=
  slash ∉ new ∧ ∃ nd, σ.heap n = some nd ∧ nd.parent = some σ.root ∧
    ∀ m md, σ.heap m = some md → md.parent = some σ.root → md.name = nd.name → m = n

/-- A walk goes down. -/
theorem Inv.below_of_walk (h : σ.Inv kids) (hw : walk (σ.childOf kids) l n = some m) : Below σ n m :=
  walk_induction (P := Below σ n) (fun _ _ _ hd hc => by
    obtain ⟨nd, hnd, hpar⟩ := h.childOf_live hc
    exact .child hnd hpar hd) .self hw

/-- A path to a child of the root has one segment, the child's name. -/
theorem Inv.segments_rootChild (h : σ.Inv kids) (hr : σ.resolve kids path = some n) (hn : n ∈ kids σ.root)
    (hnd : σ.heap n = some nd) : segments slash (relative path) = [nd.name] := by
  rcases walk_last hr with ⟨-, hroot⟩ | ⟨l', x, e, hseg, hwalk, hc⟩
  · exact absurd (h.kid_lt hn) (by rw [hroot]; exact lt_irrefl _)
  · obtain ⟨hmem, hname⟩ := childOf_eq_some hc
    obtain rfl := h.kid_unique hmem hn
    rw [nameOf_of_heap hnd] at hname
    rw [hseg, eq_nil_of_walk h.childOf_lt hwalk, Option.some.inj hname, List.nil_append]

/-! ### Look-up with another name -/

theorem nameOf_renamed (i : ℕ) :
    (σ.setNode n { nd with name := new }).nameOf i = if i = n then some new else σ.nameOf i := by
  split_ifs with hi
  · rw [hi, nameOf_of_heap (Function.update_self ..)]
  · rw [nameOf, heap_setNode, Function.update_of_ne hi, nameOf]

theorem find?_of_imp {f g : ℕ → Bool} {l : List ℕ} (hf : l.find? f = some m) (hm : g m = true)
    (himp : ∀ i ∈ l, g i = true → f i = true) : l.find? g = some m := by
  induction l with
  | nil => exact absurd hf (by simp)
  | cons i l ih =>
    rw [List.find?_cons] at hf ⊢
    cases hfi : f i with
    | true =>
      rw [hfi] at hf
      obtain rfl := Option.some.inj hf
      rw [hm]
    | false =>
      have hgi : g i = false := Bool.eq_false_iff.2 fun hgi => by
        rw [himp i List.mem_cons_self hgi] at hfi
        exact absurd hfi (by simp)
      rw [hfi] at hf
      rw [hgi]
      exact ih hf fun j hj => himp j (List.mem_cons_of_mem _ hj)

/-- Another child is found as before, if the new name was not there. -/
theorem childOf_renamed (hc : σ.childOf kids d x = some m) (hm : m ≠ n) (hnew : n ∈ kids d → x ≠ new) :
    (σ.setNode n { nd with name := new }).childOf kids d x = some m := by
  obtain ⟨-, hname⟩ := childOf_eq_some hc
  refine find?_of_imp hc (decide_eq_true ?_) fun i hi hname' => decide_eq_true ?_
  · rw [nameOf_renamed, if_neg hm, hname]
  · have hname' := of_decide_eq_true hname'
    rw [nameOf_renamed] at hname'
    split_ifs at hname' with hin
    · exact absurd (Option.some.inj hname').symm (hnew (hin ▸ hi))
    · exact hname'

theorem childOf_renamed_ne_none (hm : m ∈ kids d) (hne : m ≠ n) (hname : σ.nameOf m = some x) :
    (σ.setNode n { nd with name := new }).childOf kids d x ≠ none := fun hnone => by
  refine childOf_eq_none.1 hnone m hm ?_
  rw [nameOf_renamed, if_neg hne, hname]

/-! ### The law -/

theorem resolve_setNode : (σ.setNode n nd).resolve kids path =
    walk ((σ.setNode n nd).childOf kids) (segments slash (relative path)) σ.root := rfl

theorem resolve_new (hnew : σ.resolve kids new = none) (hslash : slash ∉ new) :
    segments slash (relative new) = [new] := by
  rw [relative_of_not_mem hslash, segments_fileName hslash]
  refine if_neg fun hnil => ?_
  rw [hnil] at hnew
  exact absurd hnew (by simp [resolve, relative])

/-- The node that the old path leads to has moved. -/
theorem Inv.renameLaw (h : σ.Inv kids) (hnd : σ.heap n = some nd) (hold : σ.resolve kids old = some n)
    (hnew : σ.resolve kids new = none) (holdLen : flopstrlen old < vfsMaxFileName) (hnewLen : flopstrlen new < vfsMaxFileName)
    (hfits : RenameFits σ n new) : RenameLaw σ (σ.setNode n { nd with name := new }) old new n := by
  obtain ⟨hslash, nd', hnd', hpar, honly⟩ := hfits
  obtain rfl := Option.some.inj (hnd.symm.trans hnd')
  have h' := h.renamed hnd new
  obtain ⟨rd, hrd, -⟩ := h.root
  have hn : n ∈ kids σ.root := h.listed n nd _ rd hnd hpar hrd
  have hsegs := resolve_new hnew hslash
  rw [resolve, hsegs, walk_singleton] at hnew
  have hfree : ∀ m ∈ kids σ.root, σ.nameOf m ≠ some new := childOf_eq_none.1 hnew
  refine ⟨?_, fun i md hi => ?_, ?_, fun q m hq hb => ?_⟩
  · rw [h'.tmpfsWalkPath_eq hnewLen, resolve_setNode, hsegs, walk_singleton]
    cases hc : (σ.setNode n { nd with name := new }).childOf kids σ.root new with
    | none => exact absurd (nameOf_renamed n) (by rw [if_pos rfl]; exact childOf_eq_none.1 hc n hn)
    | some m =>
      obtain ⟨hm, hname⟩ := childOf_eq_some hc
      rw [nameOf_renamed] at hname
      split_ifs at hname with hmn
      · rw [hmn]
      · exact absurd hname (hfree m hm)
  · by_cases hin : i = n
    · subst hin
      obtain rfl := Option.some.inj (hi.symm.trans hnd)
      exact ⟨new, Function.update_self ..⟩
    · exact ⟨md.name, (Function.update_of_ne hin _ _).trans hi⟩
  · rw [h'.tmpfsWalkPath_eq holdLen, resolve_setNode, h.segments_rootChild hold hn hnd, walk_singleton]
    refine congrArg some (childOf_eq_none.2 fun m hm hname => ?_)
    rw [nameOf_renamed] at hname
    split_ifs at hname with hmn
    · exact hfree n hn (by rw [nameOf_of_heap hnd, hname])
    · obtain ⟨md, hmd, hmpar⟩ := h.kid_live hm
      rw [nameOf_of_heap hmd] at hname
      exact hmn (honly m md hmd hmpar (Option.some.inj hname))
  · obtain ⟨hqLen, hq⟩ := h.tmpfsWalkPath_eq_some hq
    rw [h'.tmpfsWalkPath_eq hqLen]
    refine congrArg some ?_
    -- a step to `n` would lead below `n`
    have hwalk : ∀ (l : List CString) (d : ℕ), walk (σ.childOf kids) l d = some m →
        walk ((σ.setNode n { nd with name := new }).childOf kids) l d = some m := fun l => by
      induction l with
      | nil => exact fun d hw => hw
      | cons x l ih =>
        intro d hw
        obtain ⟨e, he, hw⟩ := Option.bind_eq_some_iff.1 hw
        rw [walk_cons, childOf_renamed he (fun heq => hb (h.below_of_walk (heq ▸ hw))) fun hmem hx => ?_, Option.bind_some, ih e hw]
        obtain rfl := h.kid_unique hmem hn
        rw [hx, hnew] at he
        exact absurd he (by simp)
    exact hwalk _ _ hq

/-- If the node has moved, the paths are names below the root. -/
theorem Inv.renameFits (h : σ.Inv kids) (hnd : σ.heap n = some nd) (hold : σ.resolve kids old = some n)
    (hnew : σ.resolve kids new = none) (holdLen : flopstrlen old < vfsMaxFileName) (hnewLen : flopstrlen new < vfsMaxFileName)
    (hlaw : RenameLaw σ (σ.setNode n { nd with name := new }) old new n) : RenameFits σ n new := by
  have h' := h.renamed hnd new
  have hnamed := hlaw.named
  rw [h'.tmpfsWalkPath_eq hnewLen] at hnamed
  have hnamed := Option.some.inj hnamed
  have hlast := walk_last hnamed
  have hslash : slash ∉ new := by
    rcases hlast with ⟨hnil, -⟩ | ⟨l', x, e, hseg, -, hc⟩
    · rw [resolve, hnil] at hnew
      exact absurd hnew (by simp)
    · have hx : slash ∉ x := not_mem_of_mem_segments (by rw [hseg]; exact List.mem_append_right _ List.mem_cons_self)
      obtain ⟨-, hname⟩ := childOf_eq_some hc
      rw [nameOf_renamed, if_pos rfl] at hname
      rwa [Option.some.inj hname]
  have hsegs := resolve_new hnew hslash
  rw [resolve_setNode, hsegs, walk_singleton] at hnamed
  have hn : n ∈ kids σ.root := (childOf_eq_some hnamed).1
  obtain ⟨nd', hnd', hpar⟩ := h.kid_live hn
  obtain rfl := Option.some.inj (hnd.symm.trans hnd')
  refine ⟨hslash, nd, hnd, hpar, fun m md hm hmpar hname => ?_⟩
  by_contra hne
  obtain ⟨rd, hrd, -⟩ := h.root
  have hmem : m ∈ kids σ.root := h.listed m md _ rd hm hmpar hrd
  have hgone := hlaw.gone
  rw [h'.tmpfsWalkPath_eq holdLen, resolve_setNode, h.segments_rootChild hold hn hnd, walk_singleton] at hgone
  exact childOf_renamed_ne_none hmem hne (by rw [nameOf_of_heap hm, hname]) (Option.some.inj hgone)

end TmpfsTree

open TmpfsTree

variable {s : TreeState}

/-- **A rename moves the node** exactly when the new path is a name and the old one leads to the
only child of the root with its name. -/
theorem rename_moves (grant : ℕ → Bool) (calls : List TreeCall) (hrun : treeRun calls (.init grant) = some s)
    (hm : s.mounted = true) (old new : CString) (n : ℕ) (hold : s.tree.tmpfsWalkPath old = some (some n))
    (hnew : s.tree.tmpfsWalkPath new = some none) :
    ∃ σ', s.tree.tmpfsOpRename old new = some (0, σ') ∧ (RenameLaw s.tree σ' old new n ↔ RenameFits s.tree n new) := by
  obtain ⟨kids, h⟩ := treeRun_ok (TreeState.ok_init grant) hrun hm
  obtain ⟨holdLen, hold⟩ := h.tmpfsWalkPath_eq_some hold
  obtain ⟨hnewLen, hnew⟩ := h.tmpfsWalkPath_eq_some hnew
  obtain ⟨nd, hnd⟩ := h.resolve_live hold
  refine ⟨s.tree.setNode n { nd with name := new }, ?_, fun hlaw => h.renameFits hnd hold hnew holdLen hnewLen hlaw,
    fun hfits => h.renameLaw hnd hold hnew holdLen hnewLen hfits⟩
  rw [h.tmpfsOpRename_eq holdLen, hold, Option.elim_some, if_pos hnewLen, hnd, Option.map_some]

/-- The file name `y`. -/
def nameY : CString := [⟨121, by decide⟩]

theorem rename_moves_one : ∃ s σ', treeRun [.create nameX] (.init fun _ => true) = some s ∧
    s.tree.tmpfsOpRename nameX nameY = some (0, σ') ∧ RenameLaw s.tree σ' nameX nameY 1 := by
  have hrun : treeRun [.create nameX] (.init fun _ => true) = some _ := rfl
  obtain ⟨σ', hop, hiff⟩ := rename_moves (fun _ => true) [.create nameX] hrun rfl nameX nameY 1 (by
    rw [tmpfsWalkPath, if_neg (by decide), if_neg (by decide), tmpfsWalkFrom]
    rfl) (by
    rw [tmpfsWalkPath, if_neg (by decide), if_neg (by decide), tmpfsWalkFrom]
    rfl)
  refine ⟨_, σ', hrun, hop, hiff.2 ⟨by decide, _, rfl, rfl, fun m md hmd hpar _ => ?_⟩⟩
  obtain ⟨kids, h⟩ := treeRun_ok (TreeState.ok_init _) hrun rfl
  have hlt : m < 2 := h.bound m md hmd
  interval_cases m
  · obtain rfl := Option.some.inj hmd
    exact absurd hpar (by decide)
  · rfl

/-- The name `/y`, as `vfs_rename` passes it below a mount point without a slash at its end, is not
found: the node is called `/y`. -/
theorem not_rename_moves : ¬ ∀ (grant : ℕ → Bool) (calls : List TreeCall) (s : TreeState), treeRun calls (.init grant) = some s →
    s.mounted = true → ∀ (old new : CString) (n parent : ℕ) (pd : TmpfsNode) (σ' : TmpfsTree),
    s.tree.tmpfsWalkPath old = some (some n) → s.tree.tmpfsWalkPath new = some none →
    s.tree.tmpfsWalkPath (dirPath new) = some (some parent) → s.tree.heap parent = some pd → pd.type = .dir →
    s.tree.tmpfsOpRename old new = some (0, σ') → RenameLaw s.tree σ' old new n := by
  intro hall
  obtain ⟨s, hrun, hm, hold, hnew, hdir, hrd, ⟨nd, hnd⟩⟩ : ∃ s, treeRun [.create nameX] (.init fun _ => true) = some s ∧
      s.mounted = true ∧ s.tree.tmpfsWalkPath nameX = some (some 1) ∧ s.tree.tmpfsWalkPath (slash :: nameY) = some none ∧
      s.tree.tmpfsWalkPath (dirPath (slash :: nameY)) = some (some 0) ∧ (∃ rd, s.tree.heap 0 = some rd ∧ rd.type = .dir) ∧
      ∃ nd, s.tree.heap 1 = some nd := by
    refine ⟨_, rfl, rfl, ?_, ?_, rfl, ⟨_, rfl, rfl⟩, ⟨_, rfl⟩⟩
    · rw [tmpfsWalkPath, if_neg (by decide), if_neg (by decide), tmpfsWalkFrom]
      rfl
    · rw [tmpfsWalkPath, if_neg (by decide), if_neg (by decide), tmpfsWalkFrom]
      rfl
  obtain ⟨kids, h⟩ := treeRun_ok (TreeState.ok_init _) hrun hm
  obtain ⟨rd, hrd, hrdType⟩ := hrd
  have hold' := (h.tmpfsWalkPath_eq_some hold).2
  have hlaw := hall _ _ s hrun hm nameX (slash :: nameY) 1 0 rd _ hold hnew hdir hrd hrdType (by
    rw [h.tmpfsOpRename_eq (by decide), hold', Option.elim_some, if_pos (by decide), hnd, Option.map_some])
  exact (h.renameFits hnd hold' (h.tmpfsWalkPath_eq_some hnew).2 (by decide) (by decide) hlaw).1 List.mem_cons_self

end Flopperating
