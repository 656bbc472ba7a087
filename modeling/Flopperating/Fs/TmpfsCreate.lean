/-
# Creating and looking up

`tmpfs_op_create` and `tmpfs_op_mkdir` split a path at its last slash, `tmpfs_walk_path` cuts it at
every slash.  The two agree unless a file name stands directly behind two slashes
(`segments_relative`): the look-up then goes through a node with an empty name, which the
creating side leaves out.

A new node is put in front of its siblings, so a path that led somewhere before leads to the same
node unless its last name is created again at the same place, which needs such a path
(`create_agrees`).
-/

import Flopperating.Fs.TmpfsTreeInv

namespace Flopperating
namespace TmpfsTree

open NameTree

variable {σ σ' : TmpfsTree} {kids : ℕ → List ℕ} {m n parent : ℕ} {nd pd : TmpfsNode} {path name d f q : CString}

/-! ### The two ways to cut a path -/

theorem lastSlash_of_not_mem (h : slash ∉ name) (i : ℕ) (last : Option ℕ) : lastSlash name i last = last := by
  induction name generalizing i last with
  | nil => rfl
  | cons c name ih =>
    rw [List.mem_cons, not_or] at h
    rw [lastSlash, ih h.2, if_neg fun heq => h.1 heq.symm]

theorem lastSlash_append (h : slash ∉ f) (i : ℕ) (last : Option ℕ) :
    lastSlash (d ++ slash :: f) i last = some (i + d.length) := by
  induction d generalizing i last with
  | nil =>
    rw [List.nil_append, lastSlash, if_pos rfl, lastSlash_of_not_mem h]
    rfl
  | cons c d ih =>
    rw [List.cons_append, lastSlash, ih, List.length_cons]
    congr 1
    omega

theorem dirPath_of_not_mem (h : slash ∉ name) : dirPath name = [] := by
  rw [dirPath, lastSlash_of_not_mem h]
  rfl

theorem fileName_of_not_mem (h : slash ∉ name) : fileName name = name := by
  rw [fileName, lastSlash_of_not_mem h]
  rfl

theorem dirPath_append (h : slash ∉ f) : dirPath (d ++ slash :: f) = d := by
  rw [dirPath, lastSlash_append h, Option.elim_some, Nat.zero_add, List.take_left]

theorem fileName_append (h : slash ∉ f) : fileName (d ++ slash :: f) = f := by
  rw [fileName, lastSlash_append h, Option.elim_some, Nat.zero_add, ← List.drop_drop, List.drop_left]
  rfl

/-- A name has no slash, or a last one. -/
theorem last_slash_cases (name : CString) : slash ∉ name ∨ ∃ d f, name = d ++ slash :: f ∧ slash ∉ f := by
  induction name with
  | nil => exact .inl List.not_mem_nil
  | cons c name ih =>
    rcases ih with hnot | ⟨d, f, rfl, hf⟩
    · by_cases hc : c = slash
      · exact .inr ⟨[], name, by rw [hc]; rfl, hnot⟩
      · exact .inl fun hmem => (List.mem_cons.1 hmem).elim (fun heq => hc heq.symm) hnot
    · exact .inr ⟨c :: d, f, rfl, hf⟩

theorem length_dirPath (name : CString) : flopstrlen (dirPath name) ≤ flopstrlen name := by
  rcases last_slash_cases name with hnot | ⟨d, f, rfl, hf⟩
  · rw [dirPath_of_not_mem hnot]
    exact Nat.zero_le _
  · rw [dirPath_append hf, flopstrlen, flopstrlen, List.length_append]
    exact Nat.le_add_right _ _

theorem length_fileName (name : CString) : flopstrlen (fileName name) ≤ flopstrlen name := by
  rcases last_slash_cases name with hnot | ⟨d, f, rfl, hf⟩
  · rw [fileName_of_not_mem hnot]
  · rw [fileName_append hf, flopstrlen, flopstrlen, List.length_append, List.length_cons]
    omega

theorem relative_append (hd : d ≠ []) (t : CString) : relative (d ++ t) = relative d ++ t := by
  cases d with
  | nil => exact absurd rfl hd
  | cons c d =>
    rw [relative, relative, List.cons_append, List.head?_cons, List.head?_cons]
    split_ifs
    · rfl
    · rfl

theorem relative_of_not_mem (h : slash ∉ name) : relative name = name := by
  refine if_neg fun hhead => h ?_
  exact List.mem_of_mem_head? hhead

theorem getLast?_relative (hd : d ≠ []) : relative d = [] ∧ d.getLast? = some slash ∨
    relative d ≠ [] ∧ (relative d).getLast? = d.getLast? := by
  cases d with
  | nil => exact absurd rfl hd
  | cons c d =>
    by_cases hc : c = slash
    · have hrel : relative (c :: d) = d := if_pos (congrArg some hc)
      rw [hrel]
      cases d with
      | nil => exact .inl ⟨rfl, congrArg some hc⟩
      | cons b d => exact .inr ⟨List.cons_ne_nil _ _, rfl⟩
    · have hrel : relative (c :: d) = c :: d := if_neg fun heq => hc (Option.some.inj heq)
      rw [hrel]
      exact .inr ⟨List.cons_ne_nil _ _, rfl⟩

/-- A slash behind a directory adds an empty segment if the directory ends in one. -/
theorem segments_relative_snoc (hd : d ≠ []) : segments slash (relative d ++ [slash]) =
    segments slash (relative d) ++ if d.getLast? = some slash then [[]] else [] := by
  rcases getLast?_relative hd with ⟨hnil, hlast⟩ | ⟨hne, hlast⟩
  · rw [if_pos hlast]
    exact segments_snoc_sep (.inl hnil)
  · rw [← hlast]
    split_ifs with hslash
    · exact segments_snoc_sep (.inr hslash)
    · rw [segments_snoc hne hslash, List.append_nil]

theorem segments_fileName (hf : slash ∉ f) : segments slash f = if f = [] then [] else [f] := by
  split_ifs with hnil
  · rw [hnil, segments_nil]
  · exact segments_of_not_mem hnil hf

/-- **The segments of a path**, by its directory and its file name. -/
theorem segments_relative (name : CString) : segments slash (relative name) = segments slash (relative (dirPath name)) ++
    ((if (dirPath name).getLast? = some slash then [[]] else []) ++ if fileName name = [] then [] else [fileName name]) := by
  rcases last_slash_cases name with hnot | ⟨d, f, rfl, hf⟩
  · rw [dirPath_of_not_mem hnot, fileName_of_not_mem hnot, relative_of_not_mem hnot, segments_fileName hnot]
    rfl
  · rw [dirPath_append hf, fileName_append hf]
    by_cases hd : d = []
    · rw [hd]
      exact segments_fileName hf
    · rw [relative_append hd, segments_append, segments_relative_snoc hd, segments_fileName hf, List.append_assoc]

/-- The name stands directly behind two slashes. -/
def DoubledSlash (path : CString) : Prop := fileName path ≠ [] ∧ (dirPath path).getLast? = some slash

/-- What a path leads to, from what its directory leads to. -/
theorem resolve_of_dirPath (hr : σ.resolve kids (dirPath path) = some parent) :
    σ.resolve kids path = walk (σ.childOf kids)
      ((if (dirPath path).getLast? = some slash then [[]] else []) ++ if fileName path = [] then [] else [fileName path]) parent := by
  rw [resolve, segments_relative, walk_append]
  exact (congrArg (Option.bind · _) hr).trans (Option.bind_some ..)

/-! ### The law -/

/-- Creating `path` by `op` with a node of a type agrees with looking it up. -/
def CreateLaw (op : CString → TmpfsTree → Option (ℤ × TmpfsTree)) (type : TmpfsNodeType) (σ : TmpfsTree) (path : CString) : Prop :=
  (∀ σ', op path σ = some (0, σ') →
    (∃ nd, σ'.tmpfsWalkPath path = some (some σ.fresh) ∧ σ.heap σ.fresh = none ∧ σ'.heap σ.fresh = some nd ∧ nd.type = type) ∧
    ∀ q m, σ.tmpfsWalkPath q = some (some m) → σ'.tmpfsWalkPath q = some (some m)) ∧
  ∀ parent pd, σ.tmpfsWalkPath (dirPath path) = some (some parent) → σ.heap parent = some pd → pd.type = .dir →
    fileName path ≠ [] → ∃ σ', op path σ = some (0, σ')

/-- What the law needs of a path whose directory is there. -/
def CreateFits (σ : TmpfsTree) (path : CString) : Prop :=
  ∀ parent pd, σ.tmpfsWalkPath (dirPath path) = some (some parent) → σ.heap parent = some pd →
    if σ.grant σ.fresh then ¬ DoubledSlash path else pd.type ≠ .dir ∨ fileName path = []

/-- The rest of a path behind its directory is its file name, if it led nowhere and its look-up does
not go through an empty name. -/
theorem rest_of_fits (hr : σ.resolve kids (dirPath path) = some parent) (hnull : σ.resolve kids path = none)
    (hfit : ¬ DoubledSlash path) :
    (if (dirPath path).getLast? = some slash then [[]] else []) ++ (if fileName path = [] then [] else [fileName path]) =
      [fileName path] := by
  rw [resolve_of_dirPath hr] at hnull
  by_cases hf : fileName path = []
  · rw [if_pos hf, List.append_nil] at hnull ⊢
    split_ifs at hnull ⊢ with hends
    · rw [hf]
    · exact absurd hnull (by simp)
  · rw [if_neg hf, if_neg fun hends => hfit ⟨hf, hends⟩, List.nil_append]

section Insert

variable (type : TmpfsNodeType) (mode : ℕ)

/-- The new node is at the end of a path that led nowhere, and every other path leads where it
did. -/
theorem Inv.resolve_inserted (h : σ.Inv kids) (hpd : σ.heap parent = some pd) (hr : σ.resolve kids (dirPath path) = some parent)
    (hnull : σ.resolve kids path = none) (hfit : ¬ DoubledSlash path) :
    (σ.inserted type mode parent pd (fileName path)).resolve (σ.insertKid parent kids) path = some σ.fresh ∧
      ∀ q m, σ.resolve kids q = some m →
        (σ.inserted type mode parent pd (fileName path)).resolve (σ.insertKid parent kids) q = some m := by
  have hrest := rest_of_fits hr hnull hfit
  have hmiss : σ.childOf kids parent (fileName path) = none := by
    rw [resolve_of_dirPath hr, hrest, walk_singleton] at hnull
    exact hnull
  have hkeep : ∀ q m, σ.resolve kids q = some m →
      (σ.inserted type mode parent pd (fileName path)).resolve (σ.insertKid parent kids) q = some m := fun q m hq => by
    refine walk_congr (P := fun _ => True) (fun _ _ _ _ _ => trivial) (fun d x m _ hc => ?_) trivial hq
    rw [h.childOf_inserted hpd, if_neg, hc]
    rintro ⟨rfl, rfl⟩
    exact absurd (hmiss.symm.trans hc) (by simp)
  refine ⟨?_, hkeep⟩
  rw [resolve_of_dirPath (hkeep _ _ hr), hrest, walk_singleton, h.childOf_inserted hpd, if_pos ⟨rfl, rfl⟩]

/-- Behind two slashes the look-up misses the new node. -/
theorem Inv.resolve_inserted_doubled (h : σ.Inv kids) (hpd : σ.heap parent = some pd)
    (hr : σ.resolve kids (dirPath path) = some parent) (hnull : σ.resolve kids path = none) (hdoubled : DoubledSlash path) :
    (σ.inserted type mode parent pd (fileName path)).resolve (σ.insertKid parent kids) path = none := by
  have hdir : (σ.inserted type mode parent pd (fileName path)).resolve (σ.insertKid parent kids) (dirPath path) = some parent := by
    refine walk_congr_below h.childOf_lt (fun d x e hd hc => ?_) hr
    rw [h.childOf_inserted hpd, if_neg fun hboth => hd.ne hboth.1, hc]
  rw [resolve_of_dirPath hr, if_pos hdoubled.2, if_neg hdoubled.1, walk_append, walk_singleton] at hnull
  rw [resolve_of_dirPath hdir, if_pos hdoubled.2, if_neg hdoubled.1, walk_append, walk_singleton, h.childOf_inserted hpd,
    if_neg fun hboth => hdoubled.1 hboth.2.symm]
  cases hc : σ.childOf kids parent [] with
  | none => rfl
  | some e =>
    rw [hc, Option.bind_some, walk_singleton] at hnull
    rw [Option.bind_some, walk_singleton, h.childOf_inserted hpd, if_neg fun hboth => (h.childOf_lt _ _ _ hc).ne' hboth.1, hnull]

/-- The law of one creation. -/
theorem Inv.createLaw_iff (h : σ.Inv kids) (hlen : flopstrlen path < vfsMaxFileName) (hnull : σ.tmpfsWalkPath path = some none) :
    CreateLaw (tmpfsAdd type mode) type σ path ↔ CreateFits σ path := by
  have hdir := (length_dirPath path).trans_lt hlen
  have hadd : σ.tmpfsAdd type mode path = _ := h.tmpfsAdd_eq hdir ((length_fileName path).trans_lt hlen)
  have hwalk := h.tmpfsWalkPath_eq hdir
  have hnull := (h.tmpfsWalkPath_eq_some hnull).2
  cases hr : σ.resolve kids (dirPath path) with
  | none =>
    rw [hr] at hadd hwalk
    have hno : ∀ parent, σ.tmpfsWalkPath (dirPath path) ≠ some (some parent) := fun parent heq => by
      rw [hwalk] at heq
      exact absurd heq (by simp)
    refine iff_of_true ⟨fun σ' hop => ?_, fun parent pd hp => absurd hp (hno parent)⟩ fun parent pd hp => absurd hp (hno parent)
    rw [hadd] at hop
    exact absurd hop (by simp)
  | some parent =>
    obtain ⟨pd, hpd⟩ := h.resolve_live hr
    rw [hr, Option.elim_some, hpd, Option.map_some] at hadd
    rw [hr] at hwalk
    have hfits : CreateFits σ path ↔ if σ.grant σ.fresh then ¬ DoubledSlash path else pd.type ≠ .dir ∨ fileName path = [] := by
      refine ⟨fun hf => hf parent pd hwalk hpd, fun hf p d hp hd => ?_⟩
      obtain rfl := Option.some.inj (Option.some.inj (hwalk.symm.trans hp))
      obtain rfl := Option.some.inj (hpd.symm.trans hd)
      exact hf
    rw [hfits]
    split_ifs at hadd ⊢ with hgrant
    · have h' : (σ.inserted type mode parent pd (fileName path)).Inv _ := h.inserted hpd
      have hfound := h'.tmpfsWalkPath_eq hlen
      constructor
      · rintro ⟨hnew, -⟩ hdoubled
        obtain ⟨⟨nd, hwalk', -⟩, -⟩ := hnew _ hadd
        rw [hfound, h.resolve_inserted_doubled type mode hpd hr hnull hdoubled] at hwalk'
        exact absurd hwalk' (by simp)
      · intro hfit
        obtain ⟨hself, hkeep⟩ := h.resolve_inserted type mode hpd hr hnull hfit
        refine ⟨fun σ' hop => ?_, fun _ _ _ _ _ _ => ⟨_, hadd⟩⟩
        obtain rfl := (Prod.mk.inj (Option.some.inj (hadd.symm.trans hop))).2
        refine ⟨⟨_, by rw [hfound, hself], h.heap_fresh, heap_inserted_fresh (h.bound parent pd hpd).ne', rfl⟩, fun q m hq => ?_⟩
        obtain ⟨hqlen, hq⟩ := h.tmpfsWalkPath_eq_some hq
        rw [h'.tmpfsWalkPath_eq hqlen, hkeep q m hq]
    · constructor
      · rintro ⟨-, hback⟩
        by_contra hno
        rw [not_or, not_not] at hno
        obtain ⟨σ', hop⟩ := hback parent pd hwalk hpd hno.1 hno.2
        rw [hadd] at hop
        exact absurd hop (by simp)
      · intro hno
        refine ⟨fun σ' hop => ?_, fun p d hp hd hdirType hf => ?_⟩
        · rw [hadd] at hop
          exact absurd hop (by simp)
        · obtain rfl := Option.some.inj (Option.some.inj (hwalk.symm.trans hp))
          obtain rfl := Option.some.inj (hpd.symm.trans hd)
          exact absurd hno (by rw [not_or, not_not]; exact ⟨hdirType, hf⟩)

end Insert

end TmpfsTree

open TmpfsTree

variable {s : TreeState}

/-- **Creating a path that leads nowhere agrees with looking it up** exactly when no file name
stands directly behind two slashes (and, where there is no memory, nothing was to be created). -/
theorem create_agrees (grant : ℕ → Bool) (calls : List TreeCall) (hrun : treeRun calls (.init grant) = some s)
    (hm : s.mounted = true) (path : CString) (hlen : flopstrlen path < vfsMaxFileName)
    (hnull : s.tree.tmpfsWalkPath path = some none) (mode : ℕ) :
    (CreateLaw tmpfsOpCreate .file s.tree path ↔ CreateFits s.tree path) ∧
      (CreateLaw (tmpfsOpMkdir · mode) .dir s.tree path ↔ CreateFits s.tree path) := by
  obtain ⟨kids, h⟩ := treeRun_ok (TreeState.ok_init grant) hrun hm
  exact ⟨h.createLaw_iff .file 0o777 hlen hnull, h.createLaw_iff .dir mode hlen hnull⟩

/-- The file name `x`. -/
def nameX : CString := [⟨120, by decide⟩]

theorem create_agrees_one : CreateLaw tmpfsOpCreate .file (mount fun _ => true) nameX :=
  (create_agrees (fun _ => true) [] rfl rfl nameX (by decide) (by
    rw [tmpfsWalkPath, if_neg (by decide), if_neg (by decide), tmpfsWalkFrom]
    rfl) 0).1.2 fun _ _ _ _ hdoubled => absurd hdoubled.2 (by decide)

/-- The path `//x`. -/
def doubledX : CString := slash :: slash :: nameX

theorem not_create_agrees : ¬ ∀ (grant : ℕ → Bool) (calls : List TreeCall) (s : TreeState), treeRun calls (.init grant) = some s →
    s.mounted = true → ∀ path : CString, flopstrlen path < vfsMaxFileName → s.tree.tmpfsWalkPath path = some none →
    CreateLaw tmpfsOpCreate .file s.tree path := by
  intro hall
  have hnull : (mount fun _ => true).tmpfsWalkPath doubledX = some none := by
    rw [tmpfsWalkPath, if_neg (by decide), if_neg (by decide), tmpfsWalkFrom]
    rfl
  have hlaw := hall (fun _ => true) [] _ rfl rfl doubledX (by decide) hnull
  obtain ⟨⟨nd, hwalk, -⟩, -⟩ := hlaw.1 _ rfl
  rw [tmpfsWalkPath, if_neg (by decide), if_neg (by decide), tmpfsWalkFrom] at hwalk
  exact absurd hwalk (by decide)

end Flopperating
