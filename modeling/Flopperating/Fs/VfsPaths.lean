/-
# Paths into the file system

`vfs_create`, `vfs_mkdir`, `vfs_unlink`, `vfs_rmdir`, `vfs_unmount`, `vfs_open` and
`vfs_readdir_path` of `src/fs/vfs/vfs.c` on mounts of `tmpflopfs`, with every write to an array
of characters.  A path of the system calls comes as it is.  All but the last two copy it to a
`filename` of 256 characters, and the walk of `tmpflopfs` copies what is behind the mount point
to `tmp`, and none of them looks how long it is: a longer path is not rejected but written past
the end, and a shorter one nowhere (`paths_inside_iff`).

The relative path that `vfs_get_mountpoint_for_create` returns points into its `filename`; here
the file system still finds there what has been copied.
-/

import Flopperating.Fs.PathBuffers
import Flopperating.Fs.Vfs

namespace Flopperating

open BoundedBuffer

/-- The file system, and the tree that the `data_pointer` of each mountpoint leads to. -/
structure PathWorld where
  vfs : Vfs
  tree : ℕ → TmpfsTree

namespace PathWorld

open PathBuffers

/-- `vfs_get_mountpoint_for_create`: the mountpoint and the relative path. -/
def vfsGetMountpointForCreate (name : CString) (w : PathWorld) : PathM (Option (ℕ × CString) × PathWorld) :=
  flopstrcopy .filename name (flopstrlen name + 1) >>= fun filename =>
    deref (w.vfs.vfsFileToMountpoint (textOf filename)) >>= fun found =>
      match found with
      | none => .ok (none, w)
      | some i =>
        deref (w.vfs.mp? i) >>= fun mp =>
          deref (w.vfs.mpInc i) >>= fun σ =>
            .ok (some (i, (textOf filename).drop (flopstrlen mp.mountPoint.2)), { w with vfs := σ })

/-- What `vfs_create`, `vfs_unlink`, `vfs_mkdir` and `vfs_rmdir` have in common: an operation on the
tree, with the mountpoint held. -/
def vfsPathOp (op : CString → TmpfsTree → PathM (ℤ × TmpfsTree)) (name : CString) (w : PathWorld) :
    PathM (ℤ × PathWorld) :=
  vfsGetMountpointForCreate name w >>= fun o =>
    match o with
    | (none, w) => .ok (-1, w)
    | (some (i, relativePath), w) =>
      op relativePath (w.tree i) >>= fun o =>
        deref (w.vfs.mpPut i) >>= fun σ => .ok (o.1, ⟨σ, Function.update w.tree i o.2⟩)

/-- `vfs_create`. -/
def vfsCreate (name : CString) (w : PathWorld) : PathM (ℤ × PathWorld) := vfsPathOp tmpfsOpCreate name w

/-- `vfs_unlink`. -/
def vfsUnlink (path : CString) (w : PathWorld) : PathM (ℤ × PathWorld) := vfsPathOp tmpfsOpUnlink path w

/-- `vfs_mkdir`. -/
def vfsMkdir (path : CString) (mode : ℕ) (w : PathWorld) : PathM (ℤ × PathWorld) :=
  vfsPathOp (fun name σ => tmpfsOpMkdir name mode σ) path w

/-- `vfs_rmdir`; `tmpflopfs` has no such operation. -/
def vfsRmdir (path : CString) (w : PathWorld) : PathM (ℤ × PathWorld) := vfsPathOp (fun _ σ => .ok (-1, σ)) path w

/-- `vfs_unmount`, with `tmpfs_op_unmount`. -/
def vfsUnmount (mountPoint : CString) (w : PathWorld) : PathM (ℤ × PathWorld) :=
  flopstrcopy .filename mountPoint (flopstrlen mountPoint + 1) >>= fun filename =>
    deref (Vfs.findFrom (fun mp => flopstrcmp mp.mountPoint.2 (textOf filename) = 0) (w.vfs.fresh + 1) w.vfs.tail w.vfs)
      >>= fun found =>
        match found with
        | none => .ok (-1, w)
        | some i =>
          deref (w.vfs.vfsRemoveMountpoint i) >>= fun σ =>
            let root := (w.tree i).root
            .ok (0, ⟨σ, Function.update w.tree i { w.tree i with heap := Function.update (w.tree i).heap root none }⟩)

/-- `vfs_open`, with `tmpfs_op_open`. -/
def vfsOpen (name : CString) (mode : ℕ) (w : PathWorld) : PathM (Option ℕ × PathWorld) :=
  deref (w.vfs.vfsResolveMountpointAndPath name) >>= fun o =>
    match o with
    | (none, σ) => .ok (none, { w with vfs := σ })
    | (some i, σ) =>
      deref (σ.vfsNodeAlloc i mode) >>= fun o =>
        match o with
        | (none, σ) => .ok (none, { w with vfs := σ })
        | (some n, σ) =>
          deref (σ.mp? i) >>= fun mp =>
            let relativePath := name.drop (flopstrlen mp.mountPoint.2)
            tmpfsWalkPath relativePath (w.tree i) >>= fun found =>
              if found.isSome then deref (σ.vfsSeekIfAppend n) >>= fun σ => .ok (some n, { w with vfs := σ })
              else
                (if mode &&& 4 ≠ 4 then .ok (0, w.tree i) else tmpfsOpCreate relativePath (w.tree i)) >>= fun created =>
                  (if created.1 = 0 then tmpfsWalkPath relativePath created.2 else .ok none) >>= fun found =>
                    let w : PathWorld := { w with tree := Function.update w.tree i created.2 }
                    if found.isSome then deref (σ.vfsSeekIfAppend n) >>= fun σ => .ok (some n, { w with vfs := σ })
                    else deref ((σ.mpPut i).bind (·.kfree n)) >>= fun σ => .ok (none, { w with vfs := σ })

/-- `vfs_readdir_path`. -/
def vfsReaddirPath (path : CString) (w : PathWorld) : PathM (Option (List (CString × TmpfsNodeType)) × PathWorld) :=
  deref (w.vfs.vfsFileToMountpoint path) >>= fun found =>
    match found with
    | none => .ok (none, w)
    | some i =>
      deref (w.vfs.mp? i) >>= fun mp =>
        tmpfsOpListdir (path.drop (flopstrlen mp.mountPoint.2)) (w.tree i) >>= fun o =>
          .ok (o.1, { w with tree := Function.update w.tree i o.2 })

end PathWorld

/-! ### Runs -/

/-- A call with a path. -/
inductive PathCall
  | create (name : CString)
  | unlink (path : CString)
  | mkdir (path : CString) (mode : ℕ)
  | rmdir (path : CString)
  | unmount (mountPoint : CString)
  | vopen (name : CString) (mode : ℕ)
  | readdir (path : CString)

/-- One call. -/
def PathCall.step : PathCall → PathWorld → PathM PathWorld
  | create name, w => (w.vfsCreate name).map (·.2)
  | unlink path, w => (w.vfsUnlink path).map (·.2)
  | mkdir path mode, w => (w.vfsMkdir path mode).map (·.2)
  | rmdir path, w => (w.vfsRmdir path).map (·.2)
  | unmount mountPoint, w => (w.vfsUnmount mountPoint).map (·.2)
  | vopen name mode, w => (w.vfsOpen name mode).map (·.2)
  | readdir path, w => (w.vfsReaddirPath path).map (·.2)

/-- Calls one after the other. -/
def pathRun : List PathCall → PathWorld → PathM PathWorld
  | [], w => .ok w
  | c :: calls, w => c.step w >>= pathRun calls

/-- The path is shorter than the array that it is copied to first; of `vfs_open` and
`vfs_readdir_path` the part behind the mount point, if they get as far. -/
def PathCall.Fits : PathCall → PathWorld → Prop
  | create path, _ | unlink path, _ | mkdir path _, _ | rmdir path, _ | unmount path, _ =>
    flopstrlen path < vfsMaxFileName
  | vopen path mode, w => ∀ i σ n σ' mp, w.vfs.vfsResolveMountpointAndPath path = some (some i, σ) →
      σ.vfsNodeAlloc i mode = some (some n, σ') → σ'.mp? i = some mp →
        flopstrlen path - flopstrlen mp.mountPoint.2 < vfsMaxFileName
  | readdir path, w => ∀ i mp, w.vfs.vfsFileToMountpoint path = some (some i) → w.vfs.mp? i = some mp →
      flopstrlen path - flopstrlen mp.mountPoint.2 < vfsMaxFileName

/-- Every path of a run fits. -/
def PathsFit : List PathCall → PathWorld → Prop
  | [], _ => True
  | c :: calls, w => c.Fits w ∧ ∀ w', c.step w = .ok w' → PathsFit calls w'

namespace PathWorld

open PathBuffers

/-- The names of all nodes fit. -/
def Names (w : PathWorld) : Prop := ∀ i, NamesFit (w.tree i)

variable {w w' : PathWorld} {name path : CString} {mode i : ℕ} {op : CString → TmpfsTree → PathM (ℤ × TmpfsTree)} {r : ℤ}

/-! ### One call -/

theorem vfsGetMountpointForCreate_overrun (h : vfsMaxFileName ≤ flopstrlen name) :
    vfsGetMountpointForCreate name w = .error (.overrun .filename) := by
  rw [vfsGetMountpointForCreate, flopstrcopy_of_le h, error_bind]

theorem inside_vfsGetMountpointForCreate (h : flopstrlen name < vfsMaxFileName) :
    Inside (vfsGetMountpointForCreate name w) := by
  refine (inside_flopstrcopy h).bind fun filename _ => (inside_deref _).bind fun found _ => ?_
  cases found with
  | none => exact inside_ok _
  | some i => exact (inside_deref _).bind fun mp _ => (inside_deref _).bind fun σ _ => inside_ok _

/-- The relative path is no longer than the path, and the trees stay. -/
theorem vfsGetMountpointForCreate_spec (h : flopstrlen name < vfsMaxFileName) {o : Option (ℕ × CString)}
    (hrun : vfsGetMountpointForCreate name w = .ok (o, w')) :
    w'.tree = w.tree ∧ ∀ i relativePath, o = some (i, relativePath) → flopstrlen relativePath < vfsMaxFileName := by
  rw [vfsGetMountpointForCreate, flopstrcopy_of_lt h, ok_bind, textOf_copied] at hrun
  obtain ⟨found, -, hrun⟩ := bind_eq_ok hrun
  cases found with
  | none =>
    obtain ⟨rfl, rfl⟩ := Prod.mk.inj (Except.ok.inj hrun)
    exact ⟨rfl, fun i relativePath h => nomatch h⟩
  | some i =>
    obtain ⟨mp, -, hrun⟩ := bind_eq_ok hrun
    obtain ⟨σ, -, hrun⟩ := bind_eq_ok hrun
    obtain ⟨rfl, rfl⟩ := Prod.mk.inj (Except.ok.inj hrun)
    refine ⟨rfl, fun i relativePath h => ?_⟩
    obtain ⟨-, rfl⟩ := Prod.mk.inj (Option.some.inj h)
    unfold flopstrlen at *
    rw [List.length_drop]
    omega

/-- **An operation on a path** is inside exactly when `filename` holds the path. -/
theorem inside_vfsPathOp_iff (hop : ∀ name σ, flopstrlen name < vfsMaxFileName → Inside (op name σ)) :
    Inside (vfsPathOp op path w) ↔ flopstrlen path < vfsMaxFileName := by
  constructor
  · intro h
    by_contra hlong
    refine h .filename ?_
    rw [vfsPathOp, vfsGetMountpointForCreate_overrun (Nat.le_of_not_lt hlong), error_bind]
  · intro hfits
    refine (inside_vfsGetMountpointForCreate hfits).bind fun o ho => ?_
    obtain ⟨o, w₁⟩ := o
    cases o with
    | none => exact inside_ok _
    | some o =>
      obtain ⟨i, relativePath⟩ := o
      have hrelative := (vfsGetMountpointForCreate_spec hfits ho).2 i relativePath rfl
      exact (hop relativePath _ hrelative).bind fun o _ => (inside_deref _).bind fun σ _ => inside_ok _

theorem Names.update (h : w.Names) {t : TmpfsTree} (ht : NamesFit t) : ∀ j, NamesFit (Function.update w.tree i t j) := by
  intro j
  by_cases hj : j = i
  · rw [hj, Function.update_self]
    exact ht
  · rw [Function.update_of_ne hj]
    exact h j

theorem Names.vfsPathOp (h : w.Names) (hfits : flopstrlen path < vfsMaxFileName)
    (hop : ∀ name σ r σ', flopstrlen name < vfsMaxFileName → NamesFit σ → op name σ = .ok (r, σ') → NamesFit σ')
    (hrun : vfsPathOp op path w = .ok (r, w')) : w'.Names := by
  obtain ⟨⟨o, w₁⟩, hget, hrun⟩ := bind_eq_ok hrun
  obtain ⟨htree, hrelative⟩ := vfsGetMountpointForCreate_spec hfits hget
  have h₁ : w₁.Names := fun i => by
    rw [htree]
    exact h i
  cases o with
  | none =>
    obtain ⟨-, rfl⟩ := Prod.mk.inj (Except.ok.inj hrun)
    exact h₁
  | some o =>
    obtain ⟨i, relativePath⟩ := o
    obtain ⟨⟨r', t⟩, hopr, hrun⟩ := bind_eq_ok hrun
    obtain ⟨σ, -, hrun⟩ := bind_eq_ok hrun
    obtain ⟨-, rfl⟩ := Prod.mk.inj (Except.ok.inj hrun)
    exact h₁.update (hop _ _ _ _ (hrelative i relativePath rfl) (h₁ i) hopr)

theorem inside_vfsUnmount_iff : Inside (vfsUnmount path w) ↔ flopstrlen path < vfsMaxFileName := by
  constructor
  · intro h
    by_contra hlong
    refine h .filename ?_
    rw [vfsUnmount, flopstrcopy_of_le (Nat.le_of_not_lt hlong), error_bind]
  · intro hfits
    refine (inside_flopstrcopy hfits).bind fun filename _ => (inside_deref _).bind fun found _ => ?_
    cases found with
    | none => exact inside_ok _
    | some i => exact (inside_deref _).bind fun σ _ => inside_ok _

theorem Names.vfsUnmount (h : w.Names) (hrun : vfsUnmount path w = .ok (r, w')) : w'.Names := by
  obtain ⟨filename, -, hrun⟩ := bind_eq_ok hrun
  obtain ⟨found, -, hrun⟩ := bind_eq_ok hrun
  cases found with
  | none =>
    obtain ⟨-, rfl⟩ := Prod.mk.inj (Except.ok.inj hrun)
    exact h
  | some i =>
    obtain ⟨σ, -, hrun⟩ := bind_eq_ok hrun
    obtain ⟨-, rfl⟩ := Prod.mk.inj (Except.ok.inj hrun)
    have herased : NamesFit { w.tree i with heap := Function.update (w.tree i).heap (w.tree i).root none } := (h i).erase
    exact h.update herased

theorem length_drop_lt {m : ℕ} (h : flopstrlen path - m < vfsMaxFileName) : flopstrlen (path.drop m) < vfsMaxFileName := by
  unfold flopstrlen at *
  rwa [List.length_drop]

theorem inside_vfsOpen_iff : Inside (vfsOpen path mode w) ↔ (PathCall.vopen path mode).Fits w := by
  constructor
  · intro h i σ n σ' mp hresolve halloc hmp
    by_contra hlong
    refine h .tmp ?_
    have hrest : vfsMaxFileName ≤ flopstrlen (path.drop (flopstrlen mp.mountPoint.2)) := by
      unfold flopstrlen at *
      rw [List.length_drop]
      omega
    rw [vfsOpen, hresolve]
    change (deref (σ.vfsNodeAlloc i mode) >>= _) = _
    rw [halloc]
    change (deref (σ'.mp? i) >>= _) = _
    rw [hmp]
    change (tmpfsWalkPath (path.drop (flopstrlen mp.mountPoint.2)) (w.tree i) >>= _) = _
    rw [tmpfsWalkPath_overrun hrest, error_bind]
  · intro hfits
    refine (inside_deref _).bind fun o ho => ?_
    obtain ⟨o, σ⟩ := o
    cases o with
    | none => exact inside_ok _
    | some i =>
      refine (inside_deref _).bind fun o halloc => ?_
      obtain ⟨o, σ'⟩ := o
      cases o with
      | none => exact inside_ok _
      | some n =>
        refine (inside_deref _).bind fun mp hmp => ?_
        have hshort := length_drop_lt (hfits i σ n σ' mp (deref_eq_ok ho) (deref_eq_ok halloc) (deref_eq_ok hmp))
        refine (inside_tmpfsWalkPath hshort).bind fun found _ => ?_
        split
        · exact (inside_deref _).bind fun σ _ => inside_ok _
        · refine Inside.bind ?_ fun created _ => Inside.bind ?_ fun found _ => ?_
          · split
            · exact inside_ok _
            · exact inside_tmpfsAdd hshort
          · split
            · exact inside_tmpfsWalkPath hshort
            · exact inside_ok _
          · dsimp only
            split
            · exact (inside_deref _).bind fun σ _ => inside_ok _
            · exact (inside_deref _).bind fun σ _ => inside_ok _

theorem Names.vfsOpen (h : w.Names) {o : Option ℕ} (hfits : (PathCall.vopen path mode).Fits w)
    (hrun : vfsOpen path mode w = .ok (o, w')) : w'.Names := by
  obtain ⟨⟨found, σ⟩, hresolve, hrun⟩ := bind_eq_ok hrun
  cases found with
  | none =>
    obtain ⟨-, rfl⟩ := Prod.mk.inj (Except.ok.inj hrun)
    exact h
  | some i =>
    obtain ⟨⟨made, σ'⟩, halloc, hrun⟩ := bind_eq_ok hrun
    cases made with
    | none =>
      obtain ⟨-, rfl⟩ := Prod.mk.inj (Except.ok.inj hrun)
      exact h
    | some n =>
      obtain ⟨mp, hmp, hrun⟩ := bind_eq_ok hrun
      have hshort := length_drop_lt
        (hfits i σ n σ' mp (deref_eq_ok hresolve) (deref_eq_ok halloc) (deref_eq_ok hmp))
      obtain ⟨found, -, hrun⟩ := bind_eq_ok hrun
      split at hrun
      · obtain ⟨σ₁, -, hrun⟩ := bind_eq_ok hrun
        obtain ⟨-, rfl⟩ := Prod.mk.inj (Except.ok.inj hrun)
        exact h
      · obtain ⟨⟨r, t⟩, hcreate, hrun⟩ := bind_eq_ok hrun
        have ht : NamesFit t := by
          split at hcreate
          · obtain ⟨-, rfl⟩ := Prod.mk.inj (Except.ok.inj hcreate)
            exact h i
          · exact namesFit_of_tmpfsAdd (h i) hshort hcreate
        obtain ⟨found, -, hrun⟩ := bind_eq_ok hrun
        dsimp only at hrun
        split at hrun
        · obtain ⟨σ₁, -, hrun⟩ := bind_eq_ok hrun
          obtain ⟨-, rfl⟩ := Prod.mk.inj (Except.ok.inj hrun)
          exact h.update ht
        · obtain ⟨σ₁, -, hrun⟩ := bind_eq_ok hrun
          obtain ⟨-, rfl⟩ := Prod.mk.inj (Except.ok.inj hrun)
          exact h.update ht

theorem inside_vfsReaddirPath_iff (h : w.Names) : Inside (vfsReaddirPath path w) ↔ (PathCall.readdir path).Fits w := by
  constructor
  · intro hin i mp hfound hmp
    by_contra hlong
    refine hin .tmp ?_
    have hrest : vfsMaxFileName ≤ flopstrlen (path.drop (flopstrlen mp.mountPoint.2)) := by
      unfold flopstrlen at *
      rw [List.length_drop]
      omega
    rw [vfsReaddirPath, hfound]
    change (deref (w.vfs.mp? i) >>= _) = _
    rw [hmp]
    change (tmpfsOpListdir (path.drop (flopstrlen mp.mountPoint.2)) (w.tree i) >>= _) = _
    rw [tmpfsOpListdir, tmpfsWalkPath_overrun hrest]
    rfl
  · intro hfits
    refine (inside_deref _).bind fun found hfound => ?_
    cases found with
    | none => exact inside_ok _
    | some i =>
      refine (inside_deref _).bind fun mp hmp => ?_
      have hshort := length_drop_lt (hfits i mp (deref_eq_ok hfound) (deref_eq_ok hmp))
      exact (inside_tmpfsOpListdir (h i) hshort).bind fun o _ => inside_ok _

theorem Names.vfsReaddirPath (h : w.Names) {o : Option (List (CString × TmpfsNodeType))}
    (hrun : vfsReaddirPath path w = .ok (o, w')) : w'.Names := by
  obtain ⟨found, -, hrun⟩ := bind_eq_ok hrun
  cases found with
  | none =>
    obtain ⟨-, rfl⟩ := Prod.mk.inj (Except.ok.inj hrun)
    exact h
  | some i =>
    obtain ⟨mp, -, hrun⟩ := bind_eq_ok hrun
    obtain ⟨⟨entries, t⟩, hlist, hrun⟩ := bind_eq_ok hrun
    obtain ⟨-, rfl⟩ := Prod.mk.inj (Except.ok.inj hrun)
    exact h.update ((h i).tmpfsOpListdir hlist)

end PathWorld

/-! ### Any calls, one after the other -/

section Runs

open PathBuffers

variable {w w' : PathWorld} {calls : List PathCall} {c : PathCall}

/-- **One call** writes inside the arrays exactly when its path fits. -/
theorem PathCall.inside_step_iff (c : PathCall) (h : w.Names) : Inside (c.step w) ↔ c.Fits w := by
  cases c with
  | create path =>
    exact inside_map_iff.trans (PathWorld.inside_vfsPathOp_iff fun _ _ hname => inside_tmpfsAdd hname)
  | unlink path =>
    exact inside_map_iff.trans (PathWorld.inside_vfsPathOp_iff fun _ _ hname => inside_tmpfsOpUnlink hname)
  | mkdir path mode =>
    exact inside_map_iff.trans (PathWorld.inside_vfsPathOp_iff fun _ _ hname => inside_tmpfsAdd hname)
  | rmdir path =>
    exact inside_map_iff.trans (PathWorld.inside_vfsPathOp_iff fun _ _ _ => inside_ok _)
  | unmount path => exact inside_map_iff.trans PathWorld.inside_vfsUnmount_iff
  | vopen path mode => exact inside_map_iff.trans PathWorld.inside_vfsOpen_iff
  | readdir path => exact inside_map_iff.trans (PathWorld.inside_vfsReaddirPath_iff h)

/-- A call with a path that fits leaves names that fit. -/
theorem PathCall.names_step (h : w.Names) (hfits : c.Fits w) (hrun : c.step w = .ok w') : w'.Names := by
  cases c with
  | create path =>
    obtain ⟨o, hcall, rfl⟩ := map_eq_ok hrun
    exact h.vfsPathOp hfits (fun _ _ _ _ hname hnames hop => namesFit_of_tmpfsAdd hnames hname hop) hcall
  | unlink path =>
    obtain ⟨o, hcall, rfl⟩ := map_eq_ok hrun
    exact h.vfsPathOp hfits (fun _ _ _ _ _ hnames hop => namesFit_of_tmpfsOpUnlink hnames hop) hcall
  | mkdir path mode =>
    obtain ⟨o, hcall, rfl⟩ := map_eq_ok hrun
    exact h.vfsPathOp hfits (fun _ _ _ _ hname hnames hop => namesFit_of_tmpfsAdd hnames hname hop) hcall
  | rmdir path =>
    obtain ⟨o, hcall, rfl⟩ := map_eq_ok hrun
    refine h.vfsPathOp hfits (fun _ σ _ σ' _ hnames hop => ?_) hcall
    obtain ⟨-, rfl⟩ := Prod.mk.inj (Except.ok.inj hop)
    exact hnames
  | unmount path =>
    obtain ⟨o, hcall, rfl⟩ := map_eq_ok hrun
    exact h.vfsUnmount hcall
  | vopen path mode =>
    obtain ⟨o, hcall, rfl⟩ := map_eq_ok hrun
    exact h.vfsOpen hfits hcall
  | readdir path =>
    obtain ⟨o, hcall, rfl⟩ := map_eq_ok hrun
    exact h.vfsReaddirPath hcall

/-- **Path buffers are overrun exactly by the paths that do not fit**, in any run of calls, from
any state in which the names of the nodes fit. -/
theorem paths_inside_iff (calls : List PathCall) (h : w.Names) : Inside (pathRun calls w) ↔ PathsFit calls w := by
  induction calls generalizing w with
  | nil => exact iff_of_true (inside_ok _) trivial
  | cons c calls ih =>
    constructor
    · intro hin
      have hstep : Inside (c.step w) := fun b herror => hin b (by rw [pathRun, herror, error_bind])
      have hfits := (c.inside_step_iff h).1 hstep
      refine ⟨hfits, fun w' hrun => (ih (PathCall.names_step h hfits hrun)).1 fun b herror => hin b ?_⟩
      rw [pathRun, hrun, ok_bind, herror]
    · rintro ⟨hfits, hrest⟩
      exact ((c.inside_step_iff h).2 hfits).bind fun w' hrun => (ih (PathCall.names_step h hfits hrun)).2 (hrest w' hrun)

/-- The operations of `tmpflopfs` that there are; what they do is in the trees. -/
def tmpflopfs : VfsFs where
  opTable := ⟨some fun _ => true, some fun _ => 0, some some, some fun _ => 0, some fun _ => 0, some fun _ => 0,
    some fun _ => 0, none, some fun _ => 0, none⟩
  filesystemType := 1

/-- A tree has been mounted, under the empty path. -/
def mountedWorld : PathWorld where
  vfs := { Vfs.init [tmpflopfs] (fun _ => true) with
    head := some 0
    tail := some 0
    heap := fun i => if i = 0 then some (.mountpoint ⟨tmpflopfs, none, (1, []), (2, []), some 0, 2⟩) else some .text
    fresh := 3 }
  tree _ := .mount fun _ => true

theorem paths_inside_iff_mounted : Inside (pathRun [.create [slash]] mountedWorld) ↔ PathsFit [.create [slash]] mountedWorld :=
  paths_inside_iff _ fun _ => namesFit_mount _

/-- 256 characters, and a `NUL` behind them. -/
theorem not_paths_inside : ¬ ∀ (w : PathWorld) (calls : List PathCall), w.Names → Inside (pathRun calls w) := by
  intro hall
  have hin := hall mountedWorld [.create (List.replicate 256 slash)] fun _ => namesFit_mount _
  refine hin .filename ?_
  have hlong : vfsMaxFileName ≤ flopstrlen (List.replicate 256 slash) := (List.length_replicate).ge
  rw [pathRun, PathCall.step, PathWorld.vfsCreate, PathWorld.vfsPathOp,
    PathWorld.vfsGetMountpointForCreate_overrun hlong]
  rfl

end Runs

end Flopperating
