/-
# The buffers that paths are copied to

`tmpfs_walk_path`, `tmpfs_node_internal_create` and the operations on names of
`src/fs/tmpflopfs/tmpflopfs.c` once more, with every write to an array of characters.  Such an
array has 256 characters, and is given with `flopstrcopy` a length that comes from the source;
so a path of 256 characters or more overruns `tmp` (`tmpfsWalkPath_overrun`), and a shorter one
nothing (`Inside`), and then the operations are those of `TmpfsTree` (`tmpfsWalkPath_toOption`).

| source | here |
| --- | --- |
| an array of characters, after what has been written to it | the list of them |
| a write past the end of array `b` | `PathFault.overrun b` |
| a pointer that leads to nothing is followed | `PathFault.badPointer` |
-/

import Flopperating.Data.BoundedBuffer
import Flopperating.Fs.TmpfsCreate

namespace Flopperating

/-- The arrays. -/
inductive PathBuffer
  | filename
  | tmp
  | dirPath
  | fileName
  | newDirName
  | nodeName
  | entryName
  deriving DecidableEq

inductive PathFault
  | overrun (b : PathBuffer)
  | badPointer
  deriving DecidableEq

/-- What writes to the arrays. -/
abbrev PathM : Type → Type := Except PathFault

namespace PathBuffers

open BoundedBuffer

/-- `flopstrcopy(b, src, len)`: what is in the array then. -/
def flopstrcopy (b : PathBuffer) (src : CString) (len : ℕ) : PathM (List UInt8) :=
  pushWhile vfsMaxFileName (len - 1) (.overrun b) [] (src.map Subtype.val) >>= fun a =>
    push vfsMaxFileName (.overrun b) a 0

/-- `flop_memcpy(b, src, n); b[n] = '\0'`. -/
def flopMemcpy (b : PathBuffer) (src : CString) (n : ℕ) : PathM (List UInt8) :=
  pushAll vfsMaxFileName (.overrun b) [] ((src.map Subtype.val).take n) >>= fun a =>
    push vfsMaxFileName (.overrun b) a 0

/-- The string in an array. -/
def textOf (a : List UInt8) : CString := .ofBytes (a.takeWhile (· ≠ 0))

/-- A pointer to what may not be there. -/
def deref {α : Type} (o : Option α) : PathM α := o.elim (.error .badPointer) .ok

/-! ### Paths -/

/-- The loop of `tmpfs_walk_path` over the segments, with the next one at position `pos` of `tmp`,
where the slash behind it is overwritten. -/
def tmpfsWalkFrom (pos : ℕ) (segment : CString) (curr : ℕ) (σ : TmpfsTree) : PathM (Option ℕ) :=
  if segment = [] then .ok (some curr)
  else if segment.dropWhile (· ≠ slash) ≠ [] ∧ pos + (segment.takeWhile (· ≠ slash)).length ≥ vfsMaxFileName then
    .error (.overrun .tmp)
  else
    deref ((σ.heap curr).bind fun nd =>
      TmpfsTree.findChild (segment.takeWhile (· ≠ slash)) (σ.fresh + 1) nd.children σ) >>= fun found =>
        match found with
        | none => .ok none
        | some child =>
          if segment.dropWhile (· ≠ slash) = [] then .ok (some child)
          else tmpfsWalkFrom (pos + (segment.takeWhile (· ≠ slash)).length + 1) (segment.dropWhile (· ≠ slash)).tail child σ
termination_by segment.length
decreasing_by
  have := TmpfsTree.length_dropWhile_slash segment
  have : 0 < (segment.dropWhile (· ≠ slash)).length := List.length_pos_iff.2 ‹_›
  rw [List.length_tail]
  omega

/-- `tmpfs_walk_path`, of the root. -/
def tmpfsWalkPath (path : CString) (σ : TmpfsTree) : PathM (Option ℕ) :=
  if path = [] ∨ path = [slash] then .ok (some σ.root)
  else
    flopstrcopy .tmp path (flopstrlen path + 1) >>= fun tmp =>
      if (textOf tmp).head? = some slash then tmpfsWalkFrom 1 (textOf tmp).tail σ.root σ
      else tmpfsWalkFrom 0 (textOf tmp) σ.root σ

/-- `tmpfs_node_internal_create`. -/
def tmpfsNodeInternalCreate (name : CString) (type : TmpfsNodeType) (σ : TmpfsTree) : PathM (Option ℕ × TmpfsTree) :=
  if σ.grant σ.fresh then
    flopstrcopy .nodeName name (flopstrlen name + 1) >>= fun a => .ok (some σ.fresh, { σ with
      heap := Function.update σ.heap σ.fresh (some ⟨textOf a, type, 0o777, [], none, none, none⟩), fresh := σ.fresh + 1 })
  else .ok (none, { σ with fresh := σ.fresh + 1 })

/-- The directory of a new node and its name, which goes to the array `b`. -/
def splitName (b : PathBuffer) (name : CString) (σ : TmpfsTree) : PathM (Option ℕ × CString) :=
  match TmpfsTree.lastSlash name 0 none with
  | some i =>
    flopMemcpy .dirPath name i >>= fun dir =>
      tmpfsWalkPath (textOf dir) σ >>= fun parent =>
        flopstrcopy b (name.drop (i + 1)) (flopstrlen (name.drop (i + 1)) + 1) >>= fun a => .ok (parent, textOf a)
  | none => flopstrcopy b name (flopstrlen name + 1) >>= fun a => .ok (some σ.root, textOf a)

/-- What `tmpfs_op_create` and `tmpfs_op_mkdir` have in common: a node of a type and a mode. -/
def tmpfsAdd (b : PathBuffer) (type : TmpfsNodeType) (mode : ℕ) (name : CString) (σ : TmpfsTree) :
    PathM (ℤ × TmpfsTree) :=
  splitName b name σ >>= fun o =>
    match o with
    | (none, _) => .ok (-1, σ)
    | (some parent, name) => tmpfsNodeInternalCreate name type σ >>= fun o =>
        match o with
        | (none, _) => .error .badPointer
        | (some n, σ) => deref ((σ.heap n).bind fun nd => (σ.heap parent).map fun pd =>
            (0, (σ.setNode n { nd with mode := mode, parent := some parent, nextSibling := pd.children }).setNode parent
              { pd with children := some n }))

/-- `tmpfs_op_create`. -/
def tmpfsOpCreate (name : CString) (σ : TmpfsTree) : PathM (ℤ × TmpfsTree) := tmpfsAdd .fileName .file 0o777 name σ

/-- `tmpfs_op_mkdir`. -/
def tmpfsOpMkdir (name : CString) (mode : ℕ) (σ : TmpfsTree) : PathM (ℤ × TmpfsTree) :=
  tmpfsAdd .newDirName .dir mode name σ

/-- `tmpfs_op_unlink`. -/
def tmpfsOpUnlink (name : CString) (σ : TmpfsTree) : PathM (ℤ × TmpfsTree) :=
  tmpfsWalkPath name σ >>= fun found =>
    match found with
    | none => .ok (-1, σ)
    | some target => deref ((σ.heap target).bind fun nd =>
        match nd.parent with
        | none => some (-1, σ)
        | some parent => (σ.heap parent).bind fun pd =>
            TmpfsTree.unlinkFrom target parent (σ.fresh + 1) none pd.children σ)

/-- The loop of `tmpfs_op_listdir`, from `curr` on, for at most `fuel` rounds: the entries. -/
def listFrom : ℕ → Option ℕ → TmpfsTree → PathM (List (CString × TmpfsNodeType) × TmpfsTree)
  | _, none, σ => .ok ([], σ)
  | 0, some _, _ => .error .badPointer
  | fuel + 1, some curr, σ =>
    if σ.grant σ.fresh then
      deref (σ.heap curr) >>= fun nd =>
        flopstrcopy .entryName nd.name (flopstrlen nd.name + 1) >>= fun a =>
          (listFrom fuel nd.nextSibling { σ with fresh := σ.fresh + 1 }).map fun o =>
            ((textOf a, nd.type) :: o.1, o.2)
    else .error .badPointer

/-- `tmpfs_op_listdir`. -/
def tmpfsOpListdir (path : CString) (σ : TmpfsTree) : PathM (Option (List (CString × TmpfsNodeType)) × TmpfsTree) :=
  tmpfsWalkPath path σ >>= fun found =>
    match found with
    | none => .ok (none, σ)
    | some dir => deref (σ.heap dir) >>= fun nd =>
        if nd.type ≠ .dir then .ok (none, σ)
        else if σ.grant σ.fresh then
          (listFrom (σ.fresh + 1) nd.children { σ with fresh := σ.fresh + 1 }).map fun o => (some o.1, o.2)
        else .error .badPointer

/-- Nothing is written past the end of an array. -/
def Inside {α : Type} (x : PathM α) : Prop := ∀ b, x ≠ .error (.overrun b)

/-- The names of the nodes fit into their arrays. -/
def NamesFit (σ : TmpfsTree) : Prop := ∀ n nd, σ.heap n = some nd → flopstrlen nd.name < vfsMaxFileName

variable {α β : Type} {b : PathBuffer} {src path name segment : CString} {n pos curr : ℕ} {σ : TmpfsTree}

/-! ### Copies -/

theorem flopstrcopy_eq : flopstrcopy b src (flopstrlen src + 1) =
    pushAll vfsMaxFileName (.overrun b) [] (src.map Subtype.val ++ [0]) := by
  have hlength : (src.map Subtype.val).length = flopstrlen src := List.length_map _
  have hall : pushWhile vfsMaxFileName (flopstrlen src + 1 - 1) (PathFault.overrun b) [] (src.map Subtype.val) =
      pushAll vfsMaxFileName (.overrun b) [] (src.map Subtype.val) :=
    pushWhile_eq_pushAll (by rw [List.length_nil]; omega)
  rw [flopstrcopy, hall, pushAll_bind_push]

theorem flopstrcopy_of_lt (h : flopstrlen src < vfsMaxFileName) :
    flopstrcopy b src (flopstrlen src + 1) = .ok (src.map Subtype.val ++ [0]) := by
  rw [flopstrcopy_eq, pushAll_of_le, List.nil_append]
  rw [List.length_append, List.length_map, List.length_nil, List.length_singleton]
  unfold flopstrlen at h
  omega

/-- **`flopstrcopy` does not look at the length of the array.** -/
theorem flopstrcopy_of_le (h : vfsMaxFileName ≤ flopstrlen src) :
    flopstrcopy b src (flopstrlen src + 1) = .error (.overrun b) := by
  rw [flopstrcopy_eq]
  refine pushAll_of_lt (Nat.zero_le _) ?_
  rw [List.length_append, List.length_map, List.length_nil, List.length_singleton]
  unfold flopstrlen at h
  omega

theorem flopMemcpy_of_lt (h : n < vfsMaxFileName) :
    flopMemcpy b src n = .ok ((src.take n).map Subtype.val ++ [0]) := by
  have hlength : ((src.map Subtype.val).take n).length ≤ n := List.length_take_le _ _
  rw [flopMemcpy, pushAll_bind_push, pushAll_of_le, List.nil_append, List.map_take]
  rw [List.length_append, List.length_nil, List.length_singleton]
  omega

/-- What is in the array is the string that was copied. -/
@[simp] theorem textOf_copied : textOf (src.map Subtype.val ++ [0]) = src := by
  have hall : (src.map Subtype.val ++ [0]).takeWhile (· ≠ 0) = src.map Subtype.val := by
    rw [List.takeWhile_append_of_pos]
    · simp
    · intro c hc
      obtain ⟨d, -, rfl⟩ := List.mem_map.1 hc
      simpa using d.2
  rw [textOf, hall, CString.ofBytes, List.filterMap_map]
  refine (List.filterMap_congr fun c _ => ?_).trans List.filterMap_some
  exact dif_pos c.2

/-! ### What stays inside -/

theorem inside_ok (a : α) : Inside (.ok a : PathM α) := fun _ h => nomatch h

theorem inside_badPointer : Inside (.error .badPointer : PathM α) := fun _ h => nomatch h

theorem inside_deref (o : Option α) : Inside (deref o) := by
  cases o with
  | none => exact inside_badPointer
  | some a => exact inside_ok a

theorem Inside.bind {x : PathM α} {f : α → PathM β} (hx : Inside x) (hf : ∀ a, x = .ok a → Inside (f a)) :
    Inside (x >>= f) := by
  cases x with
  | error e => exact fun b h => hx b (congrArg Except.error (Except.error.inj h))
  | ok a => exact hf a rfl

theorem inside_map_iff {x : PathM α} {f : α → β} : Inside (x.map f) ↔ Inside x := by
  cases x with
  | error e => exact forall_congr' fun b => not_congr ⟨fun h => congrArg Except.error (Except.error.inj h),
      fun h => congrArg Except.error (Except.error.inj h)⟩
  | ok a => exact iff_of_true (inside_ok _) (inside_ok _)

theorem inside_flopstrcopy (h : flopstrlen src < vfsMaxFileName) : Inside (flopstrcopy b src (flopstrlen src + 1)) := by
  rw [flopstrcopy_of_lt h]
  exact inside_ok _

theorem bind_eq_ok {x : PathM α} {f : α → PathM β} {c : β} (h : x >>= f = .ok c) : ∃ a, x = .ok a ∧ f a = .ok c := by
  cases x with
  | error e => exact nomatch h
  | ok a => exact ⟨a, rfl, h⟩

theorem map_eq_ok {x : PathM α} {f : α → β} {c : β} (h : x.map f = .ok c) : ∃ a, x = .ok a ∧ f a = c := by
  cases x with
  | error e => exact nomatch h
  | ok a => exact ⟨a, rfl, Except.ok.inj h⟩

theorem deref_eq_ok {o : Option α} {a : α} (h : deref o = .ok a) : o = some a := by
  cases o with
  | none => exact nomatch h
  | some a' => exact congrArg some (Except.ok.inj h)

/-- The segments of a path that fits. -/
theorem inside_tmpfsWalkFrom (h : pos + segment.length < vfsMaxFileName) : Inside (tmpfsWalkFrom pos segment curr σ) := by
  induction hlength : segment.length using Nat.strong_induction_on generalizing pos segment curr with
  | _ length ih =>
    have hsplit := congrArg List.length (List.takeWhile_append_dropWhile (p := (· ≠ slash)) (l := segment))
    rw [List.length_append] at hsplit
    rw [tmpfsWalkFrom]
    split
    · exact inside_ok _
    · rw [if_neg (by omega)]
      refine (inside_deref _).bind fun found _ => ?_
      cases found with
      | none => exact inside_ok _
      | some child =>
        dsimp only
        split
        · exact inside_ok _
        · next hmore =>
          have hpos : 0 < (segment.dropWhile (· ≠ slash)).length := List.length_pos_iff.2 hmore
          have htail : (segment.dropWhile (· ≠ slash)).tail.length = (segment.dropWhile (· ≠ slash)).length - 1 :=
            List.length_tail
          exact ih _ (by omega) (by omega) rfl

theorem inside_tmpfsWalkPath (h : flopstrlen path < vfsMaxFileName) : Inside (tmpfsWalkPath path σ) := by
  rw [tmpfsWalkPath]
  split
  · exact inside_ok _
  · rw [flopstrcopy_of_lt h, ok_bind, textOf_copied]
    unfold flopstrlen at h
    split
    · next hhead =>
      have hpos : 0 < path.length := List.length_pos_iff.2 fun hnil => by rw [hnil] at hhead; exact nomatch hhead
      exact inside_tmpfsWalkFrom (by rw [List.length_tail]; omega)
    · exact inside_tmpfsWalkFrom (by omega)

/-- **A path that does not fit overruns `tmp`.** -/
theorem tmpfsWalkPath_overrun (h : vfsMaxFileName ≤ flopstrlen path) :
    tmpfsWalkPath path σ = .error (.overrun .tmp) := by
  have hlong : ¬ (path = [] ∨ path = [slash]) := by
    rintro (rfl | rfl) <;> exact absurd h (by decide)
  rw [tmpfsWalkPath, if_neg hlong, flopstrcopy_of_le h, error_bind]

/-- The two parts of a name that fits. -/
theorem splitName_eq (h : flopstrlen name < vfsMaxFileName) : splitName b name σ =
    tmpfsWalkPath (TmpfsTree.dirPath name) σ >>= fun parent => .ok (parent, TmpfsTree.fileName name) := by
  rcases TmpfsTree.last_slash_cases name with hnot | ⟨d, f, rfl, hf⟩
  · rw [splitName, TmpfsTree.lastSlash_of_not_mem hnot, TmpfsTree.dirPath_of_not_mem hnot,
      TmpfsTree.fileName_of_not_mem hnot]
    dsimp only
    rw [flopstrcopy_of_lt h, ok_bind, textOf_copied, tmpfsWalkPath, if_pos (.inl rfl), ok_bind]
  · have hlength : flopstrlen (d ++ slash :: f) = d.length + (f.length + 1) := by
      rw [flopstrlen, List.length_append, List.length_cons]
    have hshort : flopstrlen f < vfsMaxFileName := by
      unfold flopstrlen at *
      omega
    have hdrop : (d ++ slash :: f).drop (d.length + 1) = f := by
      rw [← List.drop_drop, List.drop_left]
      rfl
    rw [splitName, TmpfsTree.lastSlash_append hf, TmpfsTree.dirPath_append hf, TmpfsTree.fileName_append hf]
    simp only [Nat.zero_add]
    rw [flopMemcpy_of_lt (by omega), ok_bind, textOf_copied, List.take_left, hdrop, flopstrcopy_of_lt hshort]
    simp only [ok_bind, textOf_copied]

theorem inside_tmpfsNodeInternalCreate {type : TmpfsNodeType} (h : flopstrlen name < vfsMaxFileName) :
    Inside (tmpfsNodeInternalCreate name type σ) := by
  rw [tmpfsNodeInternalCreate]
  split
  · exact (inside_flopstrcopy h).bind fun _ _ => inside_ok _
  · exact inside_ok _

theorem inside_tmpfsAdd {type : TmpfsNodeType} {mode : ℕ} (h : flopstrlen name < vfsMaxFileName) :
    Inside (tmpfsAdd b type mode name σ) := by
  rw [tmpfsAdd, splitName_eq h]
  refine Inside.bind ((inside_tmpfsWalkPath ((TmpfsTree.length_dirPath name).trans_lt h)).bind fun parent _ => inside_ok _) fun o ho => ?_
  obtain ⟨parent, text⟩ := o
  have htext : text = TmpfsTree.fileName name := by
    rcases hwalk : tmpfsWalkPath (TmpfsTree.dirPath name) σ with e | found
    · rw [hwalk] at ho
      exact nomatch ho
    · rw [hwalk] at ho
      exact (congrArg Prod.snd (Except.ok.inj ho)).symm
  cases parent with
  | none => exact inside_ok _
  | some parent =>
    rw [htext]
    refine (inside_tmpfsNodeInternalCreate ((TmpfsTree.length_fileName name).trans_lt h)).bind fun o _ => ?_
    obtain ⟨made, σ'⟩ := o
    cases made with
    | none => exact inside_badPointer
    | some n => exact inside_deref _

theorem inside_tmpfsOpUnlink (h : flopstrlen name < vfsMaxFileName) : Inside (tmpfsOpUnlink name σ) := by
  refine (inside_tmpfsWalkPath h).bind fun found _ => ?_
  cases found with
  | none => exact inside_ok _
  | some target => exact inside_deref _

/-! ### The operations of the tree -/

section Refinement

variable {type : TmpfsNodeType} {mode : ℕ}

@[simp] theorem toOption_bind {x : PathM α} {f : α → PathM β} :
    (x >>= f).toOption = x.toOption.bind fun a => (f a).toOption := by
  cases x with
  | error e => rfl
  | ok a => rfl

@[simp] theorem toOption_deref {o : Option α} : (deref o).toOption = o := by
  cases o with
  | none => rfl
  | some a => rfl

theorem tmpfsWalkFrom_toOption (h : pos + segment.length < vfsMaxFileName) :
    (tmpfsWalkFrom pos segment curr σ).toOption = TmpfsTree.tmpfsWalkFrom segment curr σ := by
  induction hlength : segment.length using Nat.strong_induction_on generalizing pos segment curr with
  | _ length ih =>
    have hsplit := congrArg List.length (List.takeWhile_append_dropWhile (p := (· ≠ slash)) (l := segment))
    rw [List.length_append] at hsplit
    rw [tmpfsWalkFrom, TmpfsTree.tmpfsWalkFrom]
    split
    · rfl
    · rw [if_neg (by omega), toOption_bind, toOption_deref, Option.bind_assoc]
      refine congrArg (σ.heap curr).bind (funext fun nd => ?_)
      refine congrArg (Option.bind _) (funext fun found => ?_)
      cases found with
      | none => rfl
      | some child =>
        dsimp only
        split
        · rfl
        · next hmore =>
          have hpos : 0 < (segment.dropWhile (· ≠ slash)).length := List.length_pos_iff.2 hmore
          have htail : (segment.dropWhile (· ≠ slash)).tail.length = (segment.dropWhile (· ≠ slash)).length - 1 :=
            List.length_tail
          exact ih _ (by omega) (by omega) rfl

/-- **`tmpfs_walk_path`** is the walk of the tree, which stops where `tmp` is overrun. -/
theorem tmpfsWalkPath_toOption : (tmpfsWalkPath path σ).toOption = σ.tmpfsWalkPath path := by
  rw [TmpfsTree.tmpfsWalkPath]
  by_cases hroot : path = [] ∨ path = [slash]
  · rw [tmpfsWalkPath, if_pos hroot, if_pos hroot]
    rfl
  · rw [if_neg hroot]
    by_cases hfits : flopstrlen path < vfsMaxFileName
    · have hlength : path.length < vfsMaxFileName := hfits
      have hsmall : ¬ flopstrlen path + 1 > vfsMaxFileName := by omega
      rw [tmpfsWalkPath, if_neg hroot, flopstrcopy_of_lt hfits, ok_bind, textOf_copied, if_neg hsmall]
      by_cases hhead : path.head? = some slash
      · have hpos : 0 < path.length := List.length_pos_iff.2 fun hnil => hroot (.inl hnil)
        rw [if_pos hhead, if_pos hhead]
        exact tmpfsWalkFrom_toOption (by rw [List.length_tail]; omega)
      · rw [if_neg hhead, if_neg hhead]
        exact tmpfsWalkFrom_toOption (by omega)
    · rw [if_pos (by omega), tmpfsWalkPath_overrun (by omega)]
      rfl

theorem tmpfsAdd_toOption (h : flopstrlen name < vfsMaxFileName) :
    (tmpfsAdd b type mode name σ).toOption = σ.tmpfsAdd type mode name := by
  have hdir := (TmpfsTree.length_dirPath name).trans_lt h
  have hfile := (TmpfsTree.length_fileName name).trans_lt h
  rw [tmpfsAdd, TmpfsTree.tmpfsAdd, if_neg (by omega), splitName_eq h, toOption_bind, toOption_bind,
    tmpfsWalkPath_toOption, Option.bind_assoc]
  refine congrArg (Option.bind _) (funext fun found => ?_)
  cases found with
  | none => rfl
  | some parent =>
    change (tmpfsNodeInternalCreate (TmpfsTree.fileName name) type σ >>= _).toOption = _
    rw [toOption_bind, tmpfsNodeInternalCreate, TmpfsTree.tmpfsNodeInternalCreate]
    split
    · rw [flopstrcopy_of_lt hfile, ok_bind, textOf_copied, if_neg (by omega)]
      exact toOption_deref
    · rfl

theorem tmpfsOpUnlink_toOption : (tmpfsOpUnlink name σ).toOption = σ.tmpfsOpUnlink name := by
  rw [tmpfsOpUnlink, TmpfsTree.tmpfsOpUnlink, toOption_bind, tmpfsWalkPath_toOption]
  refine congrArg (Option.bind _) (funext fun found => ?_)
  cases found with
  | none => rfl
  | some target => exact toOption_deref

end Refinement

/-! ### Names of nodes -/

section Names

variable {σ' : TmpfsTree} {type : TmpfsNodeType} {mode target parent fuel i : ℕ} {nd : TmpfsNode}
  {curr prev next : Option ℕ} {r : ℤ}

theorem namesFit_mount (grant : ℕ → Bool) : NamesFit (.mount grant) := by
  intro n nd hn
  have hn : (if n = 0 then some ⟨[slash], .dir, 0o777, [], none, none, none⟩ else none) = some nd := hn
  split at hn
  · obtain rfl := Option.some.inj hn
    exact (by decide : flopstrlen [slash] < vfsMaxFileName)
  · exact nomatch hn

theorem NamesFit.setNode (h : NamesFit σ) (hnd : flopstrlen nd.name < vfsMaxFileName) : NamesFit (σ.setNode i nd) := by
  intro n nd' hn
  have hn : Function.update σ.heap i (some nd) n = some nd' := hn
  by_cases hni : n = i
  · rw [hni, Function.update_self] at hn
    rwa [← Option.some.inj hn]
  · rw [Function.update_of_ne hni] at hn
    exact h n nd' hn

theorem NamesFit.erase (h : NamesFit σ) {frames : List ℕ} :
    NamesFit { σ with heap := Function.update σ.heap i none, frames := frames } := by
  intro n nd hn
  have hn : Function.update σ.heap i none n = some nd := hn
  by_cases hni : n = i
  · rw [hni, Function.update_self] at hn
    exact nomatch hn
  · rw [Function.update_of_ne hni] at hn
    exact h n nd hn

/-- A name that gets into a node has been copied there. -/
theorem NamesFit.tmpfsAdd (h : NamesFit σ) (hrun : σ.tmpfsAdd type mode name = some (r, σ')) : NamesFit σ' := by
  rw [TmpfsTree.tmpfsAdd] at hrun
  split at hrun
  · exact absurd hrun (by simp)
  · next hshort =>
    obtain ⟨found, -, hrun⟩ := Option.bind_eq_some_iff.1 hrun
    cases found with
    | none =>
      obtain ⟨-, rfl⟩ := Prod.mk.inj (Option.some.inj hrun)
      exact h
    | some parent =>
      obtain ⟨o, hmade, hrun⟩ := Option.bind_eq_some_iff.1 hrun
      rw [TmpfsTree.tmpfsNodeInternalCreate] at hmade
      split at hmade
      · split at hmade
        · exact absurd hmade (by simp)
        · obtain rfl := Option.some.inj hmade
          have hnew : NamesFit (TmpfsTree.setNode σ.fresh
              ⟨TmpfsTree.fileName name, type, 0o777, [], none, none, none⟩ { σ with fresh := σ.fresh + 1 }) :=
            NamesFit.setNode h (Nat.lt_of_succ_le (by omega : flopstrlen (TmpfsTree.fileName name) + 1 ≤ vfsMaxFileName))
          obtain ⟨nd, hnd, hrun⟩ := Option.bind_eq_some_iff.1 hrun
          obtain ⟨pd, hpd, hrun⟩ := Option.map_eq_some_iff.1 hrun
          obtain ⟨-, rfl⟩ := Prod.mk.inj hrun
          refine NamesFit.setNode (NamesFit.setNode hnew ?_) ?_
          · exact hnew σ.fresh nd hnd
          · exact hnew parent pd hpd
      · obtain rfl := Option.some.inj hmade
        exact absurd hrun (by simp)

theorem NamesFit.linkChild (h : NamesFit σ) (hrun : TmpfsTree.linkChild parent prev next σ = some σ') :
    NamesFit σ' := by
  cases prev with
  | none =>
    obtain ⟨pd, hpd, rfl⟩ := Option.map_eq_some_iff.1 hrun
    exact h.setNode (h parent pd hpd)
  | some p =>
    obtain ⟨pd, hpd, rfl⟩ := Option.map_eq_some_iff.1 hrun
    exact h.setNode (h p pd hpd)

theorem NamesFit.unlinkFrom (h : NamesFit σ)
    (hrun : TmpfsTree.unlinkFrom target parent fuel prev curr σ = some (r, σ')) : NamesFit σ' := by
  induction fuel generalizing prev curr with
  | zero =>
    cases curr with
    | none =>
      obtain ⟨-, rfl⟩ := Prod.mk.inj (Option.some.inj hrun)
      exact h
    | some curr => exact nomatch hrun
  | succ fuel ih =>
    cases curr with
    | none =>
      obtain ⟨-, rfl⟩ := Prod.mk.inj (Option.some.inj hrun)
      exact h
    | some curr =>
      obtain ⟨nd, -, hrun⟩ := Option.bind_eq_some_iff.1 hrun
      split at hrun
      · obtain ⟨σ₁, hlink, hrun⟩ := Option.map_eq_some_iff.1 hrun
        obtain ⟨-, rfl⟩ := Prod.mk.inj hrun
        exact (h.linkChild hlink).erase
      · exact ih hrun

theorem NamesFit.tmpfsOpUnlink (h : NamesFit σ) (hrun : σ.tmpfsOpUnlink name = some (r, σ')) : NamesFit σ' := by
  obtain ⟨found, -, hrun⟩ := Option.bind_eq_some_iff.1 hrun
  cases found with
  | none =>
    obtain ⟨-, rfl⟩ := Prod.mk.inj (Option.some.inj hrun)
    exact h
  | some target =>
    obtain ⟨nd, -, hrun⟩ := Option.bind_eq_some_iff.1 hrun
    split at hrun
    · obtain ⟨-, rfl⟩ := Prod.mk.inj (Option.some.inj hrun)
      exact h
    · obtain ⟨pd, -, hrun⟩ := Option.bind_eq_some_iff.1 hrun
      exact h.unlinkFrom hrun

theorem namesFit_of_tmpfsAdd (h : NamesFit σ) (hname : flopstrlen name < vfsMaxFileName)
    (hrun : tmpfsAdd b type mode name σ = .ok (r, σ')) : NamesFit σ' := by
  have htree : (tmpfsAdd b type mode name σ).toOption = some (r, σ') := congrArg Except.toOption hrun
  rw [tmpfsAdd_toOption hname] at htree
  exact h.tmpfsAdd htree

theorem namesFit_of_tmpfsOpUnlink (h : NamesFit σ) (hrun : tmpfsOpUnlink name σ = .ok (r, σ')) : NamesFit σ' := by
  have htree : (tmpfsOpUnlink name σ).toOption = some (r, σ') := congrArg Except.toOption hrun
  rw [tmpfsOpUnlink_toOption] at htree
  exact h.tmpfsOpUnlink htree

/-- The names that a listing copies are those of nodes. -/
theorem inside_listFrom (h : NamesFit σ) : Inside (listFrom fuel curr σ) := by
  induction fuel generalizing curr σ with
  | zero =>
    cases curr with
    | none => exact inside_ok _
    | some curr => exact inside_badPointer
  | succ fuel ih =>
    cases curr with
    | none => exact inside_ok _
    | some curr =>
      rw [listFrom]
      split
      · refine (inside_deref _).bind fun nd hnd => ?_
        refine (inside_flopstrcopy (h curr nd (deref_eq_ok hnd))).bind fun a _ => ?_
        have hrest : NamesFit { σ with fresh := σ.fresh + 1 } := h
        exact inside_map_iff.2 (ih hrest)
      · exact inside_badPointer

/-- A listing leaves the nodes. -/
theorem heap_listFrom {entries : List (CString × TmpfsNodeType)} (hrun : listFrom fuel curr σ = .ok (entries, σ')) :
    σ'.heap = σ.heap := by
  induction fuel generalizing curr σ entries with
  | zero =>
    cases curr with
    | none =>
      obtain ⟨-, rfl⟩ := Prod.mk.inj (Except.ok.inj hrun)
      rfl
    | some curr => exact nomatch hrun
  | succ fuel ih =>
    cases curr with
    | none =>
      obtain ⟨-, rfl⟩ := Prod.mk.inj (Except.ok.inj hrun)
      rfl
    | some curr =>
      rw [listFrom] at hrun
      split at hrun
      · obtain ⟨nd, -, hrun⟩ := bind_eq_ok hrun
        obtain ⟨a, -, hrun⟩ := bind_eq_ok hrun
        obtain ⟨o, hrest, hrun⟩ := map_eq_ok hrun
        obtain ⟨-, rfl⟩ := Prod.mk.inj hrun
        have hsame : o.2.heap = ({ σ with fresh := σ.fresh + 1 } : TmpfsTree).heap := ih hrest
        exact hsame
      · exact nomatch hrun

theorem inside_tmpfsOpListdir (h : NamesFit σ) (hpath : flopstrlen path < vfsMaxFileName) :
    Inside (tmpfsOpListdir path σ) := by
  refine (inside_tmpfsWalkPath hpath).bind fun found _ => ?_
  cases found with
  | none => exact inside_ok _
  | some dir =>
    refine (inside_deref _).bind fun nd _ => ?_
    split
    · exact inside_ok _
    · split
      · have hnames : NamesFit { σ with fresh := σ.fresh + 1 } := h
        exact inside_map_iff.2 (inside_listFrom hnames)
      · exact inside_badPointer

theorem NamesFit.tmpfsOpListdir {entries : Option (List (CString × TmpfsNodeType))} (h : NamesFit σ)
    (hrun : tmpfsOpListdir path σ = .ok (entries, σ')) : NamesFit σ' := by
  obtain ⟨found, -, hrun⟩ := bind_eq_ok hrun
  cases found with
  | none =>
    obtain ⟨-, rfl⟩ := Prod.mk.inj (Except.ok.inj hrun)
    exact h
  | some dir =>
    obtain ⟨nd, -, hrun⟩ := bind_eq_ok hrun
    split at hrun
    · obtain ⟨-, rfl⟩ := Prod.mk.inj (Except.ok.inj hrun)
      exact h
    · split at hrun
      · obtain ⟨o, hlist, hrun⟩ := map_eq_ok hrun
        obtain ⟨-, rfl⟩ := Prod.mk.inj hrun
        have hheap : o.2.heap = ({ σ with fresh := σ.fresh + 1 } : TmpfsTree).heap := heap_listFrom hlist
        intro n nd hn
        rw [hheap] at hn
        exact h n nd hn
      · exact nomatch hrun

end Names

end PathBuffers

end Flopperating
