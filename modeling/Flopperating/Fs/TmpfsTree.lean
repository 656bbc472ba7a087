/-
# The tree of `tmpflopfs`

Names and directories of `src/fs/tmpflopfs/tmpflopfs.c`: `tmpfs_walk_path` and the operations
that create, remove and rename nodes, on the `struct tmpfs_node`s of one mount.

| source | here |
| --- | --- |
| a `struct tmpfs_node` of `kmalloc` | an entry of `heap`, at a number that is not used again |
| whether `kmalloc` has memory, call after call | `grant` |
| `mp->data_pointer` | `root` |
| the pages of `pmm_alloc_pages` that have not been freed | `frames` |

An operation returns `none` when it follows a pointer to a node that is not there, as it does
after a `kmalloc` that fails, or writes past the 256 bytes of a name.
-/

import Flopperating.Lib.Str
import Flopperating.Data.LinkedList

namespace Flopperating

/-- `tmpfs_node_type_t`, of the nodes that are created. -/
inductive TmpfsNodeType
  | file
  | dir
  deriving DecidableEq

/-- What the operations on names use of a `struct tmpfs_node`. -/
structure TmpfsNode where
  name : CString
  type : TmpfsNodeType
  mode : ℕ
  pages : List ℕ
  parent : Option ℕ
  children : Option ℕ
  nextSibling : Option ℕ

structure TmpfsTree where
  heap : ℕ → Option TmpfsNode
  fresh : ℕ
  grant : ℕ → Bool
  root : ℕ
  frames : List ℕ

/-- The character `'/'`. -/
def slash : CChar := ⟨47, by decide⟩

/-- `VFS_MAX_FILE_NAME`. -/
abbrev vfsMaxFileName : ℕ := 256

namespace TmpfsTree

/-- `m->next_sibling`. -/
def nextOf (σ : TmpfsTree) (m : ℕ) : Option ℕ := (σ.heap m).bind (·.nextSibling)

def setNode (i : ℕ) (nd : TmpfsNode) (σ : TmpfsTree) : TmpfsTree := { σ with heap := Function.update σ.heap i (some nd) }

/-- `tmpfs_node_internal_create`. -/
def tmpfsNodeInternalCreate (name : CString) (type : TmpfsNodeType) (σ : TmpfsTree) : Option (Option ℕ × TmpfsTree) :=
  if σ.grant σ.fresh then
    if flopstrlen name + 1 > vfsMaxFileName then none
    else some (some σ.fresh, { σ with
      heap := Function.update σ.heap σ.fresh (some ⟨name, type, 0o777, [], none, none, none⟩), fresh := σ.fresh + 1 })
  else some (none, { σ with fresh := σ.fresh + 1 })

/-! ### Paths -/

/-- The loop over the children, from `child` on, for at most `fuel` rounds. -/
def findChild (segment : CString) : ℕ → Option ℕ → TmpfsTree → Option (Option ℕ)
  | _, none, _ => some none
  | 0, some _, _ => none
  | fuel + 1, some child, σ =>
    (σ.heap child).bind fun nd =>
      if flopstrcmp nd.name segment = 0 then some (some child) else findChild segment fuel nd.nextSibling σ

theorem length_dropWhile_slash (segment : CString) : (segment.dropWhile (· ≠ slash)).length ≤ segment.length :=
  (List.dropWhile_suffix _).length_le

/-- The loop of `tmpfs_walk_path` over the segments. -/
def tmpfsWalkFrom (segment : CString) (curr : ℕ) (σ : TmpfsTree) : Option (Option ℕ) :=
  if segment = [] then some (some curr)
  else
    (σ.heap curr).bind fun nd =>
      (findChild (segment.takeWhile (· ≠ slash)) (σ.fresh + 1) nd.children σ).bind fun found =>
        match found with
        | none => some none
        | some child =>
          if segment.dropWhile (· ≠ slash) = [] then some (some child)
          else tmpfsWalkFrom (segment.dropWhile (· ≠ slash)).tail child σ
termination_by segment.length
decreasing_by
  have := length_dropWhile_slash segment
  have : 0 < (segment.dropWhile (· ≠ slash)).length := List.length_pos_iff.2 ‹_›
  rw [List.length_tail]
  omega

/-- `tmpfs_walk_path`, of the root. -/
def tmpfsWalkPath (path : CString) (σ : TmpfsTree) : Option (Option ℕ) :=
  if path = [] ∨ path = [slash] then some (some σ.root)
  else if flopstrlen path + 1 > vfsMaxFileName then none
  else tmpfsWalkFrom (if path.head? = some slash then path.tail else path) σ.root σ

/-- The loop that looks for the last slash, at position `i`. -/
def lastSlash : CString → ℕ → Option ℕ → Option ℕ
  | [], _, last => last
  | c :: name, i, last => lastSlash name (i + 1) (if c = slash then some i else last)

/-- The part of a name before its last slash. -/
def dirPath (name : CString) : CString := (lastSlash name 0 none).elim [] fun i => name.take i

/-- The part of a name behind its last slash. -/
def fileName (name : CString) : CString := (lastSlash name 0 none).elim name fun i => name.drop (i + 1)

/-! ### Operations -/

/-- What `tmpfs_op_create` and `tmpfs_op_mkdir` have in common: a node of a type and a mode. -/
def tmpfsAdd (type : TmpfsNodeType) (mode : ℕ) (name : CString) (σ : TmpfsTree) : Option (ℤ × TmpfsTree) :=
  if flopstrlen (dirPath name) + 1 > vfsMaxFileName ∨ flopstrlen (fileName name) + 1 > vfsMaxFileName then none
  else
    (σ.tmpfsWalkPath (dirPath name)).bind fun found =>
      match found with
      | none => some (-1, σ)
      | some parent => (σ.tmpfsNodeInternalCreate (fileName name) type).bind fun o =>
          match o with
          | (none, _) => none
          | (some n, σ) => (σ.heap n).bind fun nd => (σ.heap parent).map fun pd =>
              (0, (σ.setNode n { nd with mode := mode, parent := some parent, nextSibling := pd.children }).setNode parent
                { pd with children := some n })

/-- `tmpfs_op_create`. -/
def tmpfsOpCreate (name : CString) (σ : TmpfsTree) : Option (ℤ × TmpfsTree) := tmpfsAdd .file 0o777 name σ

/-- `tmpfs_op_mkdir`. -/
def tmpfsOpMkdir (name : CString) (mode : ℕ) (σ : TmpfsTree) : Option (ℤ × TmpfsTree) := tmpfsAdd .dir mode name σ

/-- The link of `prev`, or of the parent, to `next`. -/
def linkChild (parent : ℕ) (prev next : Option ℕ) (σ : TmpfsTree) : Option TmpfsTree :=
  match prev with
  | none => (σ.heap parent).map fun pd => σ.setNode parent { pd with children := next }
  | some p => (σ.heap p).map fun nd => σ.setNode p { nd with nextSibling := next }

/-- The loop of `tmpfs_op_unlink`, at `curr` after `prev`, for at most `fuel` rounds. -/
def unlinkFrom (target parent : ℕ) : ℕ → Option ℕ → Option ℕ → TmpfsTree → Option (ℤ × TmpfsTree)
  | _, _, none, σ => some (-1, σ)
  | 0, _, some _, _ => none
  | fuel + 1, prev, some curr, σ =>
    (σ.heap curr).bind fun nd =>
      if curr = target then (σ.linkChild parent prev nd.nextSibling).map fun σ =>
        (0, { σ with heap := Function.update σ.heap curr none, frames := σ.frames.filter (· ∉ nd.pages) })
      else unlinkFrom target parent fuel (some curr) nd.nextSibling σ

/-- `tmpfs_op_unlink`. -/
def tmpfsOpUnlink (name : CString) (σ : TmpfsTree) : Option (ℤ × TmpfsTree) :=
  (σ.tmpfsWalkPath name).bind fun found =>
    match found with
    | none => some (-1, σ)
    | some target => (σ.heap target).bind fun nd =>
        match nd.parent with
        | none => some (-1, σ)
        | some parent => (σ.heap parent).bind fun pd => unlinkFrom target parent (σ.fresh + 1) none pd.children σ

/-- `tmpfs_op_rename`. -/
def tmpfsOpRename (old new : CString) (σ : TmpfsTree) : Option (ℤ × TmpfsTree) :=
  (σ.tmpfsWalkPath old).bind fun found =>
    match found with
    | none => some (-1, σ)
    | some target =>
      if flopstrlen new + 1 > vfsMaxFileName then none
      else (σ.heap target).map fun nd => (0, σ.setNode target { nd with name := new })

/-- `vfs_open` below the mountpoint: `tmpfs_op_open`, and once more when the file has been
created. -/
def tmpfsOpen (name : CString) (create : Bool) (σ : TmpfsTree) : Option (Option ℕ × TmpfsTree) :=
  (σ.tmpfsWalkPath name).bind fun found =>
    match found with
    | some n => some (some n, σ)
    | none =>
      if create then (σ.tmpfsOpCreate name).bind fun o =>
        if o.1 = 0 then (o.2.tmpfsWalkPath name).map fun found => (found, o.2) else some (none, o.2)
      else some (none, σ)

/-- `tmpfs_op_mount`, when there is memory: the root alone. -/
def mount (grant : ℕ → Bool) : TmpfsTree where
  heap := fun i => if i = 0 then some ⟨[slash], .dir, 0o777, [], none, none, none⟩ else none
  fresh := 1
  grant := grant
  root := 0
  frames := []

end TmpfsTree

/-! ### Runs -/

/-- A call on the mount: `access k` is a `vfs_read`, `vfs_write` or `vfs_seek` through the
`k`-th open node, and `pages` are those that `pmm_alloc_pages` gives it. -/
inductive TreeCall
  | create (name : CString)
  | mkdir (name : CString) (mode : ℕ)
  | unlink (name : CString)
  | rename (old new : CString)
  | vopen (name : CString) (creates : Bool)
  | close (k : ℕ)
  | access (k : ℕ) (pages : List ℕ)
  | unmount

/-- The tree, whether it is mounted, and what the open nodes point to. -/
structure TreeState where
  tree : TmpfsTree
  mounted : Bool
  handles : List ℕ

/-- An operation on the tree; nothing leads to it when it is not mounted. -/
def TreeState.onTree (op : TmpfsTree → Option (ℤ × TmpfsTree)) (s : TreeState) : Option TreeState :=
  if s.mounted then (op s.tree).map fun o => { s with tree := o.2 } else some s

/-- One call.  `tmpfs_op_unmount` frees the root, and no page is given out that has not been
freed. -/
def TreeCall.step : TreeCall → TreeState → Option TreeState
  | create name, s => s.onTree (·.tmpfsOpCreate name)
  | mkdir name mode, s => s.onTree (·.tmpfsOpMkdir name mode)
  | unlink name, s => s.onTree (·.tmpfsOpUnlink name)
  | rename old new, s => s.onTree (·.tmpfsOpRename old new)
  | vopen name creates, s =>
    if s.mounted then (s.tree.tmpfsOpen name creates).map fun o => { s with tree := o.2, handles := o.1.toList ++ s.handles }
    else some s
  | close k, s => some { s with handles := s.handles.eraseIdx k }
  | access k pages, s =>
    match s.handles[k]? with
    | none => some s
    | some n => if pages.any (· ∈ s.tree.frames) then none else (s.tree.heap n).map fun nd => { s with
        tree := { s.tree.setNode n { nd with pages := nd.pages ++ pages } with frames := s.tree.frames ++ pages } }
  | unmount, s =>
    if s.mounted then some { s with
      mounted := false, tree := { s.tree with heap := Function.update s.tree.heap s.tree.root none } }
    else some s

def TreeState.init (grant : ℕ → Bool) : TreeState := ⟨.mount grant, true, []⟩

/-- Calls one after the other. -/
def treeRun : List TreeCall → TreeState → Option TreeState
  | [], s => some s
  | c :: calls, s => (c.step s).bind (treeRun calls)

end Flopperating
