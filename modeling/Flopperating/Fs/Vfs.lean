/-
# The virtual file system

Mountpoints, nodes and the operations on paths of `src/fs/vfs/vfs.c`, with the objects that
they get from `kmalloc` and give back to `kfree`.

| source | here |
| --- | --- |
| `fs_list`, `mp_list` | `fsList`; `head`, `tail` |
| an object of `kmalloc` | an entry of `heap`, at a number that is not used again |
| whether `kmalloc` has memory, call after call | `grant` |
| an `op_table` | `VfsOpTbl`: `none` for `NULL`, else what its `k`-th call returns |

An operation returns `none` when it follows a pointer to an object that is not there, frees
one twice, or writes past the 256 bytes of a `filename`.  What a file system does to the
objects of its own is not part of the state.
-/

import Flopperating.Lib.Str
import Flopperating.Data.LinkedList

namespace Flopperating

/-- `struct vfs_op_tbl`, as far as these operations call it; the `k`-th call of all. -/
structure VfsOpTbl where
  opOpen : Option (ℕ → Bool)
  opClose : Option (ℕ → ℤ)
  opMount : Option (ℕ → Option ℕ)
  opUnmount : Option (ℕ → ℤ)
  opCreate : Option (ℕ → ℤ)
  opUnlink : Option (ℕ → ℤ)
  opMkdir : Option (ℕ → ℤ)
  opRmdir : Option (ℕ → ℤ)
  opSeek : Option (ℕ → ℤ)
  opStat : Option (ℕ → ℤ)

/-- `struct vfs_fs`. -/
structure VfsFs where
  opTable : VfsOpTbl
  filesystemType : ℤ

/-- `struct vfs_mountpoint`; a string comes with its object. -/
structure VfsMountpoint where
  filesystem : VfsFs
  nextMountpoint : Option ℕ
  mountPoint : ℕ × CString
  deviceName : ℕ × CString
  dataPointer : Option ℕ
  refcount : ℕ

/-- `struct vfs_node`. -/
structure VfsNode where
  mountpoint : ℕ
  vfsMode : ℕ
  refcount : ℕ

/-- What an object of `kmalloc` holds. -/
inductive KObject
  | mountpoint (mp : VfsMountpoint)
  | node (n : VfsNode)
  | text

structure Vfs where
  fsList : List VfsFs
  head : Option ℕ
  tail : Option ℕ
  heap : ℕ → Option KObject
  fresh : ℕ
  grant : ℕ → Bool
  clock : ℕ

namespace Vfs

/-- Nothing is mounted. -/
def init (fsList : List VfsFs) (grant : ℕ → Bool) : Vfs := ⟨fsList, none, none, fun _ => none, 0, grant, 0⟩

/-! ### Objects -/

def mp? (σ : Vfs) (i : ℕ) : Option VfsMountpoint :=
  match σ.heap i with
  | some (.mountpoint mp) => some mp
  | _ => none

def node? (σ : Vfs) (i : ℕ) : Option VfsNode :=
  match σ.heap i with
  | some (.node n) => some n
  | _ => none

/-- `mp->next_mountpoint`. -/
def nextOf (σ : Vfs) (i : ℕ) : Option ℕ := (σ.mp? i).bind (·.nextMountpoint)

def setMp (i : ℕ) (mp : VfsMountpoint) (σ : Vfs) : Vfs :=
  { σ with heap := Function.update σ.heap i (some (.mountpoint mp)) }

def setNode (i : ℕ) (n : VfsNode) (σ : Vfs) : Vfs := { σ with heap := Function.update σ.heap i (some (.node n)) }

/-- `kmalloc` of an object. -/
def kmalloc (o : KObject) (σ : Vfs) : Option ℕ × Vfs :=
  if σ.grant σ.fresh then
    (some σ.fresh, { σ with heap := Function.update σ.heap σ.fresh (some o), fresh := σ.fresh + 1 })
  else (none, { σ with fresh := σ.fresh + 1 })

/-- `kfree` of an object that is there. -/
def kfree (i : ℕ) (σ : Vfs) : Option Vfs :=
  if (σ.heap i).isSome then some { σ with heap := Function.update σ.heap i none } else none

/-- A file system has been called. -/
def tick (σ : Vfs) : Vfs := { σ with clock := σ.clock + 1 }

/-! ### Reference counts -/

/-- `refcount_inc_not_zero`; there is no room for `2 ^ 32` references. -/
def refcountIncNotZero (n : ℕ) : ℕ := if n = 0 then 0 else n + 1

/-- `refcount_dec_and_test`: whether the count has dropped to zero, and the count. -/
def refcountDecAndTest (n : ℕ) : Bool × ℕ := if n = 0 then (false, 0) else (n - 1 = 0, n - 1)

/-- `refcount_inc_not_zero(&mp->refcount)`. -/
def mpInc (i : ℕ) (σ : Vfs) : Option Vfs :=
  (σ.mp? i).map fun mp => σ.setMp i { mp with refcount := refcountIncNotZero mp.refcount }

/-- `vfs_free_mountpoint`. -/
def vfsFreeMountpoint (i : ℕ) (σ : Vfs) : Option Vfs :=
  (σ.mp? i).bind fun mp => (σ.kfree mp.mountPoint.1).bind fun σ => (σ.kfree mp.deviceName.1).bind fun σ => σ.kfree i

/-- `if (refcount_dec_and_test(&mp->refcount)) vfs_free_mountpoint(mp)`. -/
def mpPut (i : ℕ) (σ : Vfs) : Option Vfs :=
  (σ.mp? i).bind fun mp =>
    let σ := σ.setMp i { mp with refcount := (refcountDecAndTest mp.refcount).2 }
    if (refcountDecAndTest mp.refcount).1 then σ.vfsFreeMountpoint i else some σ

/-! ### The list of mountpoints -/

/-- `vfs_find_fs`. -/
def vfsFindFs (type : ℤ) (σ : Vfs) : Option VfsFs := σ.fsList.find? fun fs => fs.filesystemType = type

/-- The loops `for (mp = m; mp != NULL; mp = mp->next_mountpoint) if (p(mp)) break`, for at
most `fuel` rounds. -/
def findFrom (p : VfsMountpoint → Bool) : ℕ → Option ℕ → Vfs → Option (Option ℕ)
  | _, none, _ => some none
  | 0, some _, _ => none
  | fuel + 1, some m, σ =>
    (σ.mp? m).bind fun mp => if p mp then some (some m) else findFrom p fuel mp.nextMountpoint σ

/-- `vfs_file_to_mountpoint`. -/
def vfsFileToMountpoint (name : CString) (σ : Vfs) : Option (Option ℕ) :=
  findFrom (fun mp => flopstrncmp mp.mountPoint.2 name (flopstrlen mp.mountPoint.2) = 0) (σ.fresh + 1) σ.tail σ

/-- `vfs_create_mountpoint`, with `vfs_mp_struc_alloc` and the three that fill it in; the
fields are written when all of them are there, and none is read before. -/
def vfsCreateMountpoint (device mountPoint : CString) (type : ℤ) (σ : Vfs) : Option (Option ℕ × Vfs) :=
  match σ.kmalloc .text with
  | (none, σ) => some (none, σ)
  | (some i, σ) =>
    match σ.vfsFindFs type with
    | none => (σ.kfree i).map fun σ => (none, σ)
    | some fs =>
      match σ.kmalloc .text with
      | (none, σ) => (σ.kfree i).map fun σ => (none, σ)
      | (some s, σ) =>
        match σ.kmalloc .text with
        | (none, σ) => (σ.kfree s).bind fun σ => (σ.kfree i).map fun σ => (none, σ)
        | (some t, σ) => some (some i, σ.setMp i ⟨fs, none, (s, mountPoint), (t, device), none, 1⟩)

/-- `vfs_add_mountpoint`. -/
def vfsAddMountpoint (i : ℕ) (σ : Vfs) : Option Vfs :=
  match σ.tail with
  | none => ({ σ with tail := some i, head := some i } : Vfs).mpInc i
  | some t => (σ.mp? t).bind fun mp =>
      ({ σ.setMp t { mp with nextMountpoint := some i } with tail := some i } : Vfs).mpInc i

/-- `if (prev) prev->next_mountpoint = next; else mp_list.head = next`. -/
def linkAfter (prev next : Option ℕ) (σ : Vfs) : Option Vfs :=
  match prev with
  | none => some { σ with head := next }
  | some p => (σ.mp? p).map fun mp => σ.setMp p { mp with nextMountpoint := next }

/-- The loop of `vfs_remove_mountpoint`, at `m` after `prev`, for at most `fuel` rounds. -/
def unlinkFrom (i : ℕ) : ℕ → Option ℕ → Option ℕ → Vfs → Option Vfs
  | _, _, none, σ => some σ
  | 0, _, some _, _ => none
  | fuel + 1, prev, some m, σ =>
    (σ.mp? m).bind fun mp =>
      if m = i then
        (σ.linkAfter prev mp.nextMountpoint).map fun σ => if some i = σ.tail then { σ with tail := prev } else σ
      else unlinkFrom i fuel (some m) mp.nextMountpoint σ

/-- `vfs_remove_mountpoint`. -/
def vfsRemoveMountpoint (i : ℕ) (σ : Vfs) : Option Vfs :=
  (unlinkFrom i (σ.fresh + 1) none σ.head σ).bind fun σ => σ.mpPut i

/-- `vfs_mount`. -/
def vfsMount (device mountPoint : CString) (type : ℤ) (σ : Vfs) : Option (ℤ × Vfs) :=
  (σ.vfsCreateMountpoint device mountPoint type).bind fun o =>
    match o with
    | (none, σ) => some (-1, σ)
    | (some i, σ) => (σ.vfsAddMountpoint i).bind fun σ => (σ.mp? i).bind fun mp =>
        match mp.filesystem.opTable.opMount with
        | none => (σ.vfsRemoveMountpoint i).map fun σ => (-1, σ)
        | some mount =>
          let data := mount σ.clock
          let σ := σ.tick.setMp i { mp with dataPointer := data }
          if data = none then (σ.vfsRemoveMountpoint i).map fun σ => (-1, σ) else some (0, σ)

/-- `vfs_unmount`. -/
def vfsUnmount (mountPoint : CString) (σ : Vfs) : Option (ℤ × Vfs) :=
  if flopstrlen mountPoint + 1 > 256 then none
  else
    (findFrom (fun mp => flopstrcmp mp.mountPoint.2 mountPoint = 0) (σ.fresh + 1) σ.tail σ).bind fun found =>
      match found with
      | none => some (-1, σ)
      | some i => (σ.mp? i).bind fun mp =>
          match mp.filesystem.opTable.opUnmount with
          | none => some (-1, σ)
          | some _ => (σ.tick.vfsRemoveMountpoint i).map fun σ => (0, σ)

/-! ### Nodes -/

/-- `vfs_node_alloc`. -/
def vfsNodeAlloc (i mode : ℕ) (σ : Vfs) : Option (Option ℕ × Vfs) :=
  match σ.kmalloc (.node ⟨i, mode, 1⟩) with
  | (none, σ) => some (none, σ)
  | (some n, σ) => (σ.mpInc i).map fun σ => (some n, σ)

/-- `vfs_resolve_mountpoint_and_path`; the copy of the name stays allocated. -/
def vfsResolveMountpointAndPath (name : CString) (σ : Vfs) : Option (Option ℕ × Vfs) :=
  match σ.kmalloc .text with
  | (none, σ) => some (none, σ)
  | (some filename, σ) => (σ.vfsFileToMountpoint name).bind fun found =>
      match found with
      | none => (σ.kfree filename).map fun σ => (none, σ)
      | some i => some (some i, σ)

/-- A call of an operation of a table, `-1` when there is none. -/
def callOp (op : Option (ℕ → ℤ)) (σ : Vfs) : ℤ × Vfs :=
  match op with
  | none => (-1, σ)
  | some f => (f σ.clock, σ.tick)

/-- `vfs_try_open`, with the table of the mountpoint. -/
def vfsTryOpen (ops : VfsOpTbl) (σ : Vfs) : ℤ × Vfs :=
  callOp (ops.opOpen.map fun f k => if f k then 0 else -1) σ

/-- `vfs_create_file_if_needed`, with the table of the mountpoint. -/
def vfsCreateFileIfNeeded (ops : VfsOpTbl) (mode : ℕ) (σ : Vfs) : ℤ × Vfs :=
  if mode &&& 4 ≠ 4 then (0, σ) else callOp ops.opCreate σ

/-- `vfs_seek`, of a node that is there. -/
def vfsSeek (n : ℕ) (σ : Vfs) : Option (ℤ × Vfs) :=
  (σ.node? n).bind fun nd => (σ.mp? nd.mountpoint).map fun mp => callOp mp.filesystem.opTable.opSeek σ

/-- `vfs_seek_if_append`. -/
def vfsSeekIfAppend (n : ℕ) (σ : Vfs) : Option Vfs :=
  (σ.node? n).bind fun nd => if nd.vfsMode &&& 9 = 9 then (σ.vfsSeek n).map (·.2) else some σ

/-- `vfs_open`: the node, or `NULL`. -/
def vfsOpen (name : CString) (mode : ℕ) (σ : Vfs) : Option (Option ℕ × Vfs) :=
  (σ.vfsResolveMountpointAndPath name).bind fun o =>
    match o with
    | (none, σ) => some (none, σ)
    | (some i, σ) => (σ.vfsNodeAlloc i mode).bind fun o =>
        match o with
        | (none, σ) => some (none, σ)
        | (some n, σ) => (σ.mp? i).bind fun mp =>
            let (status, σ) := σ.vfsTryOpen mp.filesystem.opTable
            if status = 0 then (σ.vfsSeekIfAppend n).map fun σ => (some n, σ)
            else
              let (created, σ) := σ.vfsCreateFileIfNeeded mp.filesystem.opTable mode
              let (status, σ) := if created = 0 then σ.vfsTryOpen mp.filesystem.opTable else (-1, σ)
              if status = 0 then (σ.vfsSeekIfAppend n).map fun σ => (some n, σ)
              else (σ.mpPut i).bind fun σ => (σ.kfree n).map fun σ => (none, σ)

/-- `vfs_free_node`. -/
def vfsFreeNode (n : ℕ) (σ : Vfs) : Option (ℤ × Vfs) :=
  (σ.node? n).bind fun nd => (σ.mp? nd.mountpoint).bind fun mp =>
    let (errcode, σ) :=
      match mp.filesystem.opTable.opClose with
      | none => (0, σ)
      | some close => (close σ.clock, σ.tick)
    (σ.mpPut nd.mountpoint).bind fun σ => (σ.kfree n).map fun σ => (if errcode = 0 then -1 else errcode, σ)

/-- `vfs_close`, of a node that is not `NULL`. -/
def vfsClose (n : ℕ) (σ : Vfs) : Option (ℤ × Vfs) := (σ.vfsFreeNode n).map fun o => (0, o.2)

/-- `vfs_stat`, for pointers that are not `NULL`; the node is on the stack. -/
def vfsStat (path : CString) (σ : Vfs) : Option (ℤ × Vfs) :=
  (σ.vfsResolveMountpointAndPath path).bind fun o =>
    match o with
    | (none, σ) => some (-1, σ)
    | (some i, σ) => (σ.mp? i).map fun mp =>
        let (status, σ) := σ.vfsTryOpen mp.filesystem.opTable
        if status = 0 then
          match mp.filesystem.opTable.opStat with
          | none => (0, σ)
          | some stat => (stat σ.clock, σ.tick)
        else (-1, σ)

/-! ### Operations on paths -/

/-- `vfs_get_mountpoint_for_create`. -/
def vfsGetMountpointForCreate (name : CString) (σ : Vfs) : Option (Option ℕ × Vfs) :=
  if flopstrlen name + 1 > 256 then none
  else (σ.vfsFileToMountpoint name).bind fun found =>
    match found with
    | none => some (none, σ)
    | some i => (σ.mpInc i).map fun σ => (some i, σ)

/-- What `vfs_create`, `vfs_unlink`, `vfs_mkdir` and `vfs_rmdir` have in common: an operation
of the table, with the mountpoint held. -/
def vfsPathOp (op : VfsOpTbl → Option (ℕ → ℤ)) (name : CString) (σ : Vfs) : Option (ℤ × Vfs) :=
  (σ.vfsGetMountpointForCreate name).bind fun o =>
    match o with
    | (none, σ) => some (-1, σ)
    | (some i, σ) => (σ.mp? i).bind fun mp =>
        let (ret, σ) := σ.callOp (op mp.filesystem.opTable)
        (σ.mpPut i).map fun σ => (ret, σ)

/-- `vfs_create`. -/
def vfsCreate (name : CString) (σ : Vfs) : Option (ℤ × Vfs) := vfsPathOp (·.opCreate) name σ

/-- `vfs_unlink`. -/
def vfsUnlink (path : CString) (σ : Vfs) : Option (ℤ × Vfs) := vfsPathOp (·.opUnlink) path σ

/-- `vfs_mkdir`. -/
def vfsMkdir (path : CString) (σ : Vfs) : Option (ℤ × Vfs) := vfsPathOp (·.opMkdir) path σ

/-- `vfs_rmdir`. -/
def vfsRmdir (path : CString) (σ : Vfs) : Option (ℤ × Vfs) := vfsPathOp (·.opRmdir) path σ

end Vfs

/-! ### Runs -/

/-- A call of the virtual file system; `close k` closes the `k`-th of the open nodes. -/
inductive VfsCall
  | mount (device mountPoint : CString) (type : ℤ)
  | unmount (mountPoint : CString)
  | vopen (name : CString) (mode : ℕ)
  | close (k : ℕ)
  | create (name : CString)
  | unlink (path : CString)
  | mkdir (path : CString)
  | rmdir (path : CString)
  | stat (path : CString)

/-- One call; beside the state, the nodes that have been opened and not closed. -/
def VfsCall.step : VfsCall → Vfs × List ℕ → Option (Vfs × List ℕ)
  | mount device mountPoint type, (σ, opens) => (σ.vfsMount device mountPoint type).map fun o => (o.2, opens)
  | unmount mountPoint, (σ, opens) => (σ.vfsUnmount mountPoint).map fun o => (o.2, opens)
  | vopen name mode, (σ, opens) => (σ.vfsOpen name mode).map fun o => (o.2, o.1.toList ++ opens)
  | close k, (σ, opens) =>
    match opens[k]? with
    | none => some (σ, opens)
    | some n => (σ.vfsClose n).map fun o => (o.2, opens.eraseIdx k)
  | create name, (σ, opens) => (σ.vfsCreate name).map fun o => (o.2, opens)
  | unlink path, (σ, opens) => (σ.vfsUnlink path).map fun o => (o.2, opens)
  | mkdir path, (σ, opens) => (σ.vfsMkdir path).map fun o => (o.2, opens)
  | rmdir path, (σ, opens) => (σ.vfsRmdir path).map fun o => (o.2, opens)
  | stat path, (σ, opens) => (σ.vfsStat path).map fun o => (o.2, opens)

/-- A name that is copied to the stack fits there. -/
def VfsCall.Short : VfsCall → Prop
  | unmount path | create path | unlink path | mkdir path | rmdir path => flopstrlen path < 256
  | mount _ _ _ | vopen _ _ | close _ | stat _ => True

/-- Calls one after the other. -/
def vfsRun : List VfsCall → Vfs × List ℕ → Option (Vfs × List ℕ)
  | [], s => some s
  | c :: calls, s => (c.step s).bind (vfsRun calls)

end Flopperating
