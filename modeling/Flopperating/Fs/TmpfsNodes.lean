/-
# Open nodes of one file

`vfs_open`, `vfs_close`, `vfs_read`, `vfs_write` and `vfs_seek` of `src/fs/vfs/vfs.c`, on any
number of nodes that have been opened for one file of `tmpflopfs`.  A `struct vfs_node` has its
own `vfs_mode`, and no position: `tmpfs_op_open` points it to the `struct tmpfs_node`, where
the position is.  So the nodes together do what an array with one cursor does
(`nodes_share_cursor`).
-/

import Flopperating.Fs.TmpfsTruncate

namespace Flopperating

open ByteFile TmpfsFile

/-- `VFS_MODE_APPEND`, as `vfs_seek_if_append` tests it. -/
def appends (mode : ℕ) : Prop := mode &&& 9 = 9

instance (mode : ℕ) : Decidable (appends mode) := inferInstanceAs (Decidable (_ = _))

/-- An operation on the `k`-th node, or a node more. -/
inductive NodeOp
  | vopen (mode : ℕ)
  | close (k : ℕ)
  | read (k n : ℕ)
  | write (k : ℕ) (kmalloc : Bool) (buf : List UInt8)
  | seek (k offset whence : ℕ)

/-- `vfs_seek(node, 0, VFS_SEEK_END)` for a node that appends. -/
def vfsSeekAppend (mode : ℕ) (t : TmpfsFile) : TmpfsFile := if appends mode then (tmpfsOpSeek 0 2 t).2 else t

/-- `vfs_read`. -/
def vfsReadNode (mode n : ℕ) (t : TmpfsFile) : Except TmpfsFault ((ℤ × List UInt8) × TmpfsFile) :=
  if mode &&& 1 ≠ 1 then .ok ((-1, []), t) else tmpfsOpRead n t

/-- `vfs_write`. -/
def vfsWriteNode (mode : ℕ) (kmalloc : Bool) (buf : List UInt8) (t : TmpfsFile) : Except TmpfsFault (ℤ × TmpfsFile) :=
  if mode &&& 2 ≠ 2 then .ok (-1, t)
  else (tmpfsOpWrite kmalloc buf t).map fun o => if o.1 ≠ -1 then (o.1, vfsSeekAppend mode o.2) else (-1, o.2)

/-- One operation; the nodes that are open come with their modes. -/
def NodeOp.run : NodeOp → TmpfsFile × List ℕ → Except TmpfsFault ((ℤ × List UInt8) × (TmpfsFile × List ℕ))
  | vopen mode, (t, nodes) => .ok ((0, []), (vfsSeekAppend mode t, nodes ++ [mode]))
  | close k, (t, nodes) => .ok ((0, []), (t, nodes.eraseIdx k))
  | read k n, (t, nodes) =>
    match nodes[k]? with
    | none => .ok ((-1, []), (t, nodes))
    | some mode => (vfsReadNode mode n t).map fun o => (o.1, (o.2, nodes))
  | write k kmalloc buf, (t, nodes) =>
    match nodes[k]? with
    | none => .ok ((-1, []), (t, nodes))
    | some mode => (vfsWriteNode mode kmalloc buf t).map fun o => ((o.1, []), (o.2, nodes))
  | seek k offset whence, (t, nodes) =>
    match nodes[k]? with
    | none => .ok ((-1, []), (t, nodes))
    | some _ => .ok (((tmpfsOpSeek offset whence t).1, []), ((tmpfsOpSeek offset whence t).2, nodes))

/-- Operations one after the other, on whatever nodes. -/
def nodesRun : List NodeOp → TmpfsFile × List ℕ → Except TmpfsFault (List (ℤ × List UInt8) × (TmpfsFile × List ℕ))
  | [], s => .ok ([], s)
  | op :: ops, s => (op.run s).bind fun o => (nodesRun ops o.2).map fun o' => (o.1 :: o'.1, o'.2)

/-! ### One cursor -/

/-- Where a node that appends puts the cursor. -/
def seekAppend (mode : ℕ) (f : ByteFile UInt8) : ByteFile UInt8 := if appends mode then f.seek f.size else f

/-- What an operation returns and does, on an array with one cursor for all nodes. -/
def NodeOp.spec : NodeOp → ByteFile UInt8 × List ℕ → (ℤ × List UInt8) × (ByteFile UInt8 × List ℕ)
  | vopen mode, (f, nodes) => ((0, []), (seekAppend mode f, nodes ++ [mode]))
  | close k, (f, nodes) => ((0, []), (f, nodes.eraseIdx k))
  | read k n, (f, nodes) =>
    match nodes[k]? with
    | none => ((-1, []), (f, nodes))
    | some mode =>
      if mode &&& 1 ≠ 1 then ((-1, []), (f, nodes)) else (((f.read n).1.length, (f.read n).1), ((f.read n).2, nodes))
  | write k _ buf, (f, nodes) =>
    match nodes[k]? with
    | none => ((-1, []), (f, nodes))
    | some mode =>
      if mode &&& 2 ≠ 2 then ((-1, []), (f, nodes)) else ((buf.length, []), (seekAppend mode (f.write buf), nodes))
  | seek k offset whence, (f, nodes) =>
    match nodes[k]? with
    | none => ((-1, []), (f, nodes))
    | some _ => ((0, []), (f.seek (seekTarget offset whence f), nodes))

def nodesSpec : List NodeOp → ByteFile UInt8 × List ℕ → List (ℤ × List UInt8) × (ByteFile UInt8 × List ℕ)
  | [], s => ([], s)
  | op :: ops, s => ((op.spec s).1 :: (nodesSpec ops (op.spec s).2).1, (nodesSpec ops (op.spec s).2).2)

/-- What reaches the file is as it has to be there. -/
def NodeOp.Ok : NodeOp → TmpfsFile → Prop
  | vopen _, _ | close _, _ => True
  | read _ n, t => (TmpfsCall.op (.read n)).Ok t
  | write _ kmalloc buf, t => (TmpfsCall.op (.write kmalloc buf)).Ok t
  | seek _ offset whence, t => (TmpfsCall.op (.seek offset whence)).Ok t

/-- Every operation of a run meets the condition. -/
def NodesMeet : List NodeOp → TmpfsFile × List ℕ → Prop
  | [], _ => True
  | op :: ops, s => op.Ok s.1 ∧ ∀ o s', op.run s = .ok (o, s') → NodesMeet ops s'

variable {t t' : TmpfsFile} {f : ByteFile UInt8} {mode k n : ℕ} {nodes : List ℕ}

/-- A seek to the end is in the range. -/
theorem TmpfsFile.Stands.seekAppend (h : Stands t f) (mode : ℕ) : Stands (vfsSeekAppend mode t) (seekAppend mode f) := by
  unfold vfsSeekAppend Flopperating.seekAppend
  split
  · have hok : (TmpfsCall.op (.seek 0 2)).Ok t := by
      obtain ⟨t', g, ht, hrep, -⟩ := h
      have hfile := hrep.file ht
      have hcovers := hrep.covers
      have hbound := hrep.bound
      refine ⟨by decide, ?_⟩
      rw [hfile]
      change g.size + 0 < 2 ^ 32
      simp only [pageSize] at *
      omega
    rcases TmpfsOp.stands h hok with herror | ⟨t₁, hrun, h₁⟩
    · exact absurd herror (by simp [TmpfsOp.run])
    · obtain ⟨-, rfl⟩ := Prod.mk.inj (Except.ok.inj hrun)
      exact h₁
  · exact h

theorem NodeOp.run_spec (op : NodeOp) (h : Stands t f) (hok : op.Ok t) : op.run (t, nodes) = .error .noMemory ∨
    ∃ t', op.run (t, nodes) = .ok ((op.spec (f, nodes)).1, (t', (op.spec (f, nodes)).2.2)) ∧
      Stands t' (op.spec (f, nodes)).2.1 := by
  cases op with
  | vopen mode => exact .inr ⟨_, rfl, h.seekAppend mode⟩
  | close k => exact .inr ⟨t, rfl, h⟩
  | read k n =>
    have hok : (TmpfsCall.op (.read n)).Ok t := hok
    rw [run, spec]
    rcases nodes[k]? with - | mode
    · exact .inr ⟨t, rfl, h⟩
    · dsimp only
      rw [vfsReadNode]
      split
      · exact .inr ⟨t, rfl, h⟩
      · rcases TmpfsOp.stands h hok with herror | ⟨t₁, hrun, h₁⟩
        · have herror : tmpfsOpRead n t = .error .noMemory := herror
          exact .inl (by rw [herror]; rfl)
        · have hrun : tmpfsOpRead n t = .ok (_, t₁) := hrun
          exact .inr ⟨t₁, by rw [hrun]; rfl, h₁⟩
  | write k kmalloc buf =>
    have hok : (TmpfsCall.op (.write kmalloc buf)).Ok t := hok
    rw [run, spec]
    rcases nodes[k]? with - | mode
    · exact .inr ⟨t, rfl, h⟩
    · dsimp only
      rw [vfsWriteNode]
      split
      · exact .inr ⟨t, rfl, h⟩
      · have hwrite := TmpfsOp.stands h hok
        rw [TmpfsOp.run, TmpfsOp.spec] at hwrite
        rcases hrun : tmpfsOpWrite kmalloc buf t with e | ⟨r, t₁⟩
        · rw [hrun] at hwrite
          rcases hwrite with herror | ⟨t₂, hno, -⟩
          · exact .inl (by rw [Except.error.inj herror]; rfl)
          · exact absurd hno (by simp [Except.map])
        · rw [hrun] at hwrite
          rcases hwrite with herror | ⟨t₂, hwritten, h₂⟩
          · exact absurd herror (by simp [Except.map])
          · obtain ⟨hr, rfl⟩ := Prod.mk.inj (Except.ok.inj hwritten)
            obtain rfl : r = buf.length := (Prod.mk.inj hr).1
            refine .inr ⟨_, ?_, h₂.seekAppend mode⟩
            have hne : (buf.length : ℤ) ≠ -1 := by omega
            simp only [Except.map, if_pos hne]
  | seek k offset whence =>
    have hok : (TmpfsCall.op (.seek offset whence)).Ok t := hok
    rw [run, spec]
    rcases nodes[k]? with - | mode
    · exact .inr ⟨t, rfl, h⟩
    · rcases TmpfsOp.stands h hok with herror | ⟨t₁, hrun, h₁⟩
      · exact absurd herror (by simp [TmpfsOp.run])
      · obtain ⟨hret, rfl⟩ := Prod.mk.inj (Except.ok.inj hrun)
        exact .inr ⟨_, rfl, h₁⟩

/-- **One cursor.**  What any number of nodes of a file return, opened, used and closed in any
order, is what an array with one cursor returns: an operation through one of them moves the
position at which all of them read and write next, and a node that has just been opened, and
does not append, starts where the operation before has left it. -/
theorem nodes_share_cursor (ops : List NodeOp) (h : Stands t f) (hok : NodesMeet ops (t, nodes)) :
    nodesRun ops (t, nodes) = .error .noMemory ∨
      ∃ t', nodesRun ops (t, nodes) = .ok ((nodesSpec ops (f, nodes)).1, (t', (nodesSpec ops (f, nodes)).2.2)) ∧
        Stands t' (nodesSpec ops (f, nodes)).2.1 := by
  induction ops generalizing t f nodes with
  | nil => exact .inr ⟨t, rfl, h⟩
  | cons op ops ih =>
    obtain ⟨hop, hrest⟩ := hok
    rcases op.run_spec h hop with herror | ⟨t₁, hrun, h₁⟩
    · exact .inl (by rw [nodesRun, herror]; rfl)
    · rcases ih h₁ (hrest _ _ hrun) with herror | ⟨t₂, hrun₂, h₂⟩
      · exact .inl (by rw [nodesRun, hrun, Except.bind, herror]; rfl)
      · exact .inr ⟨t₂, by rw [nodesRun, hrun, Except.bind, hrun₂]; rfl, h₂⟩

theorem nodes_share_cursor_two :
    nodesRun [.vopen 3, .vopen 3, .seek 0 5 0] (.new (fun _ _ => 0) [0x1000], []) = .error .noMemory ∨
      ∃ t', nodesRun [.vopen 3, .vopen 3, .seek 0 5 0] (.new (fun _ _ => 0) [0x1000], []) =
          .ok ((nodesSpec [.vopen 3, .vopen 3, .seek 0 5 0] (.empty, [])).1,
            (t', (nodesSpec [.vopen 3, .vopen 3, .seek 0 5 0] (.empty, [])).2.2)) ∧
        Stands t' (nodesSpec [.vopen 3, .vopen 3, .seek 0 5 0] (.empty, [])).2.1 :=
  nodes_share_cursor _ (stands_new _ (by decide)) ⟨trivial, fun _ _ _ => ⟨trivial, fun _ _ _ =>
    ⟨⟨by decide, show 5 < 2 ^ 32 by decide⟩, fun _ _ _ => trivial⟩⟩⟩

/-- A seek through the first of two nodes, and the second writes at `5`. -/
theorem not_nodes_independent : ¬ ∀ (mem : ℕ → ℕ → UInt8) (supply : List ℕ) (ops : List NodeOp)
    (outs : List (ℤ × List UInt8)) (s s' : TmpfsFile × List ℕ) (k offset whence : ℕ) (o : ℤ × List UInt8),
    supply.Nodup → nodesRun ops (.new mem supply, []) = .ok (outs, s) → 2 ≤ s.2.length →
      (NodeOp.seek k offset whence).run s = .ok (o, s') → s'.1.offset = s.1.offset := by
  intro hall
  have hsame := hall (fun _ _ => 0) [] [.vopen 3, .vopen 3] _ _ _ 0 5 0 _ List.nodup_nil rfl (by decide) rfl
  exact absurd hsame (by decide)

end Flopperating
