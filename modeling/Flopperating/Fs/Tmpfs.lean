/-
# Files of `tmpflopfs`

`tmpfs_op_read`, `tmpfs_op_write` and `tmpfs_op_seek` of `src/fs/tmpflopfs/tmpflopfs.c`.
The content of a file is in pages, which a write gets from `pmm_alloc_pages` as it needs
them, and the read and write position is in the node.

| source | here |
| --- | --- |
| `struct tmpfs_node`, `node->stat.st_size` | `TmpfsFile` |
| what `pmm_alloc_pages(0, 1)` returns, call after call | `supply` |
| whether `kmalloc` returns memory for the pointers | argument `kmalloc` |
| a page pointer that is not there is followed | `TmpfsFault.outOfBounds` |

`offset` and `size` have 64 bits, `unsigned long` has 32.
-/

import Flopperating.Machine
import Flopperating.Data.ByteFile
import Mathlib.Data.UInt
import Mathlib.Logic.Function.Basic

namespace Flopperating

open ByteFile

/-- Why an operation does not return. -/
inductive TmpfsFault
  | noMemory
  | outOfBounds
  deriving DecidableEq

/-- What the operations use of a `struct tmpfs_node`, the size in `node->stat`, and the
memory: the byte at each offset of a page, and the pages that will be allocated. -/
structure TmpfsFile where
  size : ℕ
  offset : ℕ
  pages : List ℕ
  pageCount : ℕ
  stSize : ℕ
  mem : ℕ → ℕ → UInt8
  supply : List ℕ

/-- A node of `tmpfs_node_internal_create`. -/
def TmpfsFile.new (mem : ℕ → ℕ → UInt8) (supply : List ℕ) : TmpfsFile := ⟨0, 0, [], 0, 0, mem, supply⟩

/-- The number of bytes that a round of a copy loop moves, of `left`: no more than there are
up to the end of the page. -/
def tmpfsChunk (t : TmpfsFile) (left : ℕ) : ℕ := min (pageSize - t.offset % pageSize) left

theorem tmpfsChunk_pos (t : TmpfsFile) {left : ℕ} (h : left ≠ 0) : 0 < tmpfsChunk t left := by
  have : t.offset % pageSize < pageSize := Nat.mod_lt _ (by decide)
  unfold tmpfsChunk
  omega

theorem tmpfsChunk_le (t : TmpfsFile) (left : ℕ) : tmpfsChunk t left ≤ left := Nat.min_le_right _ _

/-- The loop of `tmpfs_op_read`, with `left` bytes to go. -/
def tmpfsReadFrom (left : ℕ) (t : TmpfsFile) : Except TmpfsFault (List UInt8 × TmpfsFile) :=
  if left = 0 then .ok ([], t)
  else
    let pIdx := u32 (t.offset / pageSize)
    let pOff := t.offset % pageSize
    match t.pages[pIdx]? with
    | none => .error .outOfBounds
    | some pa =>
      (tmpfsReadFrom (left - tmpfsChunk t left) { t with offset := u64 (t.offset + tmpfsChunk t left) }).map
        fun o => (slice (t.mem pa) pOff (tmpfsChunk t left) ++ o.1, o.2)
termination_by left
decreasing_by
  have := tmpfsChunk_pos t ‹_›
  omega

/-- `tmpfs_op_read`: the value returned, and what is in the buffer. -/
def tmpfsOpRead (size : ℕ) (t : TmpfsFile) : Except TmpfsFault ((ℤ × List UInt8) × TmpfsFile) :=
  if t.offset ≥ t.size then .ok ((0, []), t)
  else
    let size := if u64 (t.offset + size) > t.size then u32 (t.size - t.offset) else size
    (tmpfsReadFrom size t).map fun o => ((toInt size, o.1), o.2)

/-- The loop that allocates pages and clears them. -/
def tmpfsAllocPages : ℕ → TmpfsFile → Except TmpfsFault (List ℕ × TmpfsFile)
  | 0, t => .ok ([], t)
  | n + 1, t =>
    match t.supply with
    | [] => .error .noMemory
    | pa :: supply =>
      (tmpfsAllocPages n { t with supply := supply, mem := Function.update t.mem pa fun _ => 0 }).map
        fun o => (pa :: o.1, o.2)

/-- The part of `tmpfs_op_write` that makes room for `needed` pages. -/
def tmpfsGrow (kmalloc : Bool) (needed : ℕ) (t : TmpfsFile) : Except TmpfsFault TmpfsFile :=
  if needed > t.pageCount then
    if kmalloc then (tmpfsAllocPages (needed - t.pageCount) t).map fun o =>
      { o.2 with pages := t.pages.take t.pageCount ++ o.1, pageCount := needed }
    else .error .noMemory
  else .ok t

/-- The loop of `tmpfs_op_write`, with the bytes `rest` to go. -/
def tmpfsWriteFrom (rest : List UInt8) (t : TmpfsFile) : Except TmpfsFault TmpfsFile :=
  if rest.length = 0 then .ok t
  else
    let pIdx := u32 (t.offset / pageSize)
    let pOff := t.offset % pageSize
    match t.pages[pIdx]? with
    | none => .error .outOfBounds
    | some pa => tmpfsWriteFrom (rest.drop (tmpfsChunk t rest.length))
        { t with
          mem := Function.update t.mem pa (overwrite (t.mem pa) pOff (rest.take (tmpfsChunk t rest.length)))
          offset := u64 (t.offset + tmpfsChunk t rest.length) }
termination_by rest.length
decreasing_by
  have := tmpfsChunk_pos t ‹_›
  rw [List.length_drop]
  omega

/-- The end of `tmpfs_op_write`: the size, in the node and in its `stat`. -/
def tmpfsSetSize (t : TmpfsFile) : TmpfsFile :=
  let t := if t.offset > t.size then { t with size := t.offset } else t
  { t with stSize := t.size }

/-- `tmpfs_op_write`: the value returned. -/
def tmpfsOpWrite (kmalloc : Bool) (buf : List UInt8) (t : TmpfsFile) : Except TmpfsFault (ℤ × TmpfsFile) :=
  let stop := u32 (t.offset + buf.length)
  let needed := u32 (stop + pageSize - 1) / pageSize
  (tmpfsGrow kmalloc needed t).bind fun t =>
    (tmpfsWriteFrom buf t).map fun t => (toInt (u32 buf.length), tmpfsSetSize t)

/-- `tmpfs_op_seek`, where `whence` may be any byte. -/
def tmpfsOpSeek (offset whence : ℕ) (t : TmpfsFile) : ℤ × TmpfsFile :=
  (0, if whence = 0 then { t with offset := offset }
    else if whence = 1 then { t with offset := u64 (t.offset + offset) }
    else if whence = 2 then { t with offset := u64 (t.size + offset) }
    else t)

/-- An operation on a file; of a write also whether `kmalloc` has memory. -/
inductive TmpfsOp
  | write (kmalloc : Bool) (buf : List UInt8)
  | read (n : ℕ)
  | seek (offset whence : ℕ)

/-- One operation: the value returned, the bytes read, and the file. -/
def TmpfsOp.run : TmpfsOp → TmpfsFile → Except TmpfsFault ((ℤ × List UInt8) × TmpfsFile)
  | write kmalloc buf, t => (tmpfsOpWrite kmalloc buf t).map fun o => ((o.1, []), o.2)
  | read n, t => tmpfsOpRead n t
  | seek offset whence, t => .ok (((tmpfsOpSeek offset whence t).1, []), (tmpfsOpSeek offset whence t).2)

/-- Operations one after the other. -/
def tmpfsRun : List TmpfsOp → TmpfsFile → Except TmpfsFault (List (ℤ × List UInt8) × TmpfsFile)
  | [], t => .ok ([], t)
  | op :: ops, t => (op.run t).bind fun o => (tmpfsRun ops o.2).map fun o' => (o.1 :: o'.1, o'.2)

/-! ### What a file is for -/

/-- Where `tmpfs_op_seek` is to put the cursor. -/
def seekTarget (offset whence : ℕ) (f : ByteFile UInt8) : ℕ :=
  if whence = 0 then offset else if whence = 1 then f.cursor + offset
  else if whence = 2 then f.size + offset else f.cursor

/-- What an operation is to return and to do. -/
def TmpfsOp.spec : TmpfsOp → ByteFile UInt8 → (ℤ × List UInt8) × ByteFile UInt8
  | write _ buf, f => ((buf.length, []), f.write buf)
  | read n, f => (((f.read n).1.length, (f.read n).1), (f.read n).2)
  | seek offset whence, f => ((0, []), f.seek (seekTarget offset whence f))

def specRun : List TmpfsOp → ByteFile UInt8 → List (ℤ × List UInt8) × ByteFile UInt8
  | [], f => ([], f)
  | op :: ops, f => ((op.spec f).1 :: (specRun ops (op.spec f).2).1, (specRun ops (op.spec f).2).2)

/-- Lengths and offsets are words, and `offset + size` stays below `2 ^ 32`. -/
def TmpfsOp.InDomain (f : ByteFile UInt8) : TmpfsOp → Prop
  | write _ buf => f.cursor + buf.length < 2 ^ 32
  | read n => f.cursor + n < 2 ^ 32
  | seek offset whence => offset < 2 ^ 32 ∧ seekTarget offset whence f < 2 ^ 32

/-- Besides, a write stays below the last page, where the rounding of `needed` overflows,
and the number of bytes that is returned is an `int`. -/
def TmpfsOp.Fits (f : ByteFile UInt8) : TmpfsOp → Prop
  | write _ buf => f.cursor + buf.length ≤ 2 ^ 32 - pageSize ∧ buf.length < 2 ^ 31
  | read n => f.cursor + n < 2 ^ 32 ∧ min n (f.size - f.cursor) < 2 ^ 31
  | seek offset whence => offset < 2 ^ 32 ∧ seekTarget offset whence f < 2 ^ 32

/-- Every operation of a run meets a condition on the file it finds. -/
def Throughout (P : ByteFile UInt8 → TmpfsOp → Prop) : List TmpfsOp → ByteFile UInt8 → Prop
  | [], _ => True
  | op :: ops, f => P f op ∧ Throughout P ops (op.spec f).2

/-- The bytes of the pages are the bytes of the array. -/
def Content (t : TmpfsFile) (b : ℕ → UInt8) : Prop :=
  ∀ i pa, t.pages[i / pageSize]? = some pa → t.mem pa (i % pageSize) = b i

/-- The node and its pages stand for the array; the pages cover what has been written. -/
structure Represents (t : TmpfsFile) (f : ByteFile UInt8) : Prop where
  size : t.size = f.size
  offset : t.offset = f.cursor
  stat : t.stSize = f.size
  count : t.pageCount = t.pages.length
  nodup : (t.pages ++ t.supply).Nodup
  content : Content t f.byte
  blank : ∀ i, t.pageCount * pageSize ≤ i → f.byte i = 0
  covers : f.size ≤ t.pageCount * pageSize
  bound : t.pageCount * pageSize ≤ 2 ^ 32 - pageSize

theorem represents_new {mem : ℕ → ℕ → UInt8} {supply : List ℕ} (h : supply.Nodup) :
    Represents (.new mem supply) .empty where
  size := rfl
  offset := rfl
  stat := rfl
  count := rfl
  nodup := h
  content i pa hpa := absurd hpa (by simp [TmpfsFile.new])
  blank _ _ := rfl
  covers := Nat.zero_le _
  bound := show 0 * pageSize ≤ 2 ^ 32 - pageSize by decide

end Flopperating
