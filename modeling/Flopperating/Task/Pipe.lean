/-
# Pipes

`src/task/ipc/pipe.c`, and the counts of `src/lib/refcount.h`.  The functions take the lock of
the pipe for a round of their loop, so a round is one step here; `pipe_write` and `pipe_read`
are the sequence of the rounds, between which other calls may have theirs.

| source | here |
| --- | --- |
| `pipe_t`, without its lock | `Pipe` |
| a round of the loop of `pipe_write`, `pipe_read` | `pipeWriteRound`, `pipeReadRound` |
| `proc_get_current()->state == TERMINATED` | argument `terminated` |
| `sizeof(pipe->data)` | `pipeSize` |
-/

import Flopperating.Machine
import Flopperating.Data.RingQueue
import Mathlib.Data.UInt

namespace Flopperating

/-! ### Reference counts -/

/-- `refcount_inc_not_zero` of an `atomic_uint`: whether there was a reference, and the count. -/
def refcountIncNotZero (n : ℕ) : Bool × ℕ := if n = 0 then (false, 0) else (true, u32 (n + 1))

/-- `refcount_dec_and_test`: whether the count has dropped to zero, and the count. -/
def refcountDecAndTest (n : ℕ) : Bool × ℕ := if n = 0 then (false, 0) else (n - 1 = 0, n - 1)

/-! ### The pipe -/

abbrev pipeSize : ℕ := 512

/-- `struct pipe`. -/
structure Pipe where
  readBytes : ℕ
  writeBytes : ℕ
  readRefs : ℕ
  writeRefs : ℕ
  readFdOpen : Bool
  writeFdOpen : Bool
  data : ℕ → UInt8

/-- `pipe_init`, of memory with `data` in it. -/
def pipeInit (data : ℕ → UInt8) : Pipe := ⟨0, 0, 1, 1, true, true, data⟩

/-- `pipe_close`: whether the pipe is freed, and what is in its memory. -/
def pipeClose (write : Bool) (p : Pipe) : Bool × Pipe :=
  let p := if write then { p with writeFdOpen := false, writeRefs := (refcountDecAndTest p.writeRefs).2 }
    else { p with readFdOpen := false, readRefs := (refcountDecAndTest p.readRefs).2 }
  (!p.readFdOpen && !p.writeFdOpen && p.readRefs = 0 && p.writeRefs = 0, p)

/-- `pipe_dup_read`. -/
def pipeDupRead (p : Pipe) : Bool × Pipe :=
  ((refcountIncNotZero p.readRefs).1, { p with readRefs := (refcountIncNotZero p.readRefs).2 })

/-- `pipe_dup_write`. -/
def pipeDupWrite (p : Pipe) : Bool × Pipe :=
  ((refcountIncNotZero p.writeRefs).1, { p with writeRefs := (refcountIncNotZero p.writeRefs).2 })

/-- How a round ends: with a byte moved, with `sched_yield`, or with the call. -/
inductive PipeRound
  | moved (byte : UInt8) (p : Pipe)
  | yields
  | returns (ret : ℤ)

/-- A round of `pipe_write`, which has `byte` to write next and has written `written`. -/
def pipeWriteRound (terminated : Bool) (byte : UInt8) (written : ℕ) (p : Pipe) : PipeRound :=
  let w := p.writeBytes % pipeSize
  let r := p.readBytes % pipeSize
  if (w + 1) % pipeSize = r then
    if p.readFdOpen = false ∨ p.readRefs = 0 ∨ terminated then .returns (if written ≠ 0 then written else -1) else .yields
  else .moved byte { p with data := Function.update p.data w byte, writeBytes := u32 (p.writeBytes + 1) }

/-- A round of `pipe_read`, which has read `n` bytes. -/
def pipeReadRound (terminated : Bool) (n : ℕ) (p : Pipe) : PipeRound :=
  if p.readBytes = p.writeBytes ∧ p.writeRefs > 0 then
    if terminated then .returns (if n ≠ 0 then n else -1) else .yields
  else if p.readBytes = p.writeBytes ∧ p.writeRefs = 0 then .returns n
  else .moved (p.data (p.readBytes % pipeSize)) { p with readBytes := u32 (p.readBytes + 1) }

/-! ### Concurrent calls -/

/-- A call of `pipe_write` or `pipe_read`: how many bytes it has moved, and what it has
returned. -/
structure PipeCall where
  write : Bool
  addr : ℕ → UInt8
  len : ℤ
  moved : ℕ
  ret : Option ℤ

/-- The pipe with all calls, and the bytes that have been put in and taken out, each with the
number of the call. -/
structure PipeSys where
  pipe : Pipe
  calls : List PipeCall
  put : List (ℕ × UInt8)
  taken : List (ℕ × UInt8)

/-- What may happen: a call begins, a call has a round, or other operations change the
references and flags. -/
inductive PipeEvent
  | write (addr : ℕ → UInt8) (len : ℤ)
  | read (addr : ℕ → UInt8) (len : ℤ)
  | round (i : ℕ) (terminated : Bool)
  | refs (readRefs writeRefs : ℕ) (readFdOpen writeFdOpen : Bool)

/-- A round of the call, which goes on while it has moved less than `len` bytes. -/
def PipeCall.round (terminated : Bool) (c : PipeCall) (p : Pipe) : PipeRound :=
  if c.moved < c.len then
    if c.write then pipeWriteRound terminated (c.addr c.moved) c.moved p else pipeReadRound terminated c.moved p
  else .returns c.moved

/-- The byte has been moved: a reader has it in its buffer. -/
def PipeCall.next (byte : UInt8) (c : PipeCall) : PipeCall :=
  { c with moved := c.moved + 1, addr := if c.write then c.addr else Function.update c.addr c.moved byte }

def PipeEvent.step : PipeEvent → PipeSys → PipeSys
  | write addr len, s => { s with calls := s.calls ++ [⟨true, addr, len, 0, none⟩] }
  | read addr len, s => { s with calls := s.calls ++ [⟨false, addr, len, 0, none⟩] }
  | round i terminated, s =>
    match s.calls[i]? with
    | none => s
    | some c =>
      if c.ret.isSome then s
      else
        match c.round terminated s.pipe with
        | .yields => s
        | .returns v => { s with calls := s.calls.set i { c with ret := some v } }
        | .moved byte p =>
          { pipe := p
            calls := s.calls.set i (c.next byte)
            put := if c.write then s.put ++ [(i, byte)] else s.put
            taken := if c.write then s.taken else s.taken ++ [(i, byte)] }
  | refs readRefs writeRefs readFdOpen writeFdOpen, s => { s with
      pipe := { s.pipe with
        readRefs := readRefs
        writeRefs := writeRefs
        readFdOpen := readFdOpen
        writeFdOpen := writeFdOpen } }

/-- What has happened one after the other, to a pipe of `pipe_init`. -/
def pipeRun (data : ℕ → UInt8) (events : List PipeEvent) : PipeSys :=
  events.foldl (fun s e => e.step s) ⟨pipeInit data, [], [], []⟩

/-! ### References -/

/-- An operation on the references of a pipe. -/
inductive PipeOp
  | dupRead
  | dupWrite
  | close (write : Bool)

/-- The memory of a pipe, the references that are held on either end, and how often it has
been freed. -/
structure PipeLife where
  pipe : Pipe
  heldRead : ℕ
  heldWrite : ℕ
  frees : ℕ

/-- A reference more is held when the call says so, and one less after a close. -/
def PipeOp.step : PipeOp → PipeLife → PipeLife
  | dupRead, s => { s with
      pipe := (pipeDupRead s.pipe).2
      heldRead := if (pipeDupRead s.pipe).1 then s.heldRead + 1 else s.heldRead }
  | dupWrite, s => { s with
      pipe := (pipeDupWrite s.pipe).2
      heldWrite := if (pipeDupWrite s.pipe).1 then s.heldWrite + 1 else s.heldWrite }
  | close write, s =>
    { pipe := (pipeClose write s.pipe).2
      heldRead := if write then s.heldRead else s.heldRead - 1
      heldWrite := if write then s.heldWrite - 1 else s.heldWrite
      frees := if (pipeClose write s.pipe).1 then s.frees + 1 else s.frees }

/-- After `pipe_init` each end has one reference. -/
def PipeLife.init (data : ℕ → UInt8) : PipeLife := ⟨pipeInit data, 1, 1, 0⟩

def PipeLife.run (ops : List PipeOp) (s : PipeLife) : PipeLife := ops.foldl (fun s op => op.step s) s

/-- A close drops a reference that is still held. -/
def PipeOp.Held : PipeOp → PipeLife → Prop
  | close true, s => 0 < s.heldWrite
  | close false, s => 0 < s.heldRead
  | _, _ => True

/-- A dup does not make `2 ^ 32` references of an end. -/
def PipeOp.Room : PipeOp → PipeLife → Prop
  | dupRead, s => s.heldRead + 1 < 2 ^ 32
  | dupWrite, s => s.heldWrite + 1 < 2 ^ 32
  | _, _ => True

/-- Every operation of a run meets a condition on the state that it finds. -/
def PipeLife.Along (P : PipeOp → PipeLife → Prop) : List PipeOp → PipeLife → Prop
  | [], _ => True
  | op :: ops, s => P op s ∧ PipeLife.Along P ops (op.step s)

end Flopperating
