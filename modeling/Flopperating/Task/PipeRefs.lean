/-
# When a pipe is freed

While fewer than `2 ^ 32` references of each end are held the counts are the numbers of
references, and an end whose count is zero has been closed (`PipeLife.Counts`).  The close that
lets go of the last reference of both ends frees the pipe, and no other one does.

`refcount_inc_not_zero` adds one to an `atomic_uint`: with `2 ^ 32` references of an end its
count is zero, and a close frees the pipe with all but one of them held
(`not_pipe_freed_once`).
-/

import Flopperating.Task.Pipe

namespace Flopperating

variable {s : PipeLife} {p : Pipe} {n : ℕ} {op : PipeOp}

theorem refcountDecAndTest_snd (n : ℕ) : (refcountDecAndTest n).2 = n - 1 := by
  unfold refcountDecAndTest
  split
  · next hzero => rw [hzero]
  · rfl

theorem refcountIncNotZero_pos (hpos : 0 < n) (hroom : n + 1 < 2 ^ 32) : refcountIncNotZero n = (true, n + 1) := by
  rw [refcountIncNotZero, if_neg (by omega), u32_of_lt hroom]

theorem refcountIncNotZero_zero : refcountIncNotZero 0 = (false, 0) := rfl

/-- The counts are right, an end without references has been closed, and the pipe has been
freed once when neither end has any. -/
structure PipeLife.Counts (s : PipeLife) : Prop where
  read : s.pipe.readRefs = s.heldRead
  write : s.pipe.writeRefs = s.heldWrite
  readOpen : s.heldRead = 0 → s.pipe.readFdOpen = false
  writeOpen : s.heldWrite = 0 → s.pipe.writeFdOpen = false
  frees : s.frees = if s.heldRead = 0 ∧ s.heldWrite = 0 then 1 else 0

theorem PipeLife.counts_init (data : ℕ → UInt8) : (PipeLife.init data).Counts :=
  ⟨rfl, rfl, fun h => absurd h (by simp [init]), fun h => absurd h (by simp [init]), rfl⟩

/-- `pipe_close` frees when both counts are zero and both ends have been closed. -/
theorem pipeClose_fst (write : Bool) (p : Pipe) : (pipeClose write p).1 = true ↔
    (pipeClose write p).2.readFdOpen = false ∧ (pipeClose write p).2.writeFdOpen = false ∧
      (pipeClose write p).2.readRefs = 0 ∧ (pipeClose write p).2.writeRefs = 0 := by
  simp [pipeClose, and_assoc]

theorem pipeClose_true (p : Pipe) : (pipeClose true p).2 = { p with writeFdOpen := false, writeRefs := p.writeRefs - 1 } := by
  rw [← refcountDecAndTest_snd]
  rfl

theorem pipeClose_false (p : Pipe) : (pipeClose false p).2 = { p with readFdOpen := false, readRefs := p.readRefs - 1 } := by
  rw [← refcountDecAndTest_snd]
  rfl

/-- One operation. -/
theorem PipeOp.step_counts (h : s.Counts) (hheld : op.Held s) (hroom : op.Room s) : (op.step s).Counts := by
  have hfrees := h.frees
  cases op with
  | dupRead =>
    have hroom : s.heldRead + 1 < 2 ^ 32 := hroom
    rw [PipeOp.step, pipeDupRead, h.read]
    rcases Nat.eq_zero_or_pos s.heldRead with hzero | hpos
    · rw [hzero, refcountIncNotZero_zero]
      exact ⟨rfl, h.write, fun _ => h.readOpen hzero, h.writeOpen, by rw [hzero] at hfrees; exact hfrees⟩
    · rw [refcountIncNotZero_pos hpos hroom]
      refine ⟨rfl, h.write, fun hno => absurd hno (Nat.succ_ne_zero _), h.writeOpen, ?_⟩
      change s.frees = if s.heldRead + 1 = 0 ∧ s.heldWrite = 0 then 1 else 0
      rw [if_neg fun hboth => Nat.succ_ne_zero _ hboth.1]
      rwa [if_neg fun hboth => absurd hboth.1 hpos.ne'] at hfrees
  | dupWrite =>
    have hroom : s.heldWrite + 1 < 2 ^ 32 := hroom
    rw [PipeOp.step, pipeDupWrite, h.write]
    rcases Nat.eq_zero_or_pos s.heldWrite with hzero | hpos
    · rw [hzero, refcountIncNotZero_zero]
      exact ⟨h.read, rfl, h.readOpen, fun _ => h.writeOpen hzero, by rw [hzero] at hfrees; exact hfrees⟩
    · rw [refcountIncNotZero_pos hpos hroom]
      refine ⟨h.read, rfl, h.readOpen, fun hno => absurd hno (Nat.succ_ne_zero _), ?_⟩
      change s.frees = if s.heldRead = 0 ∧ s.heldWrite + 1 = 0 then 1 else 0
      rw [if_neg fun hboth => Nat.succ_ne_zero _ hboth.2]
      rwa [if_neg fun hboth => absurd hboth.2 hpos.ne'] at hfrees
  | close write =>
    cases write with
    | true =>
      have hheld : 0 < s.heldWrite := hheld
      rw [if_neg fun hboth => absurd hboth.2 hheld.ne'] at hfrees
      have hfree : (pipeClose true s.pipe).1 = true ↔ s.heldRead = 0 ∧ s.heldWrite - 1 = 0 := by
        rw [pipeClose_fst, pipeClose_true, h.write, h.read]
        exact ⟨fun hall => hall.2.2, fun hboth => ⟨h.readOpen hboth.1, rfl, hboth⟩⟩
      rw [PipeOp.step, pipeClose_true, h.write]
      refine ⟨h.read, rfl, h.readOpen, fun _ => rfl, ?_⟩
      change (if (pipeClose true s.pipe).1 = true then s.frees + 1 else s.frees) = _
      rw [hfrees, if_congr hfree rfl rfl]
      rfl
    | false =>
      have hheld : 0 < s.heldRead := hheld
      rw [if_neg fun hboth => absurd hboth.1 hheld.ne'] at hfrees
      have hfree : (pipeClose false s.pipe).1 = true ↔ s.heldRead - 1 = 0 ∧ s.heldWrite = 0 := by
        rw [pipeClose_fst, pipeClose_false, h.write, h.read]
        exact ⟨fun hall => hall.2.2, fun hboth => ⟨rfl, h.writeOpen hboth.2, hboth⟩⟩
      rw [PipeOp.step, pipeClose_false, h.read]
      refine ⟨rfl, h.write, fun _ => rfl, h.writeOpen, ?_⟩
      change (if (pipeClose false s.pipe).1 = true then s.frees + 1 else s.frees) = _
      rw [hfrees, if_congr hfree rfl rfl]
      rfl

/-- Operations one after the other. -/
theorem PipeLife.run_counts {ops : List PipeOp} (h : s.Counts) (hheld : Along PipeOp.Held ops s)
    (hroom : Along PipeOp.Room ops s) : (PipeLife.run ops s).Counts := by
  induction ops generalizing s with
  | nil => exact h
  | cons op ops ih => exact ih (op.step_counts h hheld.1 hroom.1) hheld.2 hroom.2

/-- **A pipe is freed once**, by the close after which neither end has a reference, when each
close drops a reference that is held and no dup makes `2 ^ 32` of them. -/
theorem pipe_freed_once (data : ℕ → UInt8) (ops : List PipeOp) (hheld : PipeLife.Along PipeOp.Held ops (.init data))
    (hroom : PipeLife.Along PipeOp.Room ops (.init data)) :
    ((PipeLife.init data).run ops).frees =
      if ((PipeLife.init data).run ops).heldRead = 0 ∧ ((PipeLife.init data).run ops).heldWrite = 0 then 1 else 0 :=
  (PipeLife.run_counts (PipeLife.counts_init data) hheld hroom).frees

theorem pipe_freed_once_shared : ((PipeLife.init fun _ => 0).run [.dupWrite, .close true, .close false, .close true]).frees =
    if ((PipeLife.init fun _ => 0).run [.dupWrite, .close true, .close false, .close true]).heldRead = 0 ∧
      ((PipeLife.init fun _ => 0).run [.dupWrite, .close true, .close false, .close true]).heldWrite = 0 then 1 else 0 :=
  pipe_freed_once _ _ ⟨trivial, show 0 < 2 by decide, show 0 < 1 by decide, show 0 < 1 by decide, trivial⟩
    ⟨show 1 + 1 < 2 ^ 32 by decide, trivial, trivial, trivial, trivial⟩

theorem PipeLife.run_append (a b : List PipeOp) (s : PipeLife) : s.run (a ++ b) = (s.run a).run b := List.foldl_append

theorem PipeLife.along_append {P : PipeOp → PipeLife → Prop} {a b : List PipeOp} :
    Along P (a ++ b) s ↔ Along P a s ∧ Along P b (s.run a) := by
  induction a generalizing s with
  | nil => exact (and_iff_right trivial).symm
  | cons op a ih =>
    rw [List.cons_append, Along, Along, ih, and_assoc]
    rfl

/-- The count of the read end, after it has been duplicated. -/
theorem PipeLife.run_dupRead (data : ℕ → UInt8) (hn : n < 2 ^ 32) : (init data).run (List.replicate n .dupRead) =
    ⟨{ pipeInit data with readRefs := u32 (n + 1) }, n + 1, 1, 0⟩ := by
  induction n with
  | zero => rfl
  | succ n ih =>
    have hcount : u32 (n + 1) = n + 1 := u32_of_lt hn
    rw [List.replicate_succ', run_append, ih (Nat.lt_of_succ_lt hn), hcount]
    rfl

/-- With `2 ^ 32` references of the read end the first close of it frees the pipe, as the write
end has been closed. -/
theorem not_pipe_freed_once : ¬ ∀ (data : ℕ → UInt8) (ops : List PipeOp), PipeLife.Along PipeOp.Held ops (.init data) →
    ((PipeLife.init data).run ops).frees =
      if ((PipeLife.init data).run ops).heldRead = 0 ∧ ((PipeLife.init data).run ops).heldWrite = 0 then 1 else 0 := by
  intro hall
  have hmany : (PipeLife.init fun _ => 0).run (List.replicate (2 ^ 32 - 1) .dupRead) =
      ⟨{ pipeInit (fun _ => 0) with readRefs := 0 }, 2 ^ 32, 1, 0⟩ := PipeLife.run_dupRead _ (by decide)
  have hdups : ∀ (n : ℕ) (s : PipeLife), PipeLife.Along PipeOp.Held (List.replicate n .dupRead) s := fun n => by
    induction n with
    | zero => exact fun _ => trivial
    | succ n ih => exact fun s => ⟨trivial, ih _⟩
  have hlaw := hall (fun _ => 0) (List.replicate (2 ^ 32 - 1) .dupRead ++ [.close true, .close false])
    (PipeLife.along_append.2 ⟨hdups _ _, by
      rw [hmany]
      exact ⟨show 0 < 1 by decide, show 0 < 2 ^ 32 by decide, trivial⟩⟩)
  rw [PipeLife.run_append, hmany] at hlaw
  exact absurd hlaw (by decide)

end Flopperating
