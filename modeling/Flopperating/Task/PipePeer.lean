/-
# The other end of a pipe

Whether anyone is left at the other end is told by the count of its references.
`pipe_read` goes by the count of the writers alone.  `pipe_write` also asks
`read_fd_open`, which the first `pipe_close` of a read end clears, whatever references
remain: from then on a writer that finds the buffer full gives up
(`pipe_endsByCount_iff`), unless the close was that of the last one
(`endsByCount_of_closesLast`).
-/

import Flopperating.Task.PipeFifo
import Flopperating.Task.PipeRefs

namespace Flopperating

/-- A pipe with its calls, and whether it has been freed. -/
structure SharedPipe where
  sys : PipeSys
  freed : Bool

/-- What the processes do, none of which is terminated: a call begins or has a round, and
ends are duplicated and closed. -/
inductive PipeAct
  | write (addr : ℕ → UInt8) (len : ℤ)
  | read (addr : ℕ → UInt8) (len : ℤ)
  | round (i : ℕ)
  | dupRead
  | dupWrite
  | close (write : Bool)

def SharedPipe.setPipe (p : Pipe) (s : SharedPipe) : SharedPipe := { s with sys := { s.sys with pipe := p } }

/-- A step.  A pipe that has been freed has none. -/
def PipeAct.step (act : PipeAct) (s : SharedPipe) : SharedPipe :=
  if s.freed then s
  else
    match act with
    | write addr len => { s with sys := (PipeEvent.write addr len).step s.sys }
    | read addr len => { s with sys := (PipeEvent.read addr len).step s.sys }
    | round i => { s with sys := (PipeEvent.round i false).step s.sys }
    | dupRead => s.setPipe (pipeDupRead s.sys.pipe).2
    | dupWrite => s.setPipe (pipeDupWrite s.sys.pipe).2
    | close w => { s.setPipe (pipeClose w s.sys.pipe).2 with freed := (pipeClose w s.sys.pipe).1 }

/-- What has happened to a pipe of `pipe_init`. -/
def sharedRun (data : ℕ → UInt8) (acts : List PipeAct) : SharedPipe :=
  acts.foldl (fun s act => act.step s) ⟨⟨pipeInit data, [], [], []⟩, false⟩

/-- The next round of call `i` returns less than the call was asked for. -/
def StopsShort (s : SharedPipe) (i : ℕ) (c : PipeCall) : Prop :=
  s.freed = false ∧ s.sys.calls[i]? = some c ∧ c.ret = none ∧
    ∃ v, c.round false s.sys.pipe = .returns v ∧ v < c.len

/-- Nobody is left at the other end, by the count of its references. -/
def PeerGone (write : Bool) (p : Pipe) : Prop :=
  if write then p.readRefs = 0 else p.writeRefs = 0 ∧ p.readBytes = p.writeBytes

/-- **A call stops short only when nobody is left at the other end.** -/
def EndsByCount (data : ℕ → UInt8) (acts : List PipeAct) : Prop :=
  ∀ before i after c, acts = before ++ .round i :: after → StopsShort (sharedRun data before) i c →
    PeerGone c.write (sharedRun data before).sys.pipe

/-- Call `i` writes, finds 511 bytes in the pipe, and a read end has been closed while
references remain. -/
def Misled (data : ℕ → UInt8) (before : List PipeAct) (i : ℕ) : Prop :=
  (sharedRun data before).freed = false ∧ PipeAct.close false ∈ before ∧
    0 < (sharedRun data before).sys.pipe.readRefs ∧
    (sharedRun data before).sys.put.length = (sharedRun data before).sys.taken.length + 511 ∧
    ∃ c, (sharedRun data before).sys.calls[i]? = some c ∧ c.ret = none ∧ c.write = true ∧ c.moved < c.len

variable {s : SharedPipe} {p p' : Pipe} {c : PipeCall} {data : ℕ → UInt8} {acts before : List PipeAct} {act : PipeAct}
  {i : ℕ} {v : ℤ}

/-! ### A round that stops short -/

/-- `pipe_write` stops short in a full pipe, by the flag or by the count. -/
theorem PipeCall.write_stops (hwrite : c.write = true) : (∃ v, c.round false p = .returns v ∧ v < c.len) ↔
    c.moved < c.len ∧ (p.writeBytes % pipeSize + 1) % pipeSize = p.readBytes % pipeSize ∧
      (p.readFdOpen = false ∨ p.readRefs = 0) := by
  unfold PipeCall.round pipeWriteRound
  rw [if_pos hwrite]
  dsimp only
  by_cases hlt : (c.moved : ℤ) < c.len
  · rw [if_pos hlt]
    by_cases hfull : (p.writeBytes % pipeSize + 1) % pipeSize = p.readBytes % pipeSize
    · rw [if_pos hfull]
      by_cases hgone : p.readFdOpen = false ∨ p.readRefs = 0
      · rw [if_pos (hgone.imp_right .inl)]
        refine iff_of_true ⟨_, rfl, ?_⟩ ⟨hlt, hfull, hgone⟩
        split_ifs <;> omega
      · rw [if_neg fun h => hgone (h.imp_right fun h => h.resolve_right (by decide))]
        refine iff_of_false ?_ fun h => hgone h.2.2
        rintro ⟨v, hv, -⟩
        exact absurd hv (by simp)
    · rw [if_neg hfull]
      refine iff_of_false ?_ fun h => hfull h.2.1
      rintro ⟨v, hv, -⟩
      exact absurd hv (by simp)
  · rw [if_neg hlt]
    refine iff_of_false ?_ fun h => hlt h.1
    rintro ⟨v, hv, hless⟩
    obtain rfl := PipeRound.returns.inj hv
    exact hlt hless

/-- **`pipe_read`** stops short by the count. -/
theorem PipeCall.read_stops (hread : ¬ c.write = true) (hround : c.round false p = .returns v) (hv : v < c.len) :
    p.writeRefs = 0 ∧ p.readBytes = p.writeBytes := by
  unfold PipeCall.round pipeReadRound at hround
  rw [if_neg hread] at hround
  by_cases hlt : (c.moved : ℤ) < c.len
  · rw [if_pos hlt] at hround
    by_cases hbusy : p.readBytes = p.writeBytes ∧ p.writeRefs > 0
    · rw [if_pos hbusy, if_neg (by decide)] at hround
      exact absurd hround (by simp)
    rw [if_neg hbusy] at hround
    by_cases hend : p.readBytes = p.writeBytes ∧ p.writeRefs = 0
    · exact ⟨hend.2, hend.1⟩
    · rw [if_neg hend] at hround
      exact absurd hround (by simp)
  · rw [if_neg hlt] at hround
    obtain rfl := PipeRound.returns.inj hround
    exact absurd hv hlt

/-! ### What a run keeps -/

/-- The buffer is a queue, and the flag of the readers is down once a read end is closed. -/
structure SharedPipe.Inv (s : SharedPipe) (before : List PipeAct) : Prop where
  sys : s.sys.Inv
  closed : s.freed = false → (s.sys.pipe.readFdOpen = false ↔ PipeAct.close false ∈ before)

theorem sharedRun_snoc (data : ℕ → UInt8) (before : List PipeAct) (act : PipeAct) :
    sharedRun data (before ++ [act]) = act.step (sharedRun data before) := by
  rw [sharedRun, List.foldl_append]
  rfl

/-- A round leaves the references and flags. -/
theorem PipeCall.round_ends {byte : UInt8} (hround : c.round false p = .moved byte p') :
    p'.readFdOpen = p.readFdOpen ∧ p'.readRefs = p.readRefs := by
  unfold PipeCall.round at hround
  split at hround
  · split at hround
    · unfold pipeWriteRound at hround
      dsimp only at hround
      split at hround
      · split at hround <;> exact absurd hround (by simp)
      · obtain ⟨-, rfl⟩ := PipeRound.moved.inj hround
        exact ⟨rfl, rfl⟩
    · unfold pipeReadRound at hround
      split at hround
      · split at hround <;> exact absurd hround (by simp)
      · split at hround
        · exact absurd hround (by simp)
        · obtain ⟨-, rfl⟩ := PipeRound.moved.inj hround
          exact ⟨rfl, rfl⟩
  · exact absurd hround (by simp)

theorem PipeEvent.round_ends (i : ℕ) (sys : PipeSys) :
    ((PipeEvent.round i false).step sys).pipe.readFdOpen = sys.pipe.readFdOpen ∧
      ((PipeEvent.round i false).step sys).pipe.readRefs = sys.pipe.readRefs := by
  unfold PipeEvent.step
  dsimp only
  split
  · exact ⟨rfl, rfl⟩
  · split
    · exact ⟨rfl, rfl⟩
    · split
      · exact ⟨rfl, rfl⟩
      · exact ⟨rfl, rfl⟩
      · next hround => exact PipeCall.round_ends hround

theorem pipeClose_readFdOpen (w : Bool) (p : Pipe) :
    (pipeClose w p).2.readFdOpen = false ↔ p.readFdOpen = false ∨ w = false := by
  cases w
  · rw [pipeClose_false]
    exact iff_of_true rfl (.inr rfl)
  · rw [pipeClose_true]
    exact (or_iff_left (by decide)).symm

/-- A step. -/
theorem SharedPipe.Inv.step (h : s.Inv before) (act : PipeAct) : (act.step s).Inv (before ++ [act]) := by
  have hqueue : ∀ p : Pipe, p.data = s.sys.pipe.data → p.readBytes = s.sys.pipe.readBytes →
      p.writeBytes = s.sys.pipe.writeBytes → PipeSys.Inv { s.sys with pipe := p } := fun p hdata hread hwrite => by
    obtain ⟨q, hq, hput⟩ := h.sys.queue
    refine ⟨⟨q, ?_, hput⟩, fun i c hc => ⟨(h.sys.call i c hc).bytes, (h.sys.call i c hc).ret⟩, h.sys.known⟩
    rw [hdata, hread, hwrite]
    exact hq
  unfold PipeAct.step
  by_cases hfreed : s.freed = true
  · rw [if_pos hfreed]
    exact ⟨h.sys, fun hlive => absurd (hfreed.symm.trans hlive) (by decide)⟩
  · rw [if_neg hfreed]
    have hclosed := h.closed (Bool.not_eq_true _ ▸ hfreed)
    cases act with
    | write addr len => exact ⟨(PipeEvent.write addr len).step_inv h.sys, fun _ => hclosed.trans (by simp)⟩
    | read addr len => exact ⟨(PipeEvent.read addr len).step_inv h.sys, fun _ => hclosed.trans (by simp)⟩
    | round i =>
      refine ⟨(PipeEvent.round i false).step_inv h.sys, fun _ => ?_⟩
      rw [(PipeEvent.round_ends i s.sys).1]
      exact hclosed.trans (by simp)
    | dupRead => exact ⟨hqueue _ rfl rfl rfl, fun _ => hclosed.trans (by simp)⟩
    | dupWrite => exact ⟨hqueue _ rfl rfl rfl, fun _ => hclosed.trans (by simp)⟩
    | close w =>
      refine ⟨hqueue _ ?_ ?_ ?_, fun _ => (pipeClose_readFdOpen w _).trans ?_⟩
      · cases w <;> rfl
      · cases w <;> rfl
      · cases w <;> rfl
      · rw [hclosed, List.mem_append, List.mem_singleton, PipeAct.close.injEq]
        exact or_congr_right eq_comm

/-- Any steps one after the other. -/
theorem sharedRun_inv (data : ℕ → UInt8) (acts : List PipeAct) : (sharedRun data acts).Inv acts := by
  induction acts using List.reverseRecOn with
  | nil => exact ⟨pipeRun_inv data [], fun _ => by simp [sharedRun, pipeInit]⟩
  | append_singleton acts act ih =>
    rw [sharedRun_snoc]
    exact ih.step act

/-! ### The other end -/

/-- A write that is misled stops short while a reader is left. -/
theorem Misled.stopsShort (h : Misled data before i) :
    ∃ c, StopsShort (sharedRun data before) i c ∧ ¬ PeerGone c.write (sharedRun data before).sys.pipe := by
  obtain ⟨hlive, hclosed, hrefs, hput, c, hc, hret, hwrite, hlt⟩ := h
  have hinv := sharedRun_inv data before
  obtain ⟨q, hq, hlog⟩ := hinv.sys.queue
  have hlen := congrArg List.length hlog
  rw [List.length_append, List.length_map, List.length_map, hput] at hlen
  have hfull := (hq.full_iff pipeSize_dvd).2 (show q.length + 1 = 512 by omega)
  refine ⟨c, ⟨hlive, hc, hret, (PipeCall.write_stops hwrite).2 ⟨hlt, hfull, .inl ((hinv.closed hlive).2 hclosed)⟩⟩, ?_⟩
  rw [PeerGone, if_pos hwrite]
  exact hrefs.ne'

/-- Only such a write stops short while somebody is left. -/
theorem misled_of_stopsShort (h : StopsShort (sharedRun data before) i c)
    (hpeer : ¬ PeerGone c.write (sharedRun data before).sys.pipe) : Misled data before i := by
  obtain ⟨hlive, hc, hret, hstop⟩ := h
  have hinv := sharedRun_inv data before
  by_cases hwrite : c.write = true
  · rw [PeerGone, if_pos hwrite] at hpeer
    obtain ⟨hlt, hfull, hgone⟩ := (PipeCall.write_stops hwrite).1 hstop
    obtain ⟨q, hq, hlog⟩ := hinv.sys.queue
    have hlen := congrArg List.length hlog
    have hfull := (hq.full_iff pipeSize_dvd).1 hfull
    rw [List.length_append, List.length_map, List.length_map] at hlen
    simp only [pipeSize] at hfull
    exact ⟨hlive, (hinv.closed hlive).1 (hgone.resolve_right hpeer), Nat.pos_of_ne_zero hpeer, by omega, c, hc, hret,
      hwrite, hlt⟩
  · obtain ⟨v, hround, hv⟩ := hstop
    rw [PeerGone, if_neg hwrite] at hpeer
    exact absurd (PipeCall.read_stops hwrite hround hv) hpeer

/-- **Calls stop short by the count of the other end** exactly in the runs in which no write
that finds 511 bytes in the pipe has a round after a read end was closed and while references
of it remain. -/
theorem pipe_endsByCount_iff (data : ℕ → UInt8) (acts : List PipeAct) : EndsByCount data acts ↔
    ∀ before i after, acts = before ++ .round i :: after → ¬ Misled data before i := by
  constructor
  · intro h before i after hacts hmisled
    obtain ⟨c, hstop, hpeer⟩ := hmisled.stopsShort
    exact hpeer (h before i after c hacts hstop)
  · intro h before i after c hacts hstop
    by_contra hpeer
    exact h before i after hacts (misled_of_stopsShort hstop hpeer)

/-- Read ends are closed when one reference is left, and no more. -/
def ClosesLast (data : ℕ → UInt8) (acts : List PipeAct) : Prop :=
  ∀ before after, acts = before ++ .close false :: after → (sharedRun data before).freed = false →
    (sharedRun data before).sys.pipe.readRefs ≤ 1

theorem ClosesLast.init (h : ClosesLast data (acts ++ [act])) : ClosesLast data acts := fun before after heq =>
  h before (after ++ [act]) (by rw [heq, List.append_assoc, List.cons_append])

/-- Then the flag goes down with the count. -/
theorem ClosesLast.readRefs_eq_zero (h : ClosesLast data acts) (hlive : (sharedRun data acts).freed = false)
    (hclosed : PipeAct.close false ∈ acts) : (sharedRun data acts).sys.pipe.readRefs = 0 := by
  induction acts using List.reverseRecOn with
  | nil => exact absurd hclosed (List.not_mem_nil)
  | append_singleton acts act ih =>
    have hlast := h acts []
    have ih := ih h.init
    rw [sharedRun_snoc] at hlive ⊢
    rw [List.mem_append, List.mem_singleton] at hclosed
    unfold PipeAct.step at hlive ⊢
    by_cases hfreed : (sharedRun data acts).freed = true
    · rw [if_pos hfreed] at hlive
      exact absurd (hfreed.symm.trans hlive) (by decide)
    rw [if_neg hfreed] at hlive ⊢
    have ih := ih (Bool.not_eq_true _ ▸ hfreed)
    cases act with
    | write addr len => exact ih (hclosed.resolve_right (by simp))
    | read addr len => exact ih (hclosed.resolve_right (by simp))
    | round i => exact (PipeEvent.round_ends i _).2.trans (ih (hclosed.resolve_right (by simp)))
    | dupRead =>
      have hzero := ih (hclosed.resolve_right (by simp))
      change (refcountIncNotZero (sharedRun data acts).sys.pipe.readRefs).2 = 0
      rw [hzero, refcountIncNotZero_zero]
    | dupWrite => exact ih (hclosed.resolve_right (by simp))
    | close w =>
      cases w with
      | true =>
        change (pipeClose true (sharedRun data acts).sys.pipe).2.readRefs = 0
        rw [pipeClose_true]
        exact ih (hclosed.resolve_right (by simp))
      | false =>
        change (pipeClose false (sharedRun data acts).sys.pipe).2.readRefs = 0
        rw [pipeClose_false]
        exact Nat.sub_eq_zero_of_le (hlast rfl (Bool.not_eq_true _ ▸ hfreed))

/-- **While no read end is closed before the last**, calls stop short by the count. -/
theorem endsByCount_of_closesLast (h : ClosesLast data acts) : EndsByCount data acts := by
  rintro before i after c rfl hstop
  by_contra hpeer
  obtain ⟨hlive, hclosed, hrefs, -⟩ := misled_of_stopsShort hstop hpeer
  have hbefore : ClosesLast data before := fun b a heq => h b (a ++ .round i :: after) (by rw [heq]; simp)
  exact hrefs.ne' (hbefore.readRefs_eq_zero hlive hclosed)

/-- A write of 512 bytes has had `n` rounds, with two read ends. -/
structure Filling (n : ℕ) (s : SharedPipe) : Prop where
  live : s.freed = false
  calls : s.sys.calls = [⟨true, fun _ => 0, 512, n, none⟩]
  readRefs : s.sys.pipe.readRefs = 2
  writeRefs : s.sys.pipe.writeRefs = 1
  readBytes : s.sys.pipe.readBytes = 0
  writeBytes : s.sys.pipe.writeBytes = n
  put : s.sys.put.length = n
  taken : s.sys.taken = []

theorem Filling.round {n : ℕ} (h : Filling n s) (hn : n < 511) : Filling (n + 1) ((PipeAct.round 0).step s) := by
  obtain ⟨hlive, hcalls, hread, hwrite, hr, hw, hput, htaken⟩ := h
  have hfull : (s.sys.pipe.writeBytes % pipeSize + 1) % pipeSize ≠ s.sys.pipe.readBytes % pipeSize := by
    rw [hw, hr]
    simp only [pipeSize]
    omega
  have hround : PipeCall.round false ⟨true, fun _ => 0, 512, n, none⟩ s.sys.pipe = .moved 0 { s.sys.pipe with
      data := Function.update s.sys.pipe.data (s.sys.pipe.writeBytes % pipeSize) 0
      writeBytes := u32 (s.sys.pipe.writeBytes + 1) } := by
    unfold PipeCall.round pipeWriteRound
    rw [if_pos (show (n : ℤ) < 512 by omega), if_pos rfl]
    exact if_neg hfull
  have hstep : (PipeAct.round 0).step s = { s with sys := (PipeEvent.round 0 false).step s.sys } := by
    rw [PipeAct.step, if_neg (hlive ▸ Bool.false_ne_true)]
  have hget : s.sys.calls[0]? = some ⟨true, fun _ => 0, 512, n, none⟩ := by rw [hcalls]; rfl
  rw [hstep]
  unfold PipeEvent.step
  simp only [hget, Option.isSome_none, Bool.false_eq_true, if_false, hround]
  refine ⟨hlive, by rw [hcalls]; rfl, hread, hwrite, hr, ?_, ?_, htaken⟩
  · change u32 (s.sys.pipe.writeBytes + 1) = n + 1
    rw [hw, u32_of_lt (by omega)]
  · change (if True then s.sys.put ++ [(0, 0)] else s.sys.put).length = n + 1
    rw [if_pos trivial, List.length_append, hput]
    rfl

/-- A read end is closed when the pipe is full. -/
theorem Filling.misled (h : Filling 511 (sharedRun data before)) : Misled data (before ++ [.close false]) 0 := by
  obtain ⟨hlive, hcalls, hread, hwrite, hr, hw, hput, htaken⟩ := h
  unfold Misled
  rw [sharedRun_snoc, PipeAct.step, if_neg (hlive ▸ Bool.false_ne_true)]
  refine ⟨?_, by simp, ?_, ?_, ⟨true, fun _ => 0, 512, 511, none⟩, ?_, rfl, rfl, by decide⟩
  · change (pipeClose false (sharedRun data before).sys.pipe).1 = false
    refine Bool.eq_false_of_not_eq_true fun hclosed => ?_
    have hzero := ((pipeClose_fst false _).1 hclosed).2.2.2
    rw [pipeClose_false, hwrite] at hzero
    exact absurd hzero (by decide)
  · change 0 < (pipeClose false (sharedRun data before).sys.pipe).2.readRefs
    rw [pipeClose_false, hread]
    exact Nat.one_pos
  · change (sharedRun data before).sys.put.length = (sharedRun data before).sys.taken.length + 511
    rw [hput, htaken]
    rfl
  · change (sharedRun data before).sys.calls[0]? = _
    rw [hcalls]
    rfl

/-- Two read ends, and a write that has had `n` rounds. -/
def filled (n : ℕ) : List PipeAct := .dupRead :: .write (fun _ => 0) 512 :: List.replicate n (.round 0)

theorem filling_filled {n : ℕ} (hn : n ≤ 511) : Filling n (sharedRun (fun _ => 0) (filled n)) := by
  induction n with
  | zero => exact ⟨rfl, rfl, rfl, rfl, rfl, rfl, rfl, rfl⟩
  | succ n ih =>
    have hsnoc : filled (n + 1) = filled n ++ [.round 0] := by
      rw [filled, List.replicate_succ']
      rfl
    rw [hsnoc, sharedRun_snoc]
    exact (ih (Nat.le_of_succ_le hn)).round hn

/-- **One of two read ends is closed** and the writer gives up. -/
theorem not_endsByCount_filled : ¬ EndsByCount (fun _ => 0) (filled 511 ++ [.close false] ++ [.round 0]) := by
  intro hends
  obtain ⟨c, hstop, hpeer⟩ := (filling_filled (le_refl 511)).misled.stopsShort
  exact hpeer (hends _ 0 [] c rfl hstop)

end Flopperating
