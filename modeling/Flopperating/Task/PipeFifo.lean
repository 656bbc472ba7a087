/-
# A pipe is a bounded queue

The bytes that are in the pipe are a queue in its ring (`PipeSys.Inv`), where the counters of
32 bits wrap at a multiple of the 512 places.  `pipe_write` compares places and keeps one of
them free, `pipe_read` compares the counters, and both tests agree with the queue
(`RingQueue.full_iff`, `RingQueue.eq_iff`).  What a call has moved is what the history has
of it.
-/

import Flopperating.Task.Pipe

namespace Flopperating

variable {s : PipeSys} {c : PipeCall} {p p' : Pipe} {i : ℕ} {byte : UInt8} {terminated : Bool} {q : List UInt8}

theorem pipeSize_dvd : pipeSize ∣ 2 ^ 32 := by decide

/-- The bytes that the call `i` has in the history. -/
def movedBy (log : List (ℕ × UInt8)) (i : ℕ) : List UInt8 := (log.filter fun e => e.1 = i).map (·.2)

theorem movedBy_snoc_self (log : List (ℕ × UInt8)) (i : ℕ) (byte : UInt8) :
    movedBy (log ++ [(i, byte)]) i = movedBy log i ++ [byte] := by
  simp [movedBy, List.filter_append]

theorem movedBy_snoc_ne (log : List (ℕ × UInt8)) {i j : ℕ} (hne : i ≠ j) (byte : UInt8) :
    movedBy (log ++ [(i, byte)]) j = movedBy log j := by
  simp [movedBy, List.filter_append, hne]

/-- What a call has moved, of the bytes put in or taken out. -/
def PipeSys.log (s : PipeSys) (c : PipeCall) : List (ℕ × UInt8) := if c.write then s.put else s.taken

/-- The bytes of a call are the first of its buffer, and what it returns, if it is not
negative, is their number. -/
structure CallLaw (s : PipeSys) (i : ℕ) (c : PipeCall) : Prop where
  bytes : movedBy (s.log c) i = (List.range c.moved).map c.addr
  ret : ∀ v, c.ret = some v → 0 ≤ v → v = c.moved

/-- What is in the ring is what has been put in and not taken out. -/
structure PipeSys.Inv (s : PipeSys) : Prop where
  queue : ∃ q, RingQueue pipeSize (2 ^ 32) s.pipe.data s.pipe.readBytes s.pipe.writeBytes q ∧
    s.put.map (·.2) = s.taken.map (·.2) ++ q
  call : ∀ i c, s.calls[i]? = some c → CallLaw s i c
  known : ∀ i, s.calls.length ≤ i → movedBy s.put i = [] ∧ movedBy s.taken i = []

/-! ### Rounds -/

/-- **A round of `pipe_write`** that moves a byte puts it behind the others. -/
theorem pipeWriteRound_moved (h : RingQueue pipeSize (2 ^ 32) p.data p.readBytes p.writeBytes q) {x : UInt8} {n : ℕ}
    (hround : pipeWriteRound terminated x n p = .moved byte p') :
    byte = x ∧ RingQueue pipeSize (2 ^ 32) p'.data p'.readBytes p'.writeBytes (q ++ [byte]) := by
  unfold pipeWriteRound at hround
  dsimp only at hround
  split at hround
  · split at hround <;> exact absurd hround (by simp)
  · next hnot =>
    obtain ⟨rfl, rfl⟩ := PipeRound.moved.inj hround
    have hroom : q.length + 1 < pipeSize := by
      have hshort := h.short
      have hne : q.length + 1 ≠ pipeSize := fun hfull => hnot ((h.full_iff pipeSize_dvd).2 hfull)
      omega
    exact ⟨rfl, h.put pipeSize_dvd hroom _⟩

theorem pipeWriteRound_returns {x : UInt8} {n : ℕ} {v : ℤ} (hround : pipeWriteRound terminated x n p = .returns v)
    (hv : 0 ≤ v) : v = n := by
  unfold pipeWriteRound at hround
  dsimp only at hround
  split at hround
  · split at hround
    · obtain rfl := PipeRound.returns.inj hround
      split_ifs at hv ⊢
      · rfl
      · exact absurd hv (by decide)
    · exact absurd hround (by simp)
  · exact absurd hround (by simp)

/-- **A round of `pipe_read`** that moves a byte takes the first. -/
theorem pipeReadRound_moved (h : RingQueue pipeSize (2 ^ 32) p.data p.readBytes p.writeBytes q) {n : ℕ}
    (hround : pipeReadRound terminated n p = .moved byte p') :
    ∃ rest, q = byte :: rest ∧ RingQueue pipeSize (2 ^ 32) p'.data p'.readBytes p'.writeBytes rest := by
  unfold pipeReadRound at hround
  split at hround
  · split at hround <;> exact absurd hround (by simp)
  · next hbusy =>
    split at hround
    · exact absurd hround (by simp)
    · next hend =>
      obtain ⟨rfl, rfl⟩ := PipeRound.moved.inj hround
      have hne : p.readBytes ≠ p.writeBytes := fun he => by
        rcases Nat.eq_zero_or_pos p.writeRefs with hzero | hpos
        · exact hend ⟨he, hzero⟩
        · exact hbusy ⟨he, hpos⟩
      rcases q with - | ⟨x, rest⟩
      · exact absurd ((h.eq_iff (by decide)).2 rfl) hne
      · obtain ⟨hfirst, hrest⟩ := h.take pipeSize_dvd
        exact ⟨rest, by rw [hfirst], hrest⟩

theorem pipeReadRound_returns {n : ℕ} {v : ℤ} (hround : pipeReadRound terminated n p = .returns v) (hv : 0 ≤ v) :
    v = n := by
  unfold pipeReadRound at hround
  split at hround
  · split at hround
    · obtain rfl := PipeRound.returns.inj hround
      split_ifs at hv ⊢
      · rfl
      · exact absurd hv (by decide)
    · exact absurd hround (by simp)
  · split at hround
    · exact (PipeRound.returns.inj hround).symm
    · exact absurd hround (by simp)

/-- A call returns the number of bytes that it has moved, or a negative number. -/
theorem PipeCall.round_returns {v : ℤ} (hround : c.round terminated p = .returns v) (hv : 0 ≤ v) : v = c.moved := by
  unfold PipeCall.round at hround
  split at hround
  · split at hround
    · exact pipeWriteRound_returns hround hv
    · exact pipeReadRound_returns hround hv
  · exact (PipeRound.returns.inj hround).symm

/-- What a round that moves a byte does to the queue. -/
theorem PipeCall.round_moved (h : RingQueue pipeSize (2 ^ 32) p.data p.readBytes p.writeBytes q)
    (hround : c.round terminated p = .moved byte p') :
    (c.write = true ∧ byte = c.addr c.moved ∧
        RingQueue pipeSize (2 ^ 32) p'.data p'.readBytes p'.writeBytes (q ++ [byte])) ∨
      (c.write = false ∧ ∃ rest, q = byte :: rest ∧
        RingQueue pipeSize (2 ^ 32) p'.data p'.readBytes p'.writeBytes rest) := by
  unfold PipeCall.round at hround
  split at hround
  · split at hround
    · next hwrite => exact .inl ⟨hwrite, pipeWriteRound_moved h hround⟩
    · next hread => exact .inr ⟨by simpa using hread, pipeReadRound_moved h hround⟩
  · exact absurd hround (by simp)

/-! ### One event -/

theorem map_range_snoc (addr : ℕ → UInt8) (n : ℕ) (byte : UInt8) :
    (List.range (n + 1)).map (Function.update addr n byte) = (List.range n).map addr ++ [byte] := by
  rw [List.range_succ, List.map_append, List.map_singleton, Function.update_self]
  refine congrArg (· ++ [byte]) (List.map_congr_left fun j hj => ?_)
  exact Function.update_of_ne (List.mem_range.1 hj).ne _ _

/-- The first bytes of the buffer, after a byte more. -/
theorem PipeCall.next_bytes (hwrite : c.write = true → byte = c.addr c.moved) :
    (List.range (c.next byte).moved).map (c.next byte).addr = (List.range c.moved).map c.addr ++ [byte] := by
  unfold PipeCall.next
  dsimp only
  split
  · next hw =>
    rw [hwrite hw, List.range_succ, List.map_append, List.map_singleton]
  · exact map_range_snoc _ _ _

/-- A call begins. -/
theorem PipeSys.Inv.begin (h : s.Inv) (hmoved : c.moved = 0) (hret : c.ret = none) :
    PipeSys.Inv { s with calls := s.calls ++ [c] } := by
  refine ⟨h.queue, fun i c' hc => ?_, fun i hi => h.known i ?_⟩
  · rcases Nat.lt_or_ge i s.calls.length with hlt | hge
    · rw [List.getElem?_append_left hlt] at hc
      exact ⟨(h.call i c' hc).bytes, (h.call i c' hc).ret⟩
    · obtain ⟨hnoput, hnotaken⟩ := h.known i hge
      rw [List.getElem?_append_right hge] at hc
      obtain rfl := List.mem_singleton.1 (List.mem_of_getElem? hc)
      refine ⟨?_, fun v hv => absurd hv (by rw [hret]; simp)⟩
      rw [hmoved, List.range_zero, List.map_nil, PipeSys.log]
      split
      · exact hnoput
      · exact hnotaken
  · rw [List.length_append] at hi
    omega

/-- A call returns. -/
theorem PipeSys.Inv.returns (h : s.Inv) (hc : s.calls[i]? = some c) {v : ℤ} (hv : 0 ≤ v → v = c.moved) :
    PipeSys.Inv { s with calls := s.calls.set i { c with ret := some v } } := by
  refine ⟨h.queue, fun j c' hj => ?_, fun j hj => h.known j (by rwa [List.length_set] at hj)⟩
  rcases eq_or_ne j i with rfl | hne
  · rw [List.getElem?_set_self (List.getElem?_eq_some_iff.1 hc).1] at hj
    obtain rfl := Option.some.inj hj
    refine ⟨(h.call j c hc).bytes, fun w hw hpos => ?_⟩
    obtain rfl := Option.some.inj hw
    exact hv hpos
  · rw [List.getElem?_set_ne hne.symm] at hj
    exact ⟨(h.call j c' hj).bytes, (h.call j c' hj).ret⟩

/-- A call moves a byte. -/
theorem PipeSys.Inv.moves (h : s.Inv) (hc : s.calls[i]? = some c) (hret : c.ret = none)
    (hround : c.round terminated s.pipe = .moved byte p) :
    PipeSys.Inv ⟨p, s.calls.set i (c.next byte), if c.write then s.put ++ [(i, byte)] else s.put,
      if c.write then s.taken else s.taken ++ [(i, byte)]⟩ := by
  obtain ⟨q, hqueue, hput⟩ := h.queue
  have hlt := (List.getElem?_eq_some_iff.1 hc).1
  have hmoved := PipeCall.round_moved hqueue hround
  have hbytes : c.write = true → byte = c.addr c.moved := fun hw => by
    rcases hmoved with ⟨-, hbyte, -⟩ | ⟨hr, -⟩
    · exact hbyte
    · exact absurd (hw.symm.trans hr) (by simp)
  refine ⟨?_, fun j c' hj => ?_, fun j hj => ?_⟩
  · rcases hmoved with ⟨hw, -, hq⟩ | ⟨hr, rest, rfl, hq⟩
    · refine ⟨_, hq, ?_⟩
      simp only [if_pos hw, List.map_append, hput, List.append_assoc, List.map_cons, List.map_nil]
    · refine ⟨rest, hq, ?_⟩
      simp only [hr, Bool.false_eq_true, if_false, hput, List.map_append, List.map_cons, List.map_nil, List.append_assoc,
        List.singleton_append]
  · rcases eq_or_ne j i with rfl | hne
    · rw [List.getElem?_set_self hlt] at hj
      obtain rfl := Option.some.inj hj
      have hold := (h.call j c hc).bytes
      refine ⟨?_, fun v hv => absurd hv (by rw [PipeCall.next, hret]; simp)⟩
      rw [PipeCall.next_bytes hbytes, ← hold]
      unfold PipeSys.log PipeCall.next
      dsimp only
      cases c.write
      · exact movedBy_snoc_self _ _ _
      · exact movedBy_snoc_self _ _ _
    · rw [List.getElem?_set_ne hne.symm] at hj
      have hold := h.call j c' hj
      refine ⟨?_, hold.ret⟩
      rw [← hold.bytes]
      unfold PipeSys.log
      dsimp only
      cases c.write <;> cases c'.write <;> first | rfl | exact movedBy_snoc_ne _ hne.symm _
  · rw [List.length_set] at hj
    obtain ⟨hnoput, hnotaken⟩ := h.known j hj
    have hne : i ≠ j := by omega
    dsimp only
    cases c.write
    · exact ⟨hnoput, (movedBy_snoc_ne _ hne _).trans hnotaken⟩
    · exact ⟨(movedBy_snoc_ne _ hne _).trans hnoput, hnotaken⟩

/-- One event. -/
theorem PipeEvent.step_inv (e : PipeEvent) (h : s.Inv) : (e.step s).Inv := by
  cases e with
  | write addr len => exact h.begin rfl rfl
  | read addr len => exact h.begin rfl rfl
  | round i terminated =>
    unfold PipeEvent.step
    dsimp only
    split
    · exact h
    · next c hc =>
      split
      · exact h
      · next hret =>
        have hret : c.ret = none := by simpa using hret
        split
        · exact h
        · next v hround => exact h.returns hc (PipeCall.round_returns hround)
        · next byte p hround => exact h.moves hc hret hround
  | refs readRefs writeRefs readFdOpen writeFdOpen =>
    obtain ⟨q, hq, hput⟩ := h.queue
    exact ⟨⟨q, hq, hput⟩, fun i c hc => ⟨(h.call i c hc).bytes, (h.call i c hc).ret⟩, h.known⟩

/-- Any events one after the other. -/
theorem pipeRun_inv (data : ℕ → UInt8) (events : List PipeEvent) : (pipeRun data events).Inv := by
  have hinit : PipeSys.Inv ⟨pipeInit data, [], [], []⟩ :=
    ⟨⟨[], .nil (show 0 < 2 ^ 32 by decide) (by decide), rfl⟩, fun i c hc => absurd hc (by simp), fun _ _ => ⟨rfl, rfl⟩⟩
  have hrun : ∀ s, PipeSys.Inv s → PipeSys.Inv (events.foldl (fun s e => e.step s) s) := by
    induction events with
    | nil => exact fun s hs => hs
    | cons e events ih => exact fun s hs => ih _ (e.step_inv hs)
  exact hrun _ hinit

/-- **A pipe is a bounded queue.**  Whatever calls have their rounds in whatever order, and
whatever becomes of the references: what has been taken out is a prefix of what has been put
in, the rest, at most 511 bytes, is in the pipe, the bytes that a call has moved are the first
of its buffer in their order, and a call that returns no negative number returns how many. -/
theorem pipe_fifo (data : ℕ → UInt8) (events : List PipeEvent) :
    (∃ q : List UInt8, (pipeRun data events).put.map (·.2) = (pipeRun data events).taken.map (·.2) ++ q ∧ q.length ≤ 511 ∧
      RingQueue pipeSize (2 ^ 32) (pipeRun data events).pipe.data (pipeRun data events).pipe.readBytes
        (pipeRun data events).pipe.writeBytes q) ∧
    ∀ i c, (pipeRun data events).calls[i]? = some c →
      movedBy ((pipeRun data events).log c) i = (List.range c.moved).map c.addr ∧
      ∀ v, c.ret = some v → 0 ≤ v → v = (movedBy ((pipeRun data events).log c) i).length := by
  have h := pipeRun_inv data events
  constructor
  · obtain ⟨q, hq, hput⟩ := h.queue
    exact ⟨q, hput, Nat.le_of_lt_succ hq.short, hq⟩
  · intro i c hc
    obtain ⟨hbytes, hret⟩ := h.call i c hc
    refine ⟨hbytes, fun v hv hpos => ?_⟩
    rw [hbytes, List.length_map, List.length_range]
    exact hret v hv hpos

end Flopperating
