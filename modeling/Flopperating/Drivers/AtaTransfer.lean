/-
# What a request transfers

The loop over the sectors of `ata_read` and `ata_write` moves 256 words a sector between the data
port and the buffer, in order (`sectorIterate_transfers`), whatever the drive answers; an error the
drive reports is logged and the loop goes on.

No request gets that far.  `ata_op_validate` compares the count with `(uint8_t) MAX_SECTORS`, which
is `0`, so it rejects every count (`ataOpValidate_eq`), `ata_read` and `ata_write` return at once,
and `ata_finish_request` returns `0` all the same (`not_truthful`).
-/

import Flopperating.Drivers.Ata
import Mathlib.Data.List.Range

namespace Flopperating

open ByteMemory

/-! ### Accounts of what went over the ports -/

/-- The words read from the data port. -/
def wordsIn (ops : List PortOp) : List (BitVec 16) := ops.filterMap fun op => match op with
  | .inw v => some v
  | _ => none

/-- The words written to the data port. -/
def wordsOut (ops : List PortOp) : List (BitVec 16) := ops.filterMap fun op => match op with
  | .outw v => some v
  | _ => none

/-- The values of the status port that were read. -/
def statuses (ops : List PortOp) : List (BitVec 8) := ops.filterMap fun op => match op with
  | .inb .status v => some v
  | _ => none

theorem wordsIn_append (l₁ l₂ : List PortOp) : wordsIn (l₁ ++ l₂) = wordsIn l₁ ++ wordsIn l₂ :=
  List.filterMap_append

theorem wordsOut_append (l₁ l₂ : List PortOp) : wordsOut (l₁ ++ l₂) = wordsOut l₁ ++ wordsOut l₂ :=
  List.filterMap_append

namespace AtaIo

variable {drive : AtaDrive} {s s' s'' : AtaIo} {buffer n m j fuel : ℕ}

/-- No word was transferred. -/
def Quiet (s s' : AtaIo) : Prop :=
  ∃ ops, s'.ops = s.ops ++ ops ∧ wordsIn ops = [] ∧ wordsOut ops = [] ∧ s'.memory = s.memory

/-- `n` words came in and lie in the memory from `buffer` on. -/
def Reads (buffer n : ℕ) (s s' : AtaIo) : Prop :=
  ∃ ops, s'.ops = s.ops ++ ops ∧ (wordsIn ops).length = n ∧
    (∀ k v, (wordsIn ops)[k]? = some v → readHalf s'.memory (buffer + 2 * k) = v) ∧
    ∀ x, x < buffer ∨ buffer + 2 * n ≤ x → s'.memory x = s.memory x

/-- The `n` words from `buffer` on went out. -/
def Writes (buffer n : ℕ) (s s' : AtaIo) : Prop :=
  ∃ ops, s'.ops = s.ops ++ ops ∧
    wordsOut ops = (List.range n).map (fun k => readHalf s.memory (buffer + 2 * k)) ∧
    s'.memory = s.memory

theorem Quiet.trans (h : Quiet s s') (h' : Quiet s' s'') : Quiet s s'' := by
  obtain ⟨ops, hops, hin, hout, hmem⟩ := h
  obtain ⟨ops', hops', hin', hout', hmem'⟩ := h'
  refine ⟨ops ++ ops', by rw [hops', hops, List.append_assoc], ?_, ?_, hmem'.trans hmem⟩
  · rw [wordsIn_append, hin, hin', List.append_nil]
  · rw [wordsOut_append, hout, hout', List.append_nil]

theorem Quiet.reads (h : Quiet s s') : Reads buffer 0 s s' := by
  obtain ⟨ops, hops, hin, -, hmem⟩ := h
  refine ⟨ops, hops, by rw [hin, List.length_nil], fun k v hv => ?_, fun x _ => congrFun hmem x⟩
  rw [hin] at hv
  exact absurd hv (by simp)

theorem Quiet.writes (h : Quiet s s') : Writes buffer 0 s s' := by
  obtain ⟨ops, hops, -, hout, hmem⟩ := h
  exact ⟨ops, hops, hout, hmem⟩

theorem Reads.trans (h : Reads buffer n s s') (h' : Reads (buffer + 2 * n) m s' s'') :
    Reads buffer (n + m) s s'' := by
  obtain ⟨ops, hops, hlen, hword, hframe⟩ := h
  obtain ⟨ops', hops', hlen', hword', hframe'⟩ := h'
  refine ⟨ops ++ ops', by rw [hops', hops, List.append_assoc], ?_, fun k v hv => ?_, fun x hx => ?_⟩
  · rw [wordsIn_append, List.length_append, hlen, hlen']
  · rw [wordsIn_append] at hv
    by_cases hk : k < n
    · rw [List.getElem?_append_left (hlen.symm ▸ hk)] at hv
      -- the later words lie behind this one
      rw [← hword k v hv, readHalf, readHalf, hframe' _ (.inl (by omega)), hframe' _ (.inl (by omega))]
    · rw [List.getElem?_append_right (hlen.symm ▸ Nat.le_of_not_lt hk), hlen] at hv
      rw [← hword' (k - n) v hv]
      congr 1
      omega
  · rw [hframe' x (by omega), hframe x (by omega)]

theorem Writes.trans (h : Writes buffer n s s') (h' : Writes (buffer + 2 * n) m s' s'') :
    Writes buffer (n + m) s s'' := by
  obtain ⟨ops, hops, hword, hmem⟩ := h
  obtain ⟨ops', hops', hword', hmem'⟩ := h'
  refine ⟨ops ++ ops', by rw [hops', hops, List.append_assoc], ?_, hmem'.trans hmem⟩
  rw [wordsOut_append, hword, hword', hmem, List.range_add, List.map_append, List.map_map]
  congr 1
  refine List.map_congr_left fun k _ => ?_
  change _ = readHalf s.memory (buffer + 2 * (n + k))
  congr 1
  omega

/-! ### The parts of the loop -/

theorem quiet_inbStatus : Quiet s (inbStatus drive s).2 := ⟨_, rfl, rfl, rfl, rfl⟩

theorem quiet_catchDriveErr : Quiet s (catchDriveErr drive s) := by
  unfold catchDriveErr
  dsimp only
  split
  · exact quiet_inbStatus.trans ⟨_, rfl, rfl, rfl, rfl⟩
  · exact quiet_inbStatus

theorem quiet_ataBsWait (h : ataBsWait drive fuel s = some s') : Quiet s s' := by
  induction fuel generalizing s with
  | zero => exact absurd h (by simp [ataBsWait])
  | succ n ih =>
    rw [ataBsWait] at h
    dsimp only at h
    split at h
    · exact quiet_inbStatus.trans (ih h)
    · split at h
      · exact quiet_inbStatus.trans (quiet_inbStatus.trans (ih h))
      · obtain rfl := Option.some.inj h
        exact quiet_inbStatus.trans quiet_inbStatus

theorem quiet_ataDrqWait (h : ataDrqWait drive fuel s = some s') : Quiet s s' := by
  induction fuel generalizing s with
  | zero => exact absurd h (by simp [ataDrqWait])
  | succ n ih =>
    rw [ataDrqWait] at h
    dsimp only at h
    split at h
    · exact quiet_inbStatus.trans (ih h)
    · obtain rfl := Option.some.inj h
      exact quiet_inbStatus

theorem reads_readWordAt : Reads (buffer + 2 * j) 1 s (readWordAt drive buffer j s) := by
  refine ⟨[.inw (drive.data s.ops)], rfl, rfl, fun k v hv => ?_, fun x hx => ?_⟩
  · obtain rfl : k = 0 := by
      have := (List.getElem?_eq_some_iff.1 hv).1
      change k < 1 at this
      omega
    obtain rfl : drive.data s.ops = v := Option.some.inj hv
    exact readHalf_writeHalf_self
  · exact writeHalf_of_not_mem hx

theorem writes_writeWordAt : Writes (buffer + 2 * j) 1 s (writeWordAt buffer j s) :=
  ⟨[.outw (readHalf s.memory (buffer + 2 * j))], rfl, rfl, rfl⟩

section Loop

variable {R : ℕ → ℕ → AtaIo → AtaIo → Prop} {word : ℕ → ℕ → AtaIo → AtaIo}

theorem wordIterate_of (hquiet : ∀ b s s', Quiet s s' → R b 0 s s')
    (htrans : ∀ b n m s s' s'', R b n s s' → R (b + 2 * n) m s' s'' → R b (n + m) s s'')
    (hword : ∀ j s, R (buffer + 2 * j) 1 s (word buffer j s)) :
    R (buffer + 2 * j) n s (wordIterate (word buffer) n j s) := by
  induction n generalizing j s with
  | zero => exact hquiet _ _ _ ⟨[], (List.append_nil _).symm, rfl, rfl, rfl⟩
  | succ n ih =>
    have hrest := ih (j := j + 1) (s := word buffer j s)
    have hmove : buffer + 2 * (j + 1) = buffer + 2 * j + 2 * 1 := by omega
    rw [hmove] at hrest
    rw [wordIterate, Nat.add_comm n 1]
    exact htrans _ _ _ _ _ _ (hword j s) hrest

/-- **The loop over the sectors transfers all their words**, for either of the two directions. -/
theorem sectorIterate_of (hquiet : ∀ b s s', Quiet s s' → R b 0 s s')
    (htrans : ∀ b n m s s' s'', R b n s s' → R (b + 2 * n) m s' s'' → R b (n + m) s s'')
    (hword : ∀ b j s, R (b + 2 * j) 1 s (word b j s))
    (hrun : sectorIterate drive fuel word n buffer s = some s') : R buffer (256 * n) s s' := by
  induction n generalizing buffer s with
  | zero =>
    obtain rfl := Option.some.inj hrun
    exact hquiet _ _ _ ⟨[], (List.append_nil _).symm, rfl, rfl, rfl⟩
  | succ n ih =>
    rw [sectorIterate] at hrun
    obtain ⟨s₁, hbs, hrun⟩ := Option.bind_eq_some_iff.1 hrun
    obtain ⟨s₂, hdrq, hrun⟩ := Option.bind_eq_some_iff.1 hrun
    have hwait : R buffer 0 s s₂ :=
      hquiet _ _ _ (((quiet_ataBsWait hbs).trans quiet_catchDriveErr).trans (quiet_ataDrqWait hdrq))
    have hsector : R buffer 256 s₂ (wordIterate (word buffer) 256 0 s₂) :=
      wordIterate_of (j := 0) hquiet htrans (hword buffer)
    have hone : R buffer 256 s (wordIterate (word buffer) 256 0 s₂) := by
      have := htrans buffer 0 256 _ _ _ hwait hsector
      rwa [Nat.zero_add] at this
    have hcount : 256 * (n + 1) = 256 + 256 * n := by omega
    rw [hcount]
    exact htrans _ _ _ _ _ _ hone (ih hrun)

end Loop

theorem sectorIterate_reads (hrun : sectorIterate drive fuel (readWordAt drive) n buffer s = some s') :
    Reads buffer (256 * n) s s' :=
  sectorIterate_of (fun _ _ _ h => h.reads) (fun _ _ _ _ _ _ h h' => h.trans h')
    (fun _ _ _ => reads_readWordAt) hrun

theorem sectorIterate_writes (hrun : sectorIterate drive fuel writeWordAt n buffer s = some s') :
    Writes buffer (256 * n) s s' :=
  sectorIterate_of (fun _ _ _ h => h.writes) (fun _ _ _ _ _ _ h h' => h.trans h')
    (fun _ _ _ => writes_writeWordAt) hrun

/-- The loop comes to its end with a drive that lets no wait go on for ever. -/
theorem sectorIterate_isSome (word : ℕ → ℕ → AtaIo → AtaIo)
    (hwait : ∀ s, (ataBsWait drive fuel s).isSome ∧ (ataDrqWait drive fuel s).isSome) :
    (sectorIterate drive fuel word n buffer s).isSome := by
  induction n generalizing buffer s with
  | zero => rfl
  | succ n ih =>
    obtain ⟨s₁, hbs⟩ := Option.isSome_iff_exists.1 (hwait s).1
    obtain ⟨s₂, hdrq⟩ := Option.isSome_iff_exists.1 (hwait (catchDriveErr drive s₁)).2
    rw [sectorIterate, hbs, Option.bind_some, hdrq, Option.bind_some]
    exact ih

/-- **What the loops over the sectors transfer**: all words, in their order, between the port and the buffer, whatever
errors are reported in between; and they come to their end when no wait goes on for ever. -/
theorem sectorIterate_transfers (drive : AtaDrive) (fuel n buffer : ℕ) (s : AtaIo) :
    (∀ s', sectorIterate drive fuel (readWordAt drive) n buffer s = some s' → Reads buffer (256 * n) s s') ∧
    (∀ s', sectorIterate drive fuel writeWordAt n buffer s = some s' → Writes buffer (256 * n) s s') ∧
    ((∀ s, (ataBsWait drive fuel s).isSome ∧ (ataDrqWait drive fuel s).isSome) →
      (sectorIterate drive fuel (readWordAt drive) n buffer s).isSome ∧
        (sectorIterate drive fuel writeWordAt n buffer s).isSome) :=
  ⟨fun _ => sectorIterate_reads, fun _ => sectorIterate_writes,
    fun hwait => ⟨sectorIterate_isSome _ hwait, sectorIterate_isSome _ hwait⟩⟩

end AtaIo

open AtaIo

/-! ### The requests that are made -/

variable {drive : AtaDrive} {fuel : ℕ} {req : AtaRequest} {s : AtaIo}

/-- `(uint8_t) MAX_SECTORS` is `0`, and no count but `0` is as small. -/
theorem ataOpValidate_eq (sectors : BitVec 8) (buffer : ℕ) : ataOpValidate sectors buffer = -1 := by
  unfold ataOpValidate
  split
  · rfl
  · next h =>
    have hpos : BitVec.ofNat 8 maxSectors < sectors := (BitVec.pos_iff_ne_zero _).2 (not_or.1 h).2
    rw [if_pos hpos]

/-- `ata_finish_request` returns; only a request to identify the drive reads from it. -/
theorem ataFinishRequest_eq (drive : AtaDrive) (fuel : ℕ) (req : AtaRequest) (s : AtaIo) :
    ataFinishRequest drive fuel req s = some (match req.type with
      | .identify => (0, wordIterate (fun _ s => (inwData drive s).2) 256 0 s)
      | .unknown => (-1, s)
      | _ => (0, s)) := by
  unfold ataFinishRequest ataRead ataWrite
  simp only [ataOpValidate_eq]
  cases req.type <;> rfl

namespace AtaRequest

/-- A request to read or write, with a buffer and a number of sectors that is allowed. -/
structure Proper (req : AtaRequest) : Prop where
  transfer : req.type = .read ∨ req.type = .write
  buffer : req.buffer ≠ 0
  pos : 1 ≤ req.sectorCount.toNat
  le : req.sectorCount.toNat ≤ maxSectors

/-- The words of all sectors went between the data port and the buffer, and none else. -/
def Transferred (req : AtaRequest) (s s' : AtaIo) (ops : List PortOp) : Prop :=
  match req.type with
  | .read => (wordsIn ops).length = req.sectorCount.toNat * 256 ∧
      ∀ k v, (wordsIn ops)[k]? = some v → readHalf s'.memory (req.buffer + 2 * k) = v
  | .write => wordsOut ops =
      (List.range (req.sectorCount.toNat * 256)).map fun k => readHalf s.memory (req.buffer + 2 * k)
  | _ => True

/-- The drive reported no error. -/
def NoError (ops : List PortOp) : Prop := ∀ v ∈ statuses ops, v &&& ataErr = 0

/-- A status of `0` says that everything was transferred, and without an error. -/
def Truthful (drive : AtaDrive) (fuel : ℕ) (req : AtaRequest) (s : AtaIo) : Prop :=
  ∀ st s', ataFinishRequest drive fuel req s = some (st, s') → st = 0 →
    ∃ ops, s'.ops = s.ops ++ ops ∧ Transferred req s s' ops ∧ NoError ops

/-- The status is `0`, and nothing went over the ports. -/
theorem Proper.finish (h : req.Proper) : ataFinishRequest drive fuel req s = some (0, s) := by
  rw [ataFinishRequest_eq]
  rcases h.transfer with htype | htype <;> rw [htype]

/-- **The status is never truthful.** -/
theorem not_truthful (h : req.Proper) : ¬ Truthful drive fuel req s := by
  intro htruth
  obtain ⟨ops, hops, htransfer, -⟩ := htruth 0 s h.finish rfl
  obtain rfl : ops = [] := by simpa using hops
  have hcount : 0 < req.sectorCount.toNat * 256 := Nat.mul_pos h.pos (by decide)
  rcases h.transfer with htype | htype
  · rw [Transferred, htype] at htransfer
    exact absurd htransfer.1 (Nat.ne_of_lt hcount)
  · rw [Transferred, htype] at htransfer
    have hlen := congrArg List.length htransfer
    rw [List.length_map, List.length_range] at hlen
    exact absurd hlen (Nat.ne_of_lt hcount)

/-- A request for one sector. -/
def oneSector : AtaRequest := ⟨.read, 0, 0, 1, 4096, none⟩

/-- A drive that is ready and reads as zeros. -/
def quietDrive : AtaDrive := ⟨fun _ => ataRdy ||| ataDrq, fun _ => 0, fun _ => 0⟩

theorem oneSector_proper : oneSector.Proper := ⟨.inl rfl, by decide, by decide, by decide⟩

theorem not_truthful_oneSector : ¬ Truthful quietDrive 1 oneSector ⟨[], fun _ => 0⟩ :=
  not_truthful oneSector_proper

/-- A sector is asked for, none is read, and the status is `0`. -/
theorem untransferred_oneSector : oneSector.Proper ∧
    ataFinishRequest quietDrive 1 oneSector ⟨[], fun _ => 0⟩ = some (0, ⟨[], fun _ => 0⟩) ∧
      ¬ Truthful quietDrive 1 oneSector ⟨[], fun _ => 0⟩ := by
  refine ⟨oneSector_proper, oneSector_proper.finish, fun htruth => ?_⟩
  obtain ⟨ops, hops, htransfer, -⟩ := htruth 0 _ oneSector_proper.finish rfl
  obtain rfl : ops = [] := by simpa using hops
  exact absurd htransfer.1 (by decide)

end AtaRequest

end Flopperating
