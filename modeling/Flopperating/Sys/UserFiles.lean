/-
# Files and the memory of a process

`tmpfs_op_read` and `tmpfs_op_write` copy between the pages of a file and a buffer in the memory of the
process, piece by piece.  Of a buffer that ends in the address space and is not at `NULL` they make one
transfer between two arrays: a write takes a piece of the memory, a read puts one there.  So over any run
the file and the memory are what an array with a cursor and an array make of it (`userFiles_run`), and what
a process writes and reads back, to wherever, is what it has written (`write_readBack`).
-/

import Flopperating.Fs.TmpfsTruncate
import Flopperating.Sys.UserConfined

namespace Flopperating

open ByteFile TracedMemory

variable {addr n left buffer size : ℕ} {m : UserMemory} {t t' : TmpfsFile} {kmalloc : Bool} {f : ByteFile UInt8}
  {b : ℕ → UInt8}

/-! ### The copy loops -/

/-- The buffer is there, and ends in the address space. -/
structure Buffer (buffer size : ℕ) : Prop where
  ne_null : buffer ≠ 0
  le : buffer + size ≤ 2 ^ 32

theorem storeFrom_byteAt_add {i j : ℕ} {vs : List UInt8} :
    m.storeFrom (byteAt (u32 (addr + i))) j vs = m.storeFrom (byteAt addr) (i + j) vs := by
  induction vs generalizing j m with
  | nil => rfl
  | cons v vs ih => rw [storeFrom, storeFrom, byteAt_add, ih, Nat.add_assoc]

/-- The bytes after a round fit when those before it do. -/
theorem round_fits {chunk : ℕ} (hfits : addr + left ≤ 2 ^ 32) (hpos : 0 < chunk) (hle : chunk ≤ left) :
    (left - chunk ≠ 0 → u32 (addr + chunk) ≠ 0) ∧ u32 (addr + chunk) + (left - chunk) ≤ 2 ^ 32 := by
  have := u32_lt (addr + chunk)
  by_cases hlast : left - chunk = 0
  · exact ⟨fun h => absurd hlast h, by omega⟩
  · rw [u32_of_lt (by omega)]
    omega

/-- The loop of `tmpfs_op_read` stores what it reads of the file. -/
theorem tmpfsCopyFrom_copyToUser {t' : TmpfsFile} (left : ℕ) : ∀ (addr : ℕ) (t : TmpfsFile) (m : UserMemory)
    (bytes : List UInt8), (left ≠ 0 → addr ≠ 0) → addr + left ≤ 2 ^ 32 →
    tmpfsReadFrom left t = .ok (bytes, t') →
    tmpfsCopyFrom copyToUser addr left (t, m) = (true, t', m.storeFrom (byteAt addr) 0 bytes) := by
  induction left using Nat.strong_induction_on with
  | _ left ih =>
    intro addr t m bytes hnull hfits hread
    rw [tmpfsCopyFrom]
    rw [tmpfsReadFrom] at hread
    by_cases hleft : left = 0
    · rw [if_pos hleft] at hread ⊢
      obtain ⟨rfl, rfl⟩ := Prod.mk.inj (Except.ok.inj hread)
      rfl
    · rw [if_neg hleft] at hread ⊢
      dsimp only at hread ⊢
      rcases hpage : t.pages[u32 (t.offset / pageSize)]? with - | pa
      · rw [hpage] at hread
        exact absurd hread (by simp)
      · rw [hpage] at hread
        have hpos := tmpfsChunk_pos t hleft
        have hle := tmpfsChunk_le t left
        dsimp only at hread ⊢
        rw [if_neg (hnull hleft)]
        rcases hrest : tmpfsReadFrom (left - tmpfsChunk t left)
          { t with offset := u64 (t.offset + tmpfsChunk t left) } with e | ⟨bytes', t''⟩
        · rw [hrest] at hread
          exact absurd hread (by simp [Except.map])
        · rw [hrest] at hread
          obtain ⟨rfl, rfl⟩ := Prod.mk.inj (Except.ok.inj hread)
          obtain ⟨hgo, hfit⟩ := round_fits hfits hpos hle
          rw [show copyToUser pa (t.offset % pageSize) (tmpfsChunk t left) addr (t, m) = (t, m.storeFrom (byteAt addr) 0
            (ByteFile.slice (t.mem pa) (t.offset % pageSize) (tmpfsChunk t left))) from rfl]
          dsimp only
          rw [ih _ (by omega) _ _ _ bytes' hgo hfit hrest, storeFrom_byteAt_add, storeFrom_append,
            ByteFile.length_slice, Nat.add_zero, Nat.zero_add]

theorem loadFrom_slice : (m.loadFrom (byteAt addr) n left).1 =
    ByteFile.slice (fun k => m.value (byteAt addr k)) n left := by
  induction left generalizing n m with
  | zero => rfl
  | succ left ih =>
    rw [Nat.add_comm, ByteFile.slice_add, Nat.add_comm, loadFrom]
    exact congrArg (m.value (byteAt addr n) :: ·) ih

/-- The loop of `tmpfs_op_write` puts into the file what it loads. -/
theorem tmpfsCopyFrom_copyFromUser {t' : TmpfsFile} (left : ℕ) : ∀ (addr : ℕ) (t : TmpfsFile) (m : UserMemory),
    (left ≠ 0 → addr ≠ 0) → addr + left ≤ 2 ^ 32 →
    tmpfsWriteFrom (ByteFile.slice (fun k => m.value (byteAt addr k)) 0 left) t = .ok t' →
    ∃ m', tmpfsCopyFrom copyFromUser addr left (t, m) = (true, t', m') ∧ m'.value = m.value := by
  induction left using Nat.strong_induction_on with
  | _ left ih =>
    intro addr t m hnull hfits hwrite
    rw [tmpfsCopyFrom]
    rw [tmpfsWriteFrom, ByteFile.length_slice] at hwrite
    by_cases hleft : left = 0
    · rw [if_pos hleft] at hwrite ⊢
      obtain rfl := Except.ok.inj hwrite
      exact ⟨m, rfl, rfl⟩
    · rw [if_neg hleft] at hwrite ⊢
      dsimp only at hwrite ⊢
      rcases hpage : t.pages[u32 (t.offset / pageSize)]? with - | pa
      · rw [hpage] at hwrite
        exact absurd hwrite (by simp)
      · rw [hpage] at hwrite
        have hpos := tmpfsChunk_pos t hleft
        have hle := tmpfsChunk_le t left
        dsimp only at hwrite ⊢
        rw [if_neg (hnull hleft)]
        obtain ⟨hgo, hfit⟩ := round_fits hfits hpos hle
        have hsplit : ByteFile.slice (fun k => m.value (byteAt addr k)) 0 left =
            ByteFile.slice (fun k => m.value (byteAt addr k)) 0 (tmpfsChunk t left) ++
              ByteFile.slice (fun k => m.value (byteAt addr k)) (0 + tmpfsChunk t left) (left - tmpfsChunk t left) := by
          rw [← ByteFile.slice_add, Nat.add_sub_cancel' hle]
        have hrest : ByteFile.slice (fun k => m.value (byteAt (u32 (addr + tmpfsChunk t left)) k)) 0
            (left - tmpfsChunk t left) =
              ByteFile.slice (fun k => m.value (byteAt addr k)) (0 + tmpfsChunk t left) (left - tmpfsChunk t left) :=
          ByteFile.slice_congr fun j _ => by rw [byteAt_add, Nat.zero_add, Nat.zero_add]
        rw [hsplit, List.take_left' ByteFile.length_slice, List.drop_left' ByteFile.length_slice, ← hrest] at hwrite
        rw [show copyFromUser pa (t.offset % pageSize) (tmpfsChunk t left) addr (t, m) =
          ({ t with mem := Function.update t.mem pa (ByteFile.overwrite (t.mem pa) (t.offset % pageSize)
            (m.loadFrom (byteAt addr) 0 (tmpfsChunk t left)).1) }, (m.loadFrom (byteAt addr) 0 (tmpfsChunk t left)).2)
          from rfl, loadFrom_slice]
        dsimp only
        obtain ⟨m', hrun, hvalue⟩ := ih _ (by omega) _ _ (m.loadFrom (byteAt addr) 0 (tmpfsChunk t left)).2 hgo hfit
          (by rwa [value_loadFrom])
        exact ⟨m', hrun, hvalue.trans value_loadFrom⟩

/-- Bytes that are stored overwrite the memory. -/
theorem value_storeFrom_byteAt {bytes : List UInt8} (hle : buffer + (n + bytes.length) ≤ 2 ^ 32) :
    (m.storeFrom (byteAt buffer) n bytes).value = overwrite m.value (buffer + n) bytes := by
  induction bytes generalizing n m with
  | nil => exact overwrite_nil.symm
  | cons v bytes ih =>
    have hat : byteAt buffer n = buffer + n := u32_of_lt (by rw [List.length_cons] at hle; omega)
    have hone : overwrite m.value (buffer + n) [v] = Function.update m.value (buffer + n) v := by
      funext a
      rw [Function.update_apply]
      split
      · next h =>
        subst h
        exact overwrite_of_mem (i := 0) (show 0 < [v].length from Nat.one_pos)
      · next h =>
        rcases Nat.lt_or_gt_of_ne h with hlt | hgt
        · exact overwrite_of_lt hlt
        · exact overwrite_of_le hgt
    have happend : overwrite m.value (buffer + n) (v :: bytes) =
        overwrite (overwrite m.value (buffer + n) [v]) (buffer + (n + 1)) bytes := by
      rw [← List.singleton_append, overwrite_append]
      rfl
    rw [storeFrom, ih (by rw [List.length_cons] at hle; omega), store, hat, happend, hone]

theorem slice_byteAt (hle : buffer + size ≤ 2 ^ 32) :
    slice (fun k => m.value (byteAt buffer k)) 0 size = slice m.value buffer size :=
  slice_congr fun j hj => by
    rw [byteAt, Nat.zero_add, u32_of_lt (by omega)]

/-! ### Calls -/

/-- **A call of `tmpfs_op_read`** stores what the file has. -/
theorem tmpfsRead_of_opRead {v : ℤ} {bytes : List UInt8} (hbuffer : Buffer buffer size)
    (hoffset : t.offset + size < 2 ^ 64) (hrun : tmpfsOpRead size t = .ok ((v, bytes), t')) :
    tmpfsRead buffer size t m = (.returns v, t', m.storeFrom (byteAt buffer) 0 bytes) := by
  rw [tmpfsOpRead] at hrun
  rw [tmpfsRead]
  split at hrun
  · next hend =>
    rw [if_pos hend]
    obtain ⟨hout, rfl⟩ := Prod.mk.inj (Except.ok.inj hrun)
    obtain ⟨rfl, rfl⟩ := Prod.mk.inj hout
    rfl
  · next hend =>
    rw [if_neg hend]
    dsimp only at hrun ⊢
    have hcount : (if u64 (t.offset + size) > t.size then u32 (t.size - t.offset) else size) ≤ size := by
      rw [u64_of_lt hoffset]
      split
      · exact (Nat.mod_le _ _).trans (by omega)
      · exact le_rfl
    generalize (if u64 (t.offset + size) > t.size then u32 (t.size - t.offset) else size) = count at hrun hcount
    rcases hloop : tmpfsReadFrom count t with e | ⟨got, t₁⟩
    · rw [hloop] at hrun
      cases hrun
    · rw [hloop] at hrun
      obtain ⟨hout, rfl⟩ := Prod.mk.inj (Except.ok.inj hrun)
      obtain ⟨rfl, rfl⟩ := Prod.mk.inj hout
      rw [tmpfsCopyFrom_copyToUser count buffer t m got (fun _ => hbuffer.ne_null)
        ((Nat.add_le_add_left hcount buffer).trans hbuffer.le) hloop]
      rfl

/-- **A call of `tmpfs_op_write`** puts a piece of the memory into the file. -/
theorem tmpfsWrite_of_opWrite {v : ℤ} (hbuffer : Buffer buffer size) (hsize : size < 2 ^ 32)
    (hrun : tmpfsOpWrite kmalloc (slice m.value buffer size) t = .ok (v, t')) :
    ∃ m', tmpfsWrite kmalloc buffer size t m = (.returns v, t', m') ∧ m'.value = m.value := by
  rw [tmpfsOpWrite, length_slice] at hrun
  rw [tmpfsWrite]
  dsimp only
  rcases hgrow : tmpfsGrow kmalloc (u32 (u32 (t.offset + size) + pageSize - 1) / pageSize) t with e | t₁
  · rw [hgrow] at hrun
    cases hrun
  · rw [hgrow] at hrun
    change Except.map _ (tmpfsWriteFrom (slice m.value buffer size) t₁) = _ at hrun
    rcases hloop : tmpfsWriteFrom (slice m.value buffer size) t₁ with e | t₂
    · rw [hloop] at hrun
      cases hrun
    · rw [hloop] at hrun
      obtain ⟨rfl, rfl⟩ := Prod.mk.inj (Except.ok.inj hrun)
      rw [← slice_byteAt hbuffer.le] at hloop
      obtain ⟨m', hcopy, hvalue⟩ := tmpfsCopyFrom_copyFromUser size buffer t₁ m (fun _ => hbuffer.ne_null) hbuffer.le hloop
      refine ⟨m', ?_, hvalue⟩
      dsimp only
      rw [hcopy, u32_of_lt hsize]
      rfl

/-- It stops where there are no pages. -/
theorem tmpfsWrite_noMemory (hrun : tmpfsOpWrite kmalloc (slice m.value buffer size) t = .error .noMemory) :
    tmpfsWrite kmalloc buffer size t m = (.stops, t, m) ∧ ¬ HasPages kmalloc (writePages size t) t := by
  rw [tmpfsOpWrite, length_slice] at hrun
  rw [tmpfsWrite]
  dsimp only
  rcases tmpfsGrow_cases kmalloc (writePages size t) t with ⟨e, hgrow, hno⟩ | ⟨t₁, hgrow, -⟩
  · rw [writePages] at hgrow hno ⊢
    rw [hgrow]
    exact ⟨rfl, hno⟩
  · rw [writePages] at hgrow
    rw [hgrow] at hrun
    change Except.map _ (tmpfsWriteFrom (slice m.value buffer size) t₁) = _ at hrun
    rcases hloop : tmpfsWriteFrom (slice m.value buffer size) t₁ with e | t₂
    · rw [hloop] at hrun
      obtain rfl : e = .noMemory := Except.error.inj hrun
      exact absurd hloop (tmpfsWriteFrom_ne_noMemory _ _)
    · rw [hloop] at hrun
      cases hrun

/-! ### Runs -/

/-- An operation with a buffer of the process; of a write also whether `kmalloc` has memory. -/
inductive UserFileOp
  | write (kmalloc : Bool) (buffer size : ℕ)
  | read (buffer size : ℕ)
  | seek (offset whence : ℕ)

namespace UserFileOp

/-- One operation. -/
def run : UserFileOp → TmpfsFile × UserMemory → Ending × TmpfsFile × UserMemory
  | write kmalloc buffer size, (t, m) => tmpfsWrite kmalloc buffer size t m
  | read buffer size, (t, m) => tmpfsRead buffer size t m
  | seek offset whence, (t, m) => (.returns (tmpfsOpSeek offset whence t).1, (tmpfsOpSeek offset whence t).2, m)

/-- What it is for: between a file and a memory that are arrays. -/
def spec : UserFileOp → ByteFile UInt8 × (ℕ → UInt8) → ℤ × ByteFile UInt8 × (ℕ → UInt8)
  | write _ buffer size, (f, b) => (size, f.write (slice b buffer size), b)
  | read buffer size, (f, b) => ((f.read size).1.length, (f.read size).2, overwrite b buffer (f.read size).1)
  | seek offset whence, (f, b) => (0, f.seek (seekTarget offset whence f), b)

/-- The bounds of `TmpfsOp.Fits`, and those of the buffer. -/
def Fits (f : ByteFile UInt8) : UserFileOp → Prop
  | write _ buffer size => (f.cursor + size ≤ 2 ^ 32 - pageSize ∧ size < 2 ^ 31) ∧ Buffer buffer size
  | read buffer size => (TmpfsOp.read size).Fits f ∧ Buffer buffer size
  | seek offset whence => (TmpfsOp.seek offset whence).Fits f

/-- A write has the pages that it needs. -/
def HasRoom (t : TmpfsFile) : UserFileOp → Prop
  | write kmalloc _ size => HasPages kmalloc (writePages size t) t
  | read _ _ | seek _ _ => True

/-- What one operation does. -/
theorem run_spec (op : UserFileOp) (h : Represents t f) (hm : m.value = b) (hfits : op.Fits f) :
    (∃ s, op.run (t, m) = (.stops, s)) ∧ ¬ op.HasRoom t ∨
      ∃ t' m', op.run (t, m) = (.returns (op.spec (f, b)).1, t', m') ∧
        Represents t' (op.spec (f, b)).2.1 ∧ m'.value = (op.spec (f, b)).2.2 := by
  subst hm
  cases op with
  | write kmalloc buffer size =>
    obtain ⟨hbounds, hbuffer⟩ := hfits
    have hlen : (slice m.value buffer size).length = size := length_slice
    have hfits' : (TmpfsOp.write kmalloc (slice m.value buffer size)).Fits f := by
      rw [TmpfsOp.Fits, hlen]
      exact hbounds
    rcases tmpfsOpWrite_spec kmalloc h hfits' with hnone | ⟨t', hrun, h'⟩
    · obtain ⟨hstops, hroom⟩ := tmpfsWrite_noMemory hnone
      exact .inl ⟨⟨_, hstops⟩, hroom⟩
    · obtain ⟨m', hrun', hvalue⟩ := tmpfsWrite_of_opWrite hbuffer (hbounds.2.trans (by decide)) hrun
      rw [hlen] at hrun'
      exact .inr ⟨t', m', hrun', h', hvalue⟩
  | read buffer size =>
    obtain ⟨hbounds, hbuffer⟩ := hfits
    obtain ⟨t', hrun, h'⟩ := tmpfsOpRead_spec h hbounds
    have hoffset : t.offset + size < 2 ^ 64 := by
      rw [h.offset]
      exact hbounds.1.trans (by decide)
    refine .inr ⟨t', _, tmpfsRead_of_opRead hbuffer hoffset hrun, h', ?_⟩
    refine value_storeFrom_byteAt ((Nat.add_le_add_left ?_ buffer).trans hbuffer.le)
    rw [Nat.zero_add, length_read]
    exact Nat.min_le_left _ _
  | seek offset whence =>
    obtain ⟨hret, h'⟩ := tmpfsOpSeek_spec h hfits
    refine .inr ⟨_, m, ?_, h', rfl⟩
    rw [run, hret]
    rfl

/-- Operations one after the other, up to one that does not return. -/
def runAll : List UserFileOp → TmpfsFile × UserMemory → Option (List ℤ × TmpfsFile × UserMemory)
  | [], s => some ([], s)
  | op :: ops, s =>
    match op.run s with
    | (.returns v, s) => (runAll ops s).map fun o => (v :: o.1, o.2)
    | _ => none

def specAll : List UserFileOp → ByteFile UInt8 × (ℕ → UInt8) → List ℤ × ByteFile UInt8 × (ℕ → UInt8)
  | [], s => ([], s)
  | op :: ops, s => ((op.spec s).1 :: (specAll ops (op.spec s).2).1, (specAll ops (op.spec s).2).2)

/-- Every operation meets its bounds where it is made. -/
def AllFit : List UserFileOp → ByteFile UInt8 × (ℕ → UInt8) → Prop
  | [], _ => True
  | op :: ops, s => op.Fits s.1 ∧ AllFit ops (op.spec s).2

theorem runAll_cons {op : UserFileOp} {ops : List UserFileOp} {s s' : TmpfsFile × UserMemory} {v : ℤ}
    (h : op.run s = (.returns v, s')) : runAll (op :: ops) s = (runAll ops s').map fun o => (v :: o.1, o.2) := by
  rw [runAll, h]

/-- **Reads and writes of a process** are those of an array with a cursor, from and to its memory, up to a write
for which there are no pages. -/
theorem userFiles_run {ops : List UserFileOp} (h : Represents t f) (hfits : AllFit ops (f, m.value)) :
    (∃ before op after vs t₁ m₁, ops = before ++ op :: after ∧ runAll before (t, m) = some (vs, t₁, m₁) ∧
      ¬ op.HasRoom t₁ ∧ ∃ s, op.run (t₁, m₁) = (.stops, s)) ∨
    ∃ t' m', runAll ops (t, m) = some ((specAll ops (f, m.value)).1, t', m') ∧
      Represents t' (specAll ops (f, m.value)).2.1 ∧ m'.value = (specAll ops (f, m.value)).2.2 := by
  induction ops generalizing t f m with
  | nil => exact .inr ⟨t, m, rfl, h, rfl⟩
  | cons op ops ih =>
    obtain ⟨hop, hrest⟩ := hfits
    rcases op.run_spec h rfl hop with ⟨hstops, hroom⟩ | ⟨t₁, m₁, hrun, h₁, hm₁⟩
    · exact .inl ⟨[], op, ops, [], t, m, rfl, rfl, hroom, hstops⟩
    · have hspec : (op.spec (f, m.value)).2 = ((op.spec (f, m.value)).2.1, m₁.value) := Prod.ext rfl hm₁.symm
      rw [hspec] at hrest
      rcases ih h₁ hrest with ⟨before, op', after, vs, t₂, m₂, rfl, hbefore, hlast⟩ | ⟨t', m', hrun', h', hm'⟩
      · refine .inl ⟨op :: before, op', after, (op.spec (f, m.value)).1 :: vs, t₂, m₂, rfl, ?_, hlast⟩
        rw [runAll_cons hrun, hbefore]
        rfl
      · refine .inr ⟨t', m', ?_, ?_, ?_⟩
        · rw [runAll_cons hrun, hrun', specAll, hspec]
          rfl
        · rwa [specAll, hspec]
        · rwa [specAll, hspec]

/-- A new file, with one page to come, and a memory that counts. -/
def newFile : TmpfsFile × UserMemory := (.new (fun _ _ => 9) [0x1000], ⟨fun a => .ofNat a, []⟩)

theorem newFile_represents : Represents newFile.1 .empty := represents_new (by decide)

/-- Two bytes are written, and read back one byte further on. -/
def shift : List UserFileOp := [.write true 0x8000 2, .seek 0 0, .read 0x8001 2]

theorem userFiles_run_shift :
    (∃ before op after vs t₁ m₁, shift = before ++ op :: after ∧ runAll before newFile = some (vs, t₁, m₁) ∧
      ¬ op.HasRoom t₁ ∧ ∃ s, op.run (t₁, m₁) = (.stops, s)) ∨
    ∃ t' m', runAll shift newFile = some ((specAll shift (.empty, newFile.2.value)).1, t', m') ∧
      Represents t' (specAll shift (.empty, newFile.2.value)).2.1 ∧
      m'.value = (specAll shift (.empty, newFile.2.value)).2.2 :=
  userFiles_run newFile_represents ⟨⟨by decide, by decide, by decide⟩, ⟨by decide, by decide⟩,
    ⟨⟨by decide, by decide⟩, by decide, by decide⟩, trivial⟩

/-- **What a process writes and reads back is what it has written**, wherever it reads it to. -/
theorem write_readBack {src dst : ℕ} (h : Represents t f) (hwrite : (UserFileOp.write kmalloc src size).Fits f)
    (hread : Buffer dst size) (hroom : HasPages kmalloc (writePages size t) t) :
    ∃ t' m', runAll [.write kmalloc src size, .seek f.cursor 0, .read dst size] (t, m) =
      some ([(size : ℤ), 0, (size : ℤ)], t', m') ∧ m'.value = overwrite m.value dst (slice m.value src size) := by
  obtain ⟨⟨hdomain, hint⟩, -⟩ := id hwrite
  have hcursor : f.cursor + size < 2 ^ 32 := hdomain.trans_lt (by decide)
  rcases run_spec _ h rfl hwrite with ⟨-, hno⟩ | ⟨t₁, m₁, hrun₁, h₁, hm₁⟩
  · exact absurd hroom hno
  · have hseek : (UserFileOp.seek f.cursor 0).Fits (f.write (slice m.value src size)) :=
      ⟨by omega, (Nat.le_add_right _ _).trans_lt hcursor⟩
    rcases run_spec _ h₁ hm₁ hseek with ⟨-, hno⟩ | ⟨t₂, m₂, hrun₂, h₂, hm₂⟩
    · exact absurd trivial hno
    · have hback : (UserFileOp.read dst size).Fits ((f.write (slice m.value src size)).seek f.cursor) :=
        ⟨⟨hcursor, (Nat.min_le_left _ _).trans_lt hint⟩, hread⟩
      rcases run_spec _ h₂ hm₂ hback with ⟨-, hno⟩ | ⟨t₃, m₃, hrun₃, -, hm₃⟩
      · exact absurd trivial hno
      · have hall : min size (max f.size (f.cursor + size) - f.cursor) = size := by omega
        have hgot : (((f.write (slice m.value src size)).seek f.cursor).read size).1 = slice m.value src size := by
          have hback : slice (overwrite f.byte f.cursor (slice m.value src size)) f.cursor (slice m.value src size).length =
            slice m.value src size := slice_overwrite
          rw [length_slice] at hback
          rw [ByteFile.read, ByteFile.seek, ByteFile.write]
          dsimp only
          rw [length_slice, hall, hback]
        have hcount : (((f.write (slice m.value src size)).seek f.cursor).read size).1.length = size := by
          rw [hgot, length_slice]
        refine ⟨t₃, m₃, ?_, hm₃.trans (congrArg (overwrite m.value dst) hgot)⟩
        rw [runAll_cons hrun₁, runAll_cons hrun₂, runAll_cons hrun₃]
        exact congrArg (fun k : ℕ => some ([(size : ℤ), 0, (k : ℤ)], t₃, m₃)) hcount

theorem write_readBack_newFile :
    ∃ t' m', runAll shift newFile = some ([2, 0, 2], t', m') ∧
      m'.value = overwrite newFile.2.value 0x8001 (slice newFile.2.value 0x8000 2) := by
  have hwrite : (UserFileOp.write true 0x8000 2).Fits .empty := ⟨⟨by decide, by decide⟩, by decide, by decide⟩
  have hread : Buffer 0x8001 2 := ⟨by decide, by decide⟩
  have hroom : HasPages true (writePages 2 newFile.1) newFile.1 := fun _ => ⟨rfl, by decide⟩
  obtain ⟨t', m', hrun, hm⟩ := write_readBack (m := newFile.2) newFile_represents hwrite hread hroom
  exact ⟨t', m', hrun, hm⟩

end UserFileOp

end Flopperating
