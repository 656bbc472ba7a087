/-
# `sys_copy_file_range`

`sys_copy_file_range` of `src/sys/syscall.c` between two files of `tmpflopfs`.  Round after
round it reads up to 256 bytes of one file into a buffer and writes what it got to the other
one, until so many bytes are through or the file ends, and that is one copy
(`copyRange_spec`).

But `!args->a1 || !args->a2` takes descriptor `0` for an argument that is missing, and
`sys_open` gives that descriptor like any other (`sysCopyFileRange_copies_iff`).
-/

import Flopperating.Fs.TmpfsWorld
import Flopperating.Sys.DispatchSpec

namespace Flopperating

open ByteFile TracedM

namespace TmpfsWorld

/-- The system calls on files of `tmpflopfs`. -/
def files (ops : Rest TmpfsWorld) : Rest TmpfsWorld :=
  { ops with vfsRead := vfsRead, vfsWrite := vfsWrite, kmalloc := kmalloc, kfree := fun _ w => ((), w) }

/-- Node `n` can be read and node `m` written, they are of different files, and there is memory. -/
structure Ready (n m : ℕ) (w : TmpfsWorld) : Prop where
  distinct : w.data n ≠ w.data m
  reads : w.mode n &&& 1 = 1
  writes : w.mode m &&& 2 = 2
  stays : ¬ appends (w.mode m)
  granted : w.grant = true

/-- A call of `sys_copy_file_range` on the two nodes: the offsets stay below `2 ^ 31`, and
there are pages for what is written. -/
structure CopyCall (args : SyscallArgs) (fds : ℤ → VfsFileDescriptor) (n m : ℕ) (w : TmpfsWorld) : Prop
    extends Ready n m w where
  unused : args.a4 = 0 ∧ args.a5 = 0
  count : 1 ≤ args.a3
  source : InFds (toInt args.a1) ∧ (fds (toInt args.a1)).node = some n
  target : InFds (toInt args.a2) ∧ (fds (toInt args.a2)).node = some m
  files : w.Pair (w.data n) (w.data m) (w.view (w.data n)).file (w.view (w.data m)).file
  running : w.fault = none
  sourceFits : (w.file (w.data n)).offset + args.a3 < 2 ^ 31
  targetFits : (w.file (w.data m)).offset + args.a3 < 2 ^ 31
  pages : 0 < min args.a3 ((w.file (w.data n)).size - (w.file (w.data n)).offset) →
    (w.file (w.data m)).offset + min args.a3 ((w.file (w.data n)).size - (w.file (w.data n)).offset) ≤
      ((w.view (w.data m)).owned ++ w.supply).length * pageSize

/-- What `sys_copy_file_range` is to do: `k` bytes of the source, as many as there are, are
afterwards where the offset of the target was, both offsets have passed them, and the other
bytes are as before. -/
def Copied (n m k : ℕ) (w w' : TmpfsWorld) : Prop :=
  w'.fault = none ∧
    (w'.view (w.data n)).file = { (w.view (w.data n)).file with cursor := (w.file (w.data n)).offset + k } ∧
    (w'.file (w.data m)).offset = (w.file (w.data m)).offset + k ∧
    (w'.file (w.data m)).size =
      (if k = 0 then (w.file (w.data m)).size else max (w.file (w.data m)).size ((w.file (w.data m)).offset + k)) ∧
    (w'.view (w.data m)).pageByte = overwrite (w.view (w.data m)).pageByte (w.file (w.data m)).offset
      (slice (w.view (w.data n)).pageByte (w.file (w.data n)).offset k)

/-- It is through after at most so many rounds as there are bytes to copy, and has copied. -/
def Copies (ops : Rest TmpfsWorld) (args : SyscallArgs) (n m : ℕ) (table : TracedMemory ℤ VfsFileDescriptor)
    (w : TmpfsWorld) : Prop :=
  ∀ fuel, args.a3 < fuel → ∃ touched w',
    (files ops).sysCopyFileRange fuel args (table, w) =
        (some ((min args.a3 ((w.file (w.data n)).size - (w.file (w.data n)).offset) : ℕ) : ℤ),
          ⟨table.value, touched⟩, w') ∧
      Copied n m (min args.a3 ((w.file (w.data n)).size - (w.file (w.data n)).offset)) w w'

variable {ops : Rest TmpfsWorld} {w w₁ w₂ : TmpfsWorld} {f g : ByteFile UInt8} {args : SyscallArgs} {fdIn fdOut : ℤ}
  {n m i j count chunk fuel total : ℕ} {value : ℤ → VfsFileDescriptor}

theorem Ready.kept (h : Ready n m w) (hk : Kept j w w₁) : Ready n m w₁ where
  distinct := by rw [hk.data]; exact h.distinct
  reads := by rw [hk.mode]; exact h.reads
  writes := by rw [hk.mode]; exact h.writes
  stays := by rw [hk.mode]; exact h.stays
  granted := by rw [hk.grant]; exact h.granted

theorem Kept.trans (h : Kept j w w₁) (h' : Kept j w₁ w₂) : Kept j w w₂ where
  mode := h'.mode.trans h.mode
  data := h'.data.trans h.data
  grant := h'.grant.trans h.grant
  fault := h'.fault.trans h.fault
  room := h'.room.trans h.room

/-- One round of the loop: what `vfs_read` puts in the buffer is what `vfs_write` takes from it. -/
theorem copyRound_spec (ops : Rest TmpfsWorld) (size buffer : ℕ) (hready : Ready n m w) (hi : w.data n = i) (hj : w.data m = j)
    (hp : w.Pair i j f g) (hf : f.cursor + size < 2 ^ 31) (hg : g.cursor + size < 2 ^ 31)
    (hpages : 0 < min size (f.size - f.cursor) →
      g.cursor + min size (f.size - f.cursor) ≤ ((w.view j).owned ++ w.supply).length * pageSize) :
    ∃ w₁, (files ops).vfsRead (some n) buffer size w = (((min size (f.size - f.cursor) : ℕ) : ℤ), w₁) ∧
      (min size (f.size - f.cursor) = 0 → w₁.Pair i j f g ∧ w₁.fault = w.fault) ∧
      (0 < min size (f.size - f.cursor) → ∃ w₂,
        (files ops).vfsWrite (some m) buffer (min size (f.size - f.cursor)) w₁ =
            (((min size (f.size - f.cursor) : ℕ) : ℤ), w₂) ∧
          w₂.Pair i j (copy size f g).1 (copy size f g).2 ∧ Kept j w w₂) := by
  have hne : i ≠ j := hi ▸ hj ▸ hready.distinct
  have hread : (TmpfsOp.read size).Fits f := ⟨by omega, by omega⟩
  obtain ⟨w₁, hrun₁, hp₁, hbytes, hk₁⟩ := vfsRead_spec buffer hp hne hi hready.reads hread
  have hready₁ := hready.kept hk₁
  rw [length_read] at hrun₁ hbytes
  refine ⟨w₁, hrun₁, fun hend => ⟨?_, hk₁.fault⟩, fun hpos => ?_⟩
  · have hsame : (f.read size).2 = f := congrArg Prod.fst (copy_of_nil hend : copy size f g = (f, g))
    rwa [hsame] at hp₁
  · have hwrite : (TmpfsOp.write true (f.read size).1).Fits g := by
      have hbelow : (f.read size).1.length ≤ size := by
        rw [length_read]
        exact Nat.min_le_left _ _
      exact ⟨by simp only [pageSize]; omega, by omega⟩
    obtain ⟨w₂, hrun₂, hp₂, hk₂⟩ := vfsWrite_spec buffer hp₁ hne (by rw [hk₁.data]; exact hj) hready₁.writes
      hready₁.stays hready₁.granted hbytes hwrite (by rw [length_read, hk₁.room]; exact hpages hpos)
    rw [length_read] at hrun₂
    have hcopy : copy size f g = ((f.read size).2, g.write (f.read size).1) := by
      rw [copy, if_neg fun hnil => hpos.ne' (read_eq_nil.1 hnil)]
    rw [hcopy]
    exact ⟨w₂, hrun₂, hp₂, hk₁.trans hk₂⟩

/-- **The loop of `sys_copy_file_range`** is one copy of all that is left. -/
theorem copyRange_spec (ops : Rest TmpfsWorld) (buffer : ℕ) (touched : List ℤ) (hsource : (value fdIn).node = some n)
    (htarget : (value fdOut).node = some m) (hchunk : 0 < chunk) (hready : Ready n m w) (hi : w.data n = i)
    (hj : w.data m = j) (hp : w.Pair i j f g) (htotal : total ≤ count) (hcount : count < 2 ^ 31)
    (hf : f.cursor + (count - total) < 2 ^ 31) (hg : g.cursor + (count - total) < 2 ^ 31)
    (hpages : 0 < min (count - total) (f.size - f.cursor) →
      g.cursor + min (count - total) (f.size - f.cursor) ≤ ((w.view j).owned ++ w.supply).length * pageSize)
    (hfuel : count - total < fuel) :
    ∃ touched' w', (files ops).copyRange fdIn fdOut buffer count chunk fuel total (⟨value, touched⟩, w) =
        (some ((total + min (count - total) (f.size - f.cursor) : ℕ) : ℤ), ⟨value, touched'⟩, w') ∧
      w'.Pair i j (copy (count - total) f g).1 (copy (count - total) f g).2 ∧ w'.fault = w.fault := by
  induction fuel generalizing total f g w touched with
  | zero => exact absurd hfuel (Nat.not_lt_zero _)
  | succ fuel ih =>
    rw [Rest.copyRange]
    by_cases hlt : total < count
    · obtain ⟨size, hsize⟩ : ∃ size, size = min (count - total) chunk := ⟨_, rfl⟩
      obtain ⟨k, hk⟩ : ∃ k, k = min size (f.size - f.cursor) := ⟨_, rfl⟩
      obtain ⟨w₁, hread, hend, hmore⟩ := copyRound_spec ops size buffer hready hi hj hp (by omega)
        (by omega) fun hpos =>
          (by omega : _ ≤ g.cursor + min (count - total) (f.size - f.cursor)).trans (hpages (by omega))
      rw [← hk] at hread hend hmore
      rw [if_pos hlt, load_bind, lift_bind]
      dsimp only
      rw [hsource, ← hsize, hread]
      dsimp only
      rcases Nat.eq_zero_or_pos k with hzero | hpos
      · -- the file ends here
        obtain ⟨hp₁, hfault⟩ := hend hzero
        have hnone : min (count - total) (f.size - f.cursor) = 0 := by omega
        rw [hzero, Nat.cast_zero, if_pos le_rfl, hnone, copy_of_nil hnone, Nat.add_zero,
          toInt_of_lt (htotal.trans_lt hcount)]
        exact ⟨_, w₁, rfl, hp₁, hfault⟩
      · obtain ⟨w₂, hwrite, hp₂, hkept⟩ := hmore hpos
        rw [if_neg (by omega), load_bind, lift_bind, Int.toNat_natCast]
        dsimp only
        rw [TracedMemory.load, TracedMemory.load]
        rw [← htarget] at hwrite
        dsimp only
        rw [hwrite]
        dsimp only
        rw [if_neg (by omega), Int.toNat_natCast, u32_of_lt (by omega)]
        by_cases hshort : k < size
        · -- it ended within the round
          have hall : copy (count - total) f g = copy size f g := copy_of_le (by omega) (by omega)
          have hrest : k = min (count - total) (f.size - f.cursor) := by omega
          rw [if_pos hshort, hall, ← hrest, toInt_of_lt (by omega)]
          exact ⟨_, w₂, rfl, hp₂, hkept.fault⟩
        · obtain rfl : k = size := by omega
          have hsplit : count - total = k + (count - (total + k)) := by omega
          have hcursor : (copy k f g).1.cursor = f.cursor + k := congrArg (f.cursor + ·) hk.symm
          have hpast : (copy k f g).2.cursor = g.cursor + k := by
            rw [copy, if_neg fun hnil => hpos.ne' (hk.trans (read_eq_nil.1 hnil)), ByteFile.write, length_read, ← hk]
          have hall : copy (count - total) f g = copy (count - (total + k)) (copy k f g).1 (copy k f g).2 := by
            rw [hsplit, copy_add (by omega)]
          have hrest : total + min (count - total) (f.size - f.cursor) =
              total + k + min (count - (total + k)) ((copy k f g).1.size - (copy k f g).1.cursor) := by
            rw [hcursor]
            change _ = total + k + min (count - (total + k)) (f.size - (f.cursor + k))
            omega
          rw [if_neg hshort, hall, hrest, ← hkept.fault]
          refine ih _ (hready.kept hkept) (by rw [hkept.data]; exact hi) (by rw [hkept.data]; exact hj) hp₂
            (by omega) (by rw [hcursor]; omega) (by rw [hpast]; omega) (fun hmore => ?_) (by omega)
          rw [hkept.room, hpast]
          exact (by omega : _ ≤ g.cursor + min (count - total) (f.size - f.cursor)).trans (hpages (by omega))
    · have hdone : count - total = 0 := by omega
      rw [if_neg hlt, hdone, copy_of_nil (Nat.zero_min _), Nat.zero_min, Nat.add_zero,
        toInt_of_lt (htotal.trans_lt hcount)]
      exact ⟨touched, w, rfl, hp, rfl⟩

/-- The two files after the copy. -/
theorem copied_of_pair {k : ℕ} {w' : TmpfsWorld} (hk : k = min count ((w.view i).file.size - (w.view i).file.cursor))
    (hi : w.data n = i) (hj : w.data m = j)
    (hp : w'.Pair i j (copy count (w.view i).file (w.view j).file).1 (copy count (w.view i).file (w.view j).file).2)
    (hfault : w'.fault = none) : Copied n m k w w' := by
  have hsource := hp.source.file
  have htarget := hp.target.file
  have hread : ((w.view i).file.read count).1 = slice (w.view i).pageByte (w.file i).offset k := by rw [hk]; rfl
  rw [Copied, hi, hj]
  refine ⟨hfault, by rw [hsource, hk]; rfl, ?_⟩
  by_cases hnil : ((w.view i).file.read count).1 = []
  · have hzero : k = 0 := hk.trans (read_eq_nil.1 hnil)
    rw [copy, if_pos hnil] at htarget
    rw [hzero, if_pos rfl, slice_zero, overwrite_nil]
    exact ⟨congrArg cursor htarget, congrArg ByteFile.size htarget, congrArg byte htarget⟩
  · have hpos : k ≠ 0 := fun hzero => hnil (read_eq_nil.2 (hk.symm.trans hzero))
    rw [copy, if_neg hnil, hread] at htarget
    have hlength : (slice (w.view i).pageByte (w.file i).offset k).length = k := length_slice
    have hcursor := congrArg cursor htarget
    have hsize := congrArg ByteFile.size htarget
    rw [ByteFile.write, hlength] at hcursor hsize
    rw [if_neg hpos]
    exact ⟨hcursor, hsize, congrArg byte htarget⟩

variable {table : TracedMemory ℤ VfsFileDescriptor}

/-- **`sys_copy_file_range`** copies exactly when neither descriptor is `0`. -/
theorem sysCopyFileRange_copies_iff (ops : Rest TmpfsWorld) (h : CopyCall args table.value n m w) :
    Copies ops args n m table w ↔ args.a1 ≠ 0 ∧ args.a2 ≠ 0 := by
  constructor
  · intro hcopies
    by_contra hzero
    obtain ⟨touched, w', hrun, -⟩ := hcopies (args.a3 + 1) (Nat.lt_succ_self _)
    rw [Rest.sysCopyFileRange, if_pos (by omega)] at hrun
    have hminus : (-1 : ℤ) = ((min args.a3 ((w.file (w.data n)).size - (w.file (w.data n)).offset) : ℕ) : ℤ) :=
      Option.some.inj (congrArg Prod.fst hrun)
    omega
  · rintro ⟨h1, h2⟩ fuel hfuel
    obtain ⟨⟨hin, hsource⟩, hout, htarget⟩ := And.intro h.source h.target
    have hready : Ready n m { w with fresh := w.fresh + 1 } :=
      ⟨h.distinct, h.reads, h.writes, h.stays, h.granted⟩
    have hp : TmpfsWorld.Pair { w with fresh := w.fresh + 1 } (w.data n) (w.data m) (w.view (w.data n)).file
        (w.view (w.data m)).file := ⟨h.files.source, h.files.target, h.files.apart⟩
    have hsourceFits := h.sourceFits
    have hkmalloc : (files ops).kmalloc (min args.a3 256) w = (some w.fresh, { w with fresh := w.fresh + 1 }) :=
      if_pos h.granted
    obtain ⟨touched, w', hrun, hp', hfault⟩ := copyRange_spec ops w.fresh
      (toInt args.a2 :: toInt args.a1 :: table.touched) hsource htarget
      (by have := h.count; omega : 0 < min args.a3 256) hready rfl rfl hp (Nat.zero_le args.a3) (by omega) h.sourceFits
      h.targetFits h.pages hfuel
    rw [Rest.sysCopyFileRange, if_neg (by omega), if_neg (by have := h.unused; omega),
      if_neg (by unfold InFds at hin hout; omega), load_bind]
    have hsome : (table.value (toInt args.a1)).node ≠ none := by rw [hsource]; exact Option.some_ne_none n
    have hsome' : (table.value (toInt args.a2)).node ≠ none := by rw [htarget]; exact Option.some_ne_none m
    dsimp only
    rw [if_neg hsome, load_bind, if_neg (by exact hsome'), lift_bind]
    dsimp only
    rw [hkmalloc]
    dsimp only
    rw [bind_apply, TracedMemory.load, TracedMemory.load]
    dsimp only
    rw [hrun]
    refine ⟨touched, w', ?_, copied_of_pair rfl rfl rfl hp' (hfault.trans h.running)⟩
    rw [Nat.zero_add]
    rfl

/-- A file with one byte, and an empty one. -/
def twoFiles : TmpfsWorld where
  mode _ := 3
  data := id
  file i := if i = 1 then ⟨1, 0, [0x1000], 1⟩ else ⟨0, 0, [], 0⟩
  mem _ _ := 7
  supply := [0x2000]
  heap _ _ := 0
  fresh := 0
  grant := true
  fault := none

/-- Whatever else could be called fails. -/
def otherCalls : Rest TmpfsWorld where
  vfsRead _ _ _ w := (-1, w)
  vfsWrite _ _ _ w := (-1, w)
  vfsSeek _ _ _ w := (-1, w)
  vfsFstat _ _ w := (-1, w)
  vfsFtruncate _ _ w := (-1, w)
  vfsGetdents _ _ _ w := (-1, w)
  vfsOpen _ _ w := (none, w)
  vfsClose _ w := (-1, w)
  ioctl _ _ _ w := (-1, w)
  echo _ w := ((), w)
  flopstrlen _ w := (0, w)
  kmalloc _ w := (none, w)
  newPipe w := (none, w)
  kfree _ w := ((), w)
  kfreeDesc _ w := ((), w)
  storePipefd _ _ _ w := ((), w)
  region w := (none, w)
  mmapPages _ _ _ _ _ w := (-1, w)
  other _ _ w := (-1, w)

/-- Descriptor `a` is of the one, and the others are of the other. -/
def twoFds (a : ℕ) : TracedMemory ℤ VfsFileDescriptor := ⟨fun fd => ⟨some (if fd = a then 1 else 2), none, 1⟩, []⟩

theorem holds_twoFiles_one : twoFiles.Holds 1 ⟨1, 0, fun i => if i < pageSize then 7 else 0⟩ := by
  refine ⟨twoFiles.view 1, ⟨List.prefix_refl _, rfl⟩, ⟨rfl, rfl, rfl, rfl, by decide, fun i pa hpa => ?_, fun i hi => ?_,
    by decide, by decide⟩⟩
  · have hpage : i / pageSize < 1 := (List.getElem?_eq_some_iff.1 hpa).1
    have hlt : i < pageSize := by
      simp only [pageSize] at *
      omega
    change (7 : UInt8) = if i < pageSize then 7 else 0
    rw [if_pos hlt]
  · have hi : 1 * pageSize ≤ i := hi
    exact if_neg (by omega)

theorem holds_twoFiles_two : twoFiles.Holds 2 .empty :=
  ⟨twoFiles.view 2, ⟨List.prefix_refl _, rfl⟩, represents_new (List.nodup_singleton _)⟩

theorem copyCall_twoFiles {a b : ℕ} (ha : a < maxProcFds) (hb : b < maxProcFds) (hne : b ≠ a) (hword) :
    CopyCall ⟨a, b, 1, 0, 0, hword⟩ (twoFds a).value 1 2 twoFiles where
  distinct := show (1 : ℕ) ≠ 2 by decide
  reads := by decide
  writes := by decide
  stays := by decide
  granted := rfl
  unused := ⟨rfl, rfl⟩
  count := le_rfl
  source := by
    rw [toInt_of_lt (ha.trans (by decide))]
    exact ⟨⟨by omega, by omega⟩, congrArg some (if_pos rfl)⟩
  target := by
    rw [toInt_of_lt (hb.trans (by decide))]
    exact ⟨⟨by omega, by omega⟩, congrArg some (if_neg (by omega))⟩
  files := by
    change twoFiles.Pair 1 2 (twoFiles.view 1).file (twoFiles.view 2).file
    rw [holds_twoFiles_one.file, holds_twoFiles_two.file]
    exact ⟨holds_twoFiles_one, holds_twoFiles_two, fun _ _ => List.not_mem_nil⟩
  running := rfl
  sourceFits := by
    change 0 + 1 < 2 ^ 31
    omega
  targetFits := by
    change 0 + 1 < 2 ^ 31
    omega
  pages _ := by
    have hpages : (twoFiles.view 2).owned ++ twoFiles.supply = [0x2000] := rfl
    change 1 ≤ ((twoFiles.view 2).owned ++ twoFiles.supply).length * pageSize
    rw [hpages]
    decide

theorem sysCopyFileRange_copies_iff_one :
    Copies otherCalls ⟨1, 2, 1, 0, 0, by decide⟩ 1 2 (twoFds 1) twoFiles ↔ 1 ≠ 0 ∧ 2 ≠ 0 :=
  sysCopyFileRange_copies_iff otherCalls (copyCall_twoFiles (by decide) (by decide) (by decide) _)

/-- From descriptor `0`, which has a byte, none is copied. -/
theorem not_sysCopyFileRange_copies : ¬ ∀ (ops : Rest TmpfsWorld) (args : SyscallArgs) (n m : ℕ)
    (table : TracedMemory ℤ VfsFileDescriptor) (w : TmpfsWorld), CopyCall args table.value n m w →
      Copies ops args n m table w := by
  intro hall
  obtain ⟨touched, w', hrun, -⟩ := hall otherCalls ⟨0, 1, 1, 0, 0, by decide⟩ 1 2 (twoFds 0) twoFiles
    (copyCall_twoFiles (by decide) (by decide) (by decide) _) 2 (by decide)
  have hminus : (-1 : ℤ) = 1 := Option.some.inj (congrArg Prod.fst hrun)
  exact absurd hminus (by decide)

end TmpfsWorld

end Flopperating
