/-
# Files of `tmpflopfs` are byte arrays

Each loop moves one piece of the transfer after the other, inside one page each time, so a
read returns a piece of the array (`tmpfsReadFrom_spec`) and a write overwrites one
(`tmpfsWriteFrom_spec`); the pages that a write adds are blank (`tmpfsGrow_spec`).

`needed` is computed as `(end + PAGE_SIZE - 1) / PAGE_SIZE` in 32 bits.  When `end` lies in
the last page of the 32-bit range the sum overflows, no page is added, and the copy follows
a pointer past the end of the table (`not_tmpfs_refines`).
-/

import Flopperating.Fs.Tmpfs

namespace Flopperating

open ByteFile

variable {t t' : TmpfsFile} {f : ByteFile UInt8} {b : ℕ → UInt8} {i j left n needed pa : ℕ}

theorem u64_of_lt {n : ℕ} (h : n < 2 ^ 64) : u64 n = n := Nat.mod_eq_of_lt h

/-- What is moved in one round is in one page. -/
theorem chunk_page (hj : j < tmpfsChunk t left) : (t.offset + j) / pageSize = t.offset / pageSize ∧
    (t.offset + j) % pageSize = t.offset % pageSize + j := by
  simp only [tmpfsChunk, pageSize] at *
  omega

/-- The page of a position that the table covers. -/
theorem page_of_lt (hlen : t.pages.length * pageSize ≤ 2 ^ 32) (hi : i < t.pages.length * pageSize) :
    ∃ pa, t.pages[u32 (i / pageSize)]? = some pa ∧ t.pages[i / pageSize]? = some pa := by
  have hlt : i / pageSize < t.pages.length := Nat.div_lt_of_lt_mul (by rwa [Nat.mul_comm])
  have hword : i / pageSize < 2 ^ 32 := lt_of_le_of_lt (Nat.div_le_self i pageSize) (hi.trans_le hlen)
  refine ⟨t.pages[i / pageSize], ?_, List.getElem?_eq_getElem hlt⟩
  rw [u32_of_lt hword]
  exact List.getElem?_eq_getElem hlt

/-! ### Reading -/

/-- **The loop of `tmpfs_op_read`** returns a piece of the array. -/
theorem tmpfsReadFrom_spec (hc : Content t b) (hfit : t.offset + left ≤ t.pages.length * pageSize)
    (hlen : t.pages.length * pageSize ≤ 2 ^ 32) :
    tmpfsReadFrom left t = .ok (slice b t.offset left, { t with offset := t.offset + left }) := by
  induction left using Nat.strong_induction_on generalizing t with
  | _ left ih =>
    rw [tmpfsReadFrom]
    split
    · next hzero =>
      rw [hzero]
      rfl
    · next hpos =>
      have hchunk := tmpfsChunk_pos t hpos
      have hle := tmpfsChunk_le t left
      obtain ⟨pa, hword, hpa⟩ := page_of_lt hlen (i := t.offset) (by omega)
      have hnext : u64 (t.offset + tmpfsChunk t left) = t.offset + tmpfsChunk t left := u64_of_lt (by omega)
      have hhere : slice (t.mem pa) (t.offset % pageSize) (tmpfsChunk t left) =
          slice b t.offset (tmpfsChunk t left) := slice_congr fun j hj => by
        obtain ⟨hdiv, hmod⟩ := chunk_page hj
        rw [← hmod]
        exact hc _ pa (by rw [hdiv, hpa])
      have hsum : tmpfsChunk t left + (left - tmpfsChunk t left) = left := Nat.add_sub_cancel' hle
      simp only [hword, hnext]
      rw [ih (left - tmpfsChunk t left) (by omega) (t := { t with offset := t.offset + tmpfsChunk t left }) hc
        (by rw [Nat.add_assoc, hsum]; exact hfit) hlen, Except.map]
      dsimp only
      rw [hhere, ← slice_add, Nat.add_assoc, hsum]

/-- **`tmpfs_op_read`** reads from the array. -/
theorem tmpfsOpRead_spec (h : Represents t f) (hfits : (TmpfsOp.read n).Fits f) :
    ∃ t', tmpfsOpRead n t = .ok ((((f.read n).1.length : ℤ), (f.read n).1), t') ∧ Represents t' (f.read n).2 := by
  obtain ⟨hdomain, hint⟩ := hfits
  have hlen := h.count ▸ h.bound
  have hcovers := h.covers
  rw [h.count] at hcovers
  rw [tmpfsOpRead, h.size, h.offset]
  have hbound : f.size < 2 ^ 32 := by simp only [pageSize] at *; omega
  have hrep : ∀ k, f.cursor + k < 2 ^ 64 → Represents { t with offset := f.cursor + k } { f with cursor := f.cursor + k } :=
    fun k _ => ⟨h.size, rfl, h.stat, h.count, h.nodup, h.content, h.blank, h.covers, h.bound⟩
  split
  · next hge =>
    refine ⟨t, ?_, ?_⟩
    · rw [ByteFile.read, Nat.sub_eq_zero_of_le hge, Nat.min_zero]
      rfl
    · rw [ByteFile.read, Nat.sub_eq_zero_of_le hge, Nat.min_zero]
      exact ⟨h.size, h.offset, h.stat, h.count, h.nodup, h.content, h.blank, h.covers, h.bound⟩
  · next hlt =>
    have hcount : (if u64 (f.cursor + n) > f.size then u32 (f.size - f.cursor) else n) = min n (f.size - f.cursor) := by
      rw [u64_of_lt (by omega), u32_of_lt (by omega)]
      split <;> omega
    simp only [hcount]
    rw [tmpfsReadFrom_spec h.content (by rw [h.offset]; simp only [pageSize] at *; omega)
      (by simp only [pageSize] at *; omega), Except.map, toInt_of_lt hint, h.offset]
    refine ⟨_, ?_, hrep (min n (f.size - f.cursor)) (by omega)⟩
    rw [ByteFile.read, length_slice]

/-! ### Writing -/

/-- Writing inside one page, seen in the array. -/
theorem content_update {xs : List UInt8} (hc : Content t b) (hn : t.pages.Nodup)
    (hpa : t.pages[t.offset / pageSize]? = some pa) (hin : t.offset % pageSize + xs.length ≤ pageSize) :
    Content { t with mem := Function.update t.mem pa (overwrite (t.mem pa) (t.offset % pageSize) xs) }
      (overwrite b t.offset xs) := by
  intro i pa' hi
  have hi : t.pages[i / pageSize]? = some pa' := hi
  rcases eq_or_ne pa' pa with rfl | hne
  · have hpage : i / pageSize = t.offset / pageSize := (List.getElem?_inj (List.getElem?_eq_some_iff.1 hi).1 hn).1
      (hi.trans hpa.symm)
    have hold := hc i pa' hi
    dsimp only
    rw [Function.update_self]
    have hdiv := Nat.div_add_mod i pageSize
    have hoff := Nat.div_add_mod t.offset pageSize
    rw [hpage] at hdiv
    rcases Nat.lt_or_ge i t.offset with hlt | hge
    · rw [overwrite_of_lt hlt, overwrite_of_lt (by omega), hold]
    · rw [overwrite, overwrite, if_pos hge, if_pos (by omega), hold]
      have hsub : i % pageSize - t.offset % pageSize = i - t.offset := by omega
      rw [hsub]
  · have hpage : i / pageSize ≠ t.offset / pageSize := fun he => hne (by
      rw [he, hpa] at hi
      exact (Option.some.inj hi).symm)
    dsimp only
    rw [Function.update_of_ne hne, hc i pa' hi]
    rcases Nat.lt_or_ge i t.offset with hlt | hge
    · rw [overwrite_of_lt hlt]
    · rw [overwrite_of_le]
      by_contra hbelow
      refine hpage ?_
      have hdiv := Nat.div_add_mod i pageSize
      have hoff := Nat.div_add_mod t.offset pageSize
      simp only [pageSize] at *
      omega

/-- **The loop of `tmpfs_op_write`** overwrites a piece of the array. -/
theorem tmpfsWriteFrom_spec (rest : List UInt8) (hc : Content t b) (hn : t.pages.Nodup)
    (hfit : t.offset + rest.length ≤ t.pages.length * pageSize) (hlen : t.pages.length * pageSize ≤ 2 ^ 32) :
    ∃ mem, tmpfsWriteFrom rest t = .ok { t with mem := mem, offset := t.offset + rest.length } ∧
      Content { t with mem := mem } (overwrite b t.offset rest) := by
  induction hleft : rest.length using Nat.strong_induction_on generalizing t b rest with
  | _ left ih =>
    rw [tmpfsWriteFrom]
    split
    · next hzero =>
      obtain rfl := List.length_eq_zero_iff.1 hzero
      obtain rfl : left = 0 := hleft.symm
      exact ⟨t.mem, rfl, by rw [overwrite_nil]; exact hc⟩
    · next hpos =>
      have hchunk := tmpfsChunk_pos t hpos
      have hle := tmpfsChunk_le t rest.length
      obtain ⟨pa, hword, hpa⟩ := page_of_lt hlen (i := t.offset) (by omega)
      have hnext : u64 (t.offset + tmpfsChunk t rest.length) = t.offset + tmpfsChunk t rest.length :=
        u64_of_lt (by omega)
      have htake : (rest.take (tmpfsChunk t rest.length)).length = tmpfsChunk t rest.length :=
        List.length_take_of_le hle
      have hdrop : (rest.drop (tmpfsChunk t rest.length)).length = rest.length - tmpfsChunk t rest.length :=
        List.length_drop
      have hin : t.offset % pageSize + (rest.take (tmpfsChunk t rest.length)).length ≤ pageSize := by
        have hmod : t.offset % pageSize < pageSize := Nat.mod_lt _ (by decide)
        rw [htake, tmpfsChunk]
        omega
      simp only [hword, hnext]
      obtain ⟨mem, hrun, hcontent⟩ := ih _ (by omega) (rest.drop (tmpfsChunk t rest.length))
        (t := { t with
          mem := Function.update t.mem pa
            (overwrite (t.mem pa) (t.offset % pageSize) (rest.take (tmpfsChunk t rest.length)))
          offset := t.offset + tmpfsChunk t rest.length })
        (content_update hc hn hpa hin) hn (by rw [hdrop]; dsimp only; omega) hlen rfl
      refine ⟨mem, ?_, ?_⟩
      · rw [hrun, hdrop, Nat.add_assoc, Nat.add_sub_cancel' hle, hleft]
      · rw [← List.take_append_drop (tmpfsChunk t rest.length) rest, overwrite_append, htake]
        exact hcontent

/-- **The allocation loop** takes pages that are blank afterwards, or runs out of them. -/
theorem tmpfsAllocPages_spec (n : ℕ) (t : TmpfsFile) : tmpfsAllocPages n t = .error .noMemory ∨
    n ≤ t.supply.length ∧ ∃ mem,
      tmpfsAllocPages n t = .ok (t.supply.take n, { t with supply := t.supply.drop n, mem := mem }) ∧
        (∀ pa ∈ t.supply.take n, ∀ j, mem pa j = 0) ∧ ∀ pa, pa ∉ t.supply.take n → mem pa = t.mem pa := by
  induction n generalizing t with
  | zero => exact .inr ⟨Nat.zero_le _, t.mem, rfl, by simp, fun _ _ => rfl⟩
  | succ n ih =>
    rw [tmpfsAllocPages]
    split
    · exact .inl rfl
    · next pa supply hsupply =>
      rcases ih { t with supply := supply, mem := Function.update t.mem pa fun _ => 0 } with
        herror | ⟨hle, mem, hrun, hzero, hsame⟩
      · exact .inl (by rw [herror]; rfl)
      · rw [hsupply, List.take_succ_cons, List.drop_succ_cons, List.length_cons]
        refine .inr ⟨Nat.succ_le_succ hle, mem, by rw [hrun]; rfl, fun a ha j => ?_, fun a ha => ?_⟩
        · by_cases hrest : a ∈ supply.take n
          · exact hzero a hrest j
          · have hhead : a = pa := (List.mem_cons.1 ha).resolve_right hrest
            rw [hsame a hrest, hhead]
            dsimp only
            rw [Function.update_self]
        · have hne : a ≠ pa := fun he => ha (by rw [he]; exact List.mem_cons_self)
          rw [hsame a fun hrest => ha (List.mem_cons_of_mem _ hrest)]
          exact Function.update_of_ne hne _ _

/-- **Making room** leaves the array as it is. -/
theorem tmpfsGrow_spec (kmalloc : Bool) (h : Represents t f) (hneeded : needed * pageSize ≤ 2 ^ 32 - pageSize) :
    tmpfsGrow kmalloc needed t = .error .noMemory ∨
      ∃ t', tmpfsGrow kmalloc needed t = .ok t' ∧ Represents t' f ∧ needed ≤ t'.pageCount := by
  rw [tmpfsGrow]
  split
  · next hmore =>
    rcases kmalloc with - | -
    · exact .inl rfl
    · rcases tmpfsAllocPages_spec (needed - t.pageCount) t with herror | ⟨hle, mem, hrun, hzero, hsame⟩
      · exact .inl (by rw [if_pos rfl, herror]; rfl)
      · refine .inr ⟨_, by rw [if_pos rfl, hrun]; rfl, ?_, le_rfl⟩
        have hall : t.pages.take t.pageCount = t.pages := by rw [h.count, List.take_length]
        have hlength : (t.pages ++ t.supply.take (needed - t.pageCount)).length = needed := by
          rw [List.length_append, ← h.count, List.length_take_of_le hle]
          omega
        have hnodup := h.nodup
        rw [← List.take_append_drop (needed - t.pageCount) t.supply, ← List.append_assoc] at hnodup
        have hmore' : t.pageCount * pageSize ≤ needed * pageSize := Nat.mul_le_mul_right _ hmore.le
        dsimp only
        rw [hall]
        refine ⟨h.size, h.offset, h.stat, hlength.symm, hnodup, fun i pa hi => ?_,
          fun i hi => h.blank i (hmore'.trans hi), h.covers.trans hmore', hneeded⟩
        have hi : (t.pages ++ t.supply.take (needed - t.pageCount))[i / pageSize]? = some pa := hi
        change mem pa (i % pageSize) = f.byte i
        rcases Nat.lt_or_ge (i / pageSize) t.pages.length with hlt | hge
        · rw [List.getElem?_append_left hlt] at hi
          have hold : pa ∉ t.supply.take (needed - t.pageCount) := fun hin =>
            (List.nodup_append.1 (List.nodup_append.1 hnodup).1).2.2 pa (List.mem_of_getElem? hi) pa hin rfl
          rw [hsame pa hold]
          exact h.content i pa hi
        · rw [List.getElem?_append_right hge] at hi
          rw [hzero pa (List.mem_of_getElem? hi), h.blank i]
          rw [h.count]
          exact (Nat.le_div_iff_mul_le (by decide)).1 hge
  · next hless => exact .inr ⟨t, rfl, h, by omega⟩

theorem tmpfsSetSize_eq (t : TmpfsFile) :
    tmpfsSetSize t = { t with size := max t.size t.offset, stSize := max t.size t.offset } := by
  rw [tmpfsSetSize]
  split
  · next hgt => rw [max_eq_right hgt.le]
  · next hle => rw [max_eq_left (Nat.le_of_not_lt hle)]

/-- **`tmpfs_op_write`** writes to the array, when there is memory. -/
theorem tmpfsOpWrite_spec {buf : List UInt8} (kmalloc : Bool) (h : Represents t f)
    (hfits : (TmpfsOp.write kmalloc buf).Fits f) : tmpfsOpWrite kmalloc buf t = .error .noMemory ∨
      ∃ t', tmpfsOpWrite kmalloc buf t = .ok ((buf.length : ℤ), t') ∧ Represents t' (f.write buf) := by
  obtain ⟨hdomain, hint⟩ := hfits
  have hstop : u32 (t.offset + buf.length) = f.cursor + buf.length := by
    rw [h.offset]
    exact u32_of_lt (by simp only [pageSize] at *; omega)
  have hround : u32 (f.cursor + buf.length + pageSize - 1) = f.cursor + buf.length + pageSize - 1 :=
    u32_of_lt (by simp only [pageSize] at *; omega)
  rw [tmpfsOpWrite, hstop]
  rw [hround]
  have hceil : f.cursor + buf.length ≤ (f.cursor + buf.length + pageSize - 1) / pageSize * pageSize ∧
      (f.cursor + buf.length + pageSize - 1) / pageSize * pageSize ≤ 2 ^ 32 - pageSize := by
    simp only [pageSize] at *
    omega
  rcases tmpfsGrow_spec kmalloc h hceil.2 with herror | ⟨t₁, hgrow, h₁, hle⟩
  · exact .inl (by rw [herror]; rfl)
  · have hroom : f.cursor + buf.length ≤ t₁.pageCount * pageSize := hceil.1.trans (Nat.mul_le_mul_right _ hle)
    obtain ⟨mem, hrun, hcontent⟩ := tmpfsWriteFrom_spec buf h₁.content (List.nodup_append.1 h₁.nodup).1
      (by rw [← h₁.count, h₁.offset]; exact hroom) (by rw [← h₁.count]; exact h₁.bound.trans (by decide))
    rw [h₁.offset] at hrun hcontent
    refine .inr ⟨_, by rw [hgrow, Except.bind, hrun, Except.map, u32_of_lt (by omega), toInt_of_lt hint], ?_⟩
    rw [tmpfsSetSize_eq]
    dsimp only
    rw [h₁.size]
    exact ⟨rfl, rfl, rfl, h₁.count, h₁.nodup, hcontent,
      fun i hi => (overwrite_of_le (hroom.trans hi)).trans (h₁.blank i hi), max_le h₁.covers hroom, h₁.bound⟩

/-- A copy that the table does not cover follows a pointer past its end. -/
theorem tmpfsWriteFrom_fails (rest : List UInt8) (hne : rest ≠ [])
    (hover : t.pages.length * pageSize < t.offset + rest.length) (hdomain : t.offset + rest.length < 2 ^ 32) :
    tmpfsWriteFrom rest t = .error .outOfBounds := by
  induction hleft : rest.length using Nat.strong_induction_on generalizing t rest with
  | _ left ih =>
    have hpos : rest.length ≠ 0 := fun hzero => hne (List.length_eq_zero_iff.1 hzero)
    have hchunk := tmpfsChunk_pos t hpos
    have hle := tmpfsChunk_le t rest.length
    have hword : u32 (t.offset / pageSize) = t.offset / pageSize :=
      u32_of_lt (lt_of_le_of_lt (Nat.div_le_self _ _) (by omega))
    have hnext : u64 (t.offset + tmpfsChunk t rest.length) = t.offset + tmpfsChunk t rest.length :=
      u64_of_lt (by omega)
    have hdrop : (rest.drop (tmpfsChunk t rest.length)).length = rest.length - tmpfsChunk t rest.length :=
      List.length_drop
    rw [tmpfsWriteFrom, if_neg hpos]
    simp only [hword, hnext]
    split
    · rfl
    · next pa hpa =>
      have hlt : t.offset / pageSize < t.pages.length := (List.getElem?_eq_some_iff.1 hpa).1
      -- the end of the page is covered, the end of the copy is not
      have hend : t.offset + tmpfsChunk t rest.length ≤ t.pages.length * pageSize := by
        simp only [tmpfsChunk, pageSize] at *
        omega
      refine ih _ (by omega) (rest.drop (tmpfsChunk t rest.length)) (fun hnil => ?_) ?_ ?_ rfl
      · rw [hnil, List.length_nil] at hdrop
        omega
      · rw [hdrop]
        dsimp only
        omega
      · rw [hdrop]
        dsimp only
        omega

/-- **A write into the last page** of the 32-bit range is out of bounds. -/
theorem tmpfsOpWrite_overflows {buf : List UInt8} (kmalloc : Bool) (h : Represents t f) (hne : buf ≠ [])
    (hdomain : (TmpfsOp.write kmalloc buf).InDomain f) (hlast : 2 ^ 32 - pageSize < f.cursor + buf.length) :
    tmpfsOpWrite kmalloc buf t = .error .outOfBounds := by
  have hdomain : f.cursor + buf.length < 2 ^ 32 := hdomain
  have hzero : u32 (f.cursor + buf.length + pageSize - 1) / pageSize = 0 := by
    simp only [u32, pageSize] at *
    omega
  have hbound := h.count ▸ h.bound
  rw [tmpfsOpWrite, h.offset, u32_of_lt hdomain]
  rw [hzero, tmpfsGrow, if_neg (Nat.not_lt_zero _), Except.bind,
    tmpfsWriteFrom_fails buf hne (by rw [h.offset]; exact hbound.trans_lt hlast) (by rw [h.offset]; exact hdomain)]
  rfl

/-! ### Seeking -/

/-- **`tmpfs_op_seek`** puts the cursor where it is to be. -/
theorem tmpfsOpSeek_spec {offset whence : ℕ} (h : Represents t f) (hfits : (TmpfsOp.seek offset whence).Fits f) :
    (tmpfsOpSeek offset whence t).1 = 0 ∧
      Represents (tmpfsOpSeek offset whence t).2 (f.seek (seekTarget offset whence f)) := by
  have htarget := hfits.2
  have hmove : ∀ k, Represents { t with offset := k } (f.seek k) := fun k =>
    ⟨h.size, rfl, h.stat, h.count, h.nodup, h.content, h.blank, h.covers, h.bound⟩
  refine ⟨rfl, ?_⟩
  rw [seekTarget] at htarget ⊢
  rw [tmpfsOpSeek]
  dsimp only
  split_ifs at htarget ⊢
  · exact hmove offset
  · rw [h.offset, u64_of_lt (htarget.trans (by decide))]
    exact hmove _
  · rw [h.size, u64_of_lt (htarget.trans (by decide)), ← h.size]
    exact hmove _
  · exact h

/-! ### Runs -/

/-- One operation. -/
theorem TmpfsOp.run_spec (op : TmpfsOp) (h : Represents t f) (hfits : op.Fits f) : op.run t = .error .noMemory ∨
    ∃ t', op.run t = .ok ((op.spec f).1, t') ∧ Represents t' (op.spec f).2 := by
  cases op with
  | write kmalloc buf =>
    rcases tmpfsOpWrite_spec kmalloc h hfits with herror | ⟨t', hrun, h'⟩
    · exact .inl (by rw [run, herror]; rfl)
    · exact .inr ⟨t', by rw [run, hrun]; rfl, h'⟩
  | read n =>
    obtain ⟨t', hrun, h'⟩ := tmpfsOpRead_spec h hfits
    exact .inr ⟨t', hrun, h'⟩
  | seek offset whence =>
    obtain ⟨hret, h'⟩ := tmpfsOpSeek_spec h hfits
    exact .inr ⟨_, by rw [run, hret]; rfl, h'⟩

/-- Operations one after the other. -/
theorem tmpfsRun_spec (ops : List TmpfsOp) (h : Represents t f) (hfits : Throughout (fun f op => op.Fits f) ops f) :
    tmpfsRun ops t = .error .noMemory ∨
      ∃ t', tmpfsRun ops t = .ok ((specRun ops f).1, t') ∧ Represents t' (specRun ops f).2 := by
  induction ops generalizing t f with
  | nil => exact .inr ⟨t, rfl, h⟩
  | cons op ops ih =>
    obtain ⟨hop, hrest⟩ := hfits
    rcases op.run_spec h hop with herror | ⟨t₁, hrun, h₁⟩
    · exact .inl (by rw [tmpfsRun, herror]; rfl)
    · rcases ih h₁ hrest with herror | ⟨t', hrun', h'⟩
      · exact .inl (by rw [tmpfsRun, hrun, Except.bind, herror]; rfl)
      · exact .inr ⟨t', by rw [tmpfsRun, hrun, Except.bind, hrun']; rfl, h'⟩

/-- **A file refines an array with a cursor**: operations that stay below the last page of
the 32-bit range and return an `int` read and write the array, as long as there is memory. -/
theorem tmpfs_refines (mem : ℕ → ℕ → UInt8) {supply : List ℕ} (hsupply : supply.Nodup) (ops : List TmpfsOp)
    (hfits : Throughout (fun f op => op.Fits f) ops .empty) :
    tmpfsRun ops (.new mem supply) = .error .noMemory ∨
      ∃ t', tmpfsRun ops (.new mem supply) = .ok ((specRun ops .empty).1, t') ∧
        Represents t' (specRun ops .empty).2 :=
  tmpfsRun_spec ops (represents_new hsupply) hfits

theorem tmpfs_refines_gap :
    tmpfsRun [.seek 5000 0, .write true [7], .seek 0 0, .read 2] (.new (fun _ _ => 9) [0x1000, 0x2000]) =
      .error .noMemory ∨
      ∃ t', tmpfsRun [.seek 5000 0, .write true [7], .seek 0 0, .read 2] (.new (fun _ _ => 9) [0x1000, 0x2000]) =
          .ok ((specRun [.seek 5000 0, .write true [7], .seek 0 0, .read 2] .empty).1, t') ∧
        Represents t' (specRun [.seek 5000 0, .write true [7], .seek 0 0, .read 2] .empty).2 :=
  tmpfs_refines _ (by decide) _ ⟨⟨by decide, by decide⟩, ⟨by decide, by decide⟩, ⟨by decide, by decide⟩,
    ⟨by decide, by decide⟩, trivial⟩

/-- One byte at `0xFFFFFFF0`, of a file without pages. -/
theorem not_tmpfs_refines : ¬ ∀ (mem : ℕ → ℕ → UInt8) (supply : List ℕ) (ops : List TmpfsOp), supply.Nodup →
    Throughout (fun f op => op.InDomain f) ops .empty → tmpfsRun ops (.new mem supply) = .error .noMemory ∨
      ∃ t', tmpfsRun ops (.new mem supply) = .ok ((specRun ops .empty).1, t') ∧
        Represents t' (specRun ops .empty).2 := by
  intro hall
  have hseek : (TmpfsOp.seek 0xFFFFFFF0 0).Fits .empty := ⟨by decide, by decide⟩
  have hdomain : (TmpfsOp.write true [1]).InDomain (ByteFile.seek 0xFFFFFFF0 .empty) :=
    show 0xFFFFFFF0 + 1 < 2 ^ 32 by decide
  have hnew : Represents (.new (fun _ _ => 0) [0x1000]) .empty := represents_new (by decide)
  have hwrite := tmpfsOpWrite_overflows true (tmpfsOpSeek_spec hnew hseek).2 (List.cons_ne_nil 1 []) hdomain (by decide)
  have hrun : tmpfsRun [.seek 0xFFFFFFF0 0, .write true [1]] (.new (fun _ _ => 0) [0x1000]) =
      .error .outOfBounds := by
    rw [tmpfsRun, TmpfsOp.run, Except.bind]
    dsimp only
    rw [tmpfsRun, TmpfsOp.run, hwrite]
    rfl
  rcases hall (fun _ _ => 0) [0x1000] [.seek 0xFFFFFFF0 0, .write true [1]] (by decide)
    ⟨hseek, hdomain, trivial⟩ with hnone | ⟨t', hok, -⟩
  · exact absurd (hrun.symm.trans hnone) (by simp)
  · exact absurd (hrun.symm.trans hok) (by simp)

end Flopperating
