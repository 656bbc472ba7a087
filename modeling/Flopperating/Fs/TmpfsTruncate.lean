/-
# Truncating files of `tmpflopfs`

`tmpfs_op_truncate` of `src/fs/tmpflopfs/tmpflopfs.c`.  It sets the size and the number of
pages and frees the pages that are cut off; the table of pages stays as it is, so its entries
from `page_count` on are stale (`Trims`).

Nothing is allocated or cleared.  Where the size grows, what is uncovered reads as zero only
when it is zero in the pages (`Clean`), and a size that takes more pages than there are leaves
a `page_count` past the end of the table (`not_tmpfs_truncates`).
-/

import Flopperating.Fs.TmpfsSpec

namespace Flopperating

open ByteFile

/-- The loop of `tmpfs_op_truncate`, for the `n` pages from the `i`-th on. -/
def tmpfsFreePages (pages : List ℕ) : ℕ → ℕ → Option (List ℕ)
  | _, 0 => some []
  | i, n + 1 => pages[i]?.bind fun pa => (tmpfsFreePages pages (i + 1) n).map (pa :: ·)

/-- `tmpfs_op_truncate`: the value returned, the pages that are freed, and the file. -/
def tmpfsOpTruncate (length : ℕ) (t : TmpfsFile) : Except TmpfsFault ((ℤ × List ℕ) × TmpfsFile) :=
  let needed := u32 (u64 (length + pageSize - 1) / pageSize)
  match tmpfsFreePages t.pages needed (t.pageCount - needed) with
  | none => .error .outOfBounds
  | some freed => .ok ((0, freed), { t with size := length, pageCount := needed, stSize := length })

/-- An operation on a file; after a `truncate` the pages that `pmm_alloc_pages` will return are
others, as some are free again. -/
inductive TmpfsCall
  | op (o : TmpfsOp)
  | truncate (length : ℕ) (supply : List ℕ)

def TmpfsCall.run : TmpfsCall → TmpfsFile → Except TmpfsFault ((ℤ × List UInt8) × TmpfsFile)
  | op o, t => o.run t
  | truncate length supply, t =>
    (tmpfsOpTruncate length t).map fun o => ((o.1.1, []), { o.2 with supply := supply })

/-- Calls one after the other. -/
def tmpfsCalls : List TmpfsCall → TmpfsFile → Except TmpfsFault (List (ℤ × List UInt8) × TmpfsFile)
  | [], t => .ok ([], t)
  | c :: calls, t => (c.run t).bind fun o => (tmpfsCalls calls o.2).map fun o' => (o.1 :: o'.1, o'.2)

/-- What a call is to return and to do. -/
def TmpfsCall.spec : TmpfsCall → ByteFile UInt8 → (ℤ × List UInt8) × ByteFile UInt8
  | op o, f => o.spec f
  | truncate length _, f => ((0, []), f.truncate length)

def specCalls : List TmpfsCall → ByteFile UInt8 → List (ℤ × List UInt8) × ByteFile UInt8
  | [], f => ([], f)
  | c :: calls, f => ((c.spec f).1 :: (specCalls calls (c.spec f).2).1, (specCalls calls (c.spec f).2).2)

namespace TmpfsFile

/-- The pages that the file has. -/
def owned (t : TmpfsFile) : List ℕ := t.pages.take t.pageCount

/-- The byte at a position, also beyond the size. -/
def pageByte (t : TmpfsFile) (i : ℕ) : UInt8 := (t.owned[i / pageSize]?).elim 0 fun pa => t.mem pa (i % pageSize)

/-- What the pages hold. -/
def file (t : TmpfsFile) : ByteFile UInt8 := ⟨t.size, t.offset, t.pageByte⟩

/-- What a growth to `n` uncovers is zero. -/
def Clean (t : TmpfsFile) (n : ℕ) : Prop := ∀ i, t.size ≤ i → i < n → t.pageByte i = 0

/-- The table has further entries, which are stale. -/
structure Trims (t' t : TmpfsFile) : Prop where
  pages : t'.pages <+: t.pages
  rest : t = { t' with pages := t.pages }

/-- The file stands for the array. -/
def Stands (t : TmpfsFile) (f : ByteFile UInt8) : Prop := ∃ t' g, Trims t' t ∧ Represents t' g ∧ Agrees g f

/-- What `tmpfs_op_truncate` is to do: the bytes below both sizes stay and the others are zero,
every page below `page_count` is in the table, and the pages that are not kept are freed, once. -/
def TruncateLaw (length : ℕ) (t : TmpfsFile) : Prop :=
  ∃ freed t', tmpfsOpTruncate length t = .ok ((0, freed), t') ∧ t'.size = length ∧ t'.stSize = length ∧
    (∀ i < length, t'.pageByte i = if i < t.size then t.pageByte i else 0) ∧
    (∀ i < t'.pageCount, ∃ pa, t'.pages[i]? = some pa) ∧ length ≤ t'.pageCount * pageSize ∧
    t'.owned ++ freed = t.owned ∧ (t'.owned ++ freed).Nodup

end TmpfsFile

open TmpfsFile

/-- A write stays below the last page and a growth uncovers only zeros; a size fits the pages
that there are, and the pages that will be allocated are others than the ones kept. -/
def TmpfsCall.Ok : TmpfsCall → TmpfsFile → Prop
  | op (.write kmalloc buf), t => (TmpfsOp.write kmalloc buf).Fits t.file ∧ t.Clean t.offset
  | op o, t => o.Fits t.file
  | truncate length supply, t => length ≤ t.pageCount * pageSize ∧ t.Clean length ∧
      (t.owned.take ((length + pageSize - 1) / pageSize) ++ supply).Nodup

/-- Every call of a run meets the condition. -/
def Meets : List TmpfsCall → TmpfsFile → Prop
  | [], _ => True
  | c :: calls, t => c.Ok t ∧ ∀ o t', c.run t = .ok (o, t') → Meets calls t'

variable {t t' t₁ : TmpfsFile} {f g : ByteFile UInt8} {pages : List ℕ} {i n left length : ℕ}

/-! ### Stale entries of the table -/

theorem TmpfsFile.Trims.owned (h : Trims t' t) (hcount : t'.pageCount = t'.pages.length) : t.owned = t'.pages := by
  have hsame : t.pageCount = t'.pageCount := by rw [h.rest]
  rw [TmpfsFile.owned, hsame, hcount]
  exact (List.prefix_iff_eq_take.1 h.pages).symm

theorem Represents.pageByte (h : Represents t' g) (ht : Trims t' t) : t.pageByte = g.byte := by
  funext i
  have hmem : t.mem = t'.mem := by rw [ht.rest]
  rw [TmpfsFile.pageByte, ht.owned h.count, hmem]
  rcases hpa : t'.pages[i / pageSize]? with - | pa
  · refine (h.blank i ?_).symm
    rw [h.count]
    exact (Nat.le_div_iff_mul_le (by decide)).1 (List.getElem?_eq_none_iff.1 hpa)
  · exact h.content i pa hpa

/-- The array that the pages hold. -/
theorem Represents.file (h : Represents t' g) (ht : Trims t' t) : t.file = g := by
  rw [TmpfsFile.file, h.pageByte ht, ht.rest]
  dsimp only
  rw [h.size, h.offset]

theorem getElem?_of_table (h : t.pages <+: pages) {pa : ℕ} (hi : t.pages[i]? = some pa) : pages[i]? = some pa := by
  obtain ⟨rest, rfl⟩ := h
  rw [List.getElem?_append_left (List.getElem?_eq_some_iff.1 hi).1, hi]

/-- The loop of `tmpfs_op_read` does not see the stale entries. -/
theorem tmpfsReadFrom_trim (h : t.pages <+: pages) {bytes : List UInt8} (hrun : tmpfsReadFrom left t = .ok (bytes, t')) :
    t'.pages = t.pages ∧ tmpfsReadFrom left { t with pages := pages } = .ok (bytes, { t' with pages := pages }) := by
  induction left using Nat.strong_induction_on generalizing t bytes with
  | _ left ih =>
    rw [tmpfsReadFrom] at hrun ⊢
    split at hrun
    · next hzero =>
      obtain ⟨rfl, rfl⟩ := Prod.mk.inj (Except.ok.inj hrun)
      rw [if_pos hzero]
      exact ⟨rfl, rfl⟩
    · next hpos =>
      have hchunk := tmpfsChunk_pos t hpos
      rw [if_neg hpos]
      dsimp only at hrun ⊢
      split at hrun
      · exact absurd hrun (by simp)
      · next pa hpa =>
        rw [getElem?_of_table h hpa]
        rcases hrest : tmpfsReadFrom (left - tmpfsChunk t left) { t with offset := u64 (t.offset + tmpfsChunk t left) }
          with e | ⟨more, t₁⟩
        · rw [hrest] at hrun
          exact absurd hrun (by simp [Except.map])
        · rw [hrest] at hrun
          obtain ⟨rfl, rfl⟩ := Prod.mk.inj (Except.ok.inj hrun)
          obtain ⟨hpages, hrest'⟩ := ih _ (by omega) (t := { t with offset := u64 (t.offset + tmpfsChunk t left) }) h hrest
          refine ⟨hpages, ?_⟩
          change (tmpfsReadFrom (left - tmpfsChunk t left)
            { t with pages := pages, offset := u64 (t.offset + tmpfsChunk t left) }).map _ = _
          rw [hrest']
          rfl

/-- The loop of `tmpfs_op_write` does not see them. -/
theorem tmpfsWriteFrom_trim (rest : List UInt8) (h : t.pages <+: pages) (hrun : tmpfsWriteFrom rest t = .ok t') :
    t'.pages = t.pages ∧ tmpfsWriteFrom rest { t with pages := pages } = .ok { t' with pages := pages } := by
  induction hleft : rest.length using Nat.strong_induction_on generalizing t rest with
  | _ left ih =>
    rw [tmpfsWriteFrom] at hrun ⊢
    split at hrun
    · next hzero =>
      obtain rfl := Except.ok.inj hrun
      rw [if_pos hzero]
      exact ⟨rfl, rfl⟩
    · next hpos =>
      have hchunk := tmpfsChunk_pos t hpos
      rw [if_neg hpos]
      dsimp only at hrun ⊢
      split at hrun
      · exact absurd hrun (by simp)
      · next pa hpa =>
        rw [getElem?_of_table h hpa]
        have hdrop : (rest.drop (tmpfsChunk t rest.length)).length < left := by
          rw [List.length_drop]
          omega
        exact ih _ hdrop (rest.drop (tmpfsChunk t rest.length)) (t := { t with
          mem := Function.update t.mem pa
            (overwrite (t.mem pa) (t.offset % pageSize) (rest.take (tmpfsChunk t rest.length)))
          offset := u64 (t.offset + tmpfsChunk t rest.length) }) h hrun rfl

theorem tmpfsWriteFrom_ne_noMemory (rest : List UInt8) (t : TmpfsFile) : tmpfsWriteFrom rest t ≠ .error .noMemory := by
  induction hleft : rest.length using Nat.strong_induction_on generalizing t rest with
  | _ left ih =>
    rw [tmpfsWriteFrom]
    split
    · simp
    · next hpos =>
      have hchunk := tmpfsChunk_pos t hpos
      dsimp only
      split
      · simp
      · exact ih _ (by rw [List.length_drop]; omega) _ _ rfl

/-- The allocation loop does not look at the table. -/
theorem tmpfsAllocPages_pages (n : ℕ) (t : TmpfsFile) (pages : List ℕ) : tmpfsAllocPages n { t with pages := pages } =
    (tmpfsAllocPages n t).map fun o => (o.1, { o.2 with pages := pages }) := by
  induction n generalizing t with
  | zero => rfl
  | succ n ih =>
    rw [tmpfsAllocPages, tmpfsAllocPages]
    rcases hsupply : t.supply with - | ⟨pa, supply⟩
    · rfl
    · have hrest := ih { t with supply := supply, mem := Function.update t.mem pa fun _ => 0 }
      dsimp only at hrest ⊢
      rw [hrest]
      rcases tmpfsAllocPages n { t with supply := supply, mem := Function.update t.mem pa fun _ => 0 } with e | o <;> rfl

/-- A table that grows loses its stale entries, as they are not copied. -/
theorem tmpfsGrow_trim (kmalloc : Bool) (needed : ℕ) (h : t.pages <+: pages) (hcount : t.pageCount ≤ t.pages.length) :
    tmpfsGrow kmalloc needed { t with pages := pages } = (tmpfsGrow kmalloc needed t).map fun t₁ =>
      if needed > t.pageCount then t₁ else { t₁ with pages := pages } := by
  have htake : pages.take t.pageCount = t.pages.take t.pageCount := by
    obtain ⟨rest, rfl⟩ := h
    exact List.take_append_of_le_length hcount
  rw [tmpfsGrow, tmpfsGrow]
  dsimp only
  by_cases hmore : needed > t.pageCount
  · simp only [if_pos hmore]
    cases kmalloc with
    | false => rfl
    | true =>
      rw [if_pos rfl, if_pos rfl, tmpfsAllocPages_pages, htake]
      rcases tmpfsAllocPages (needed - t.pageCount) t with e | o <;> rfl
  · simp only [if_neg hmore]
    rfl

theorem tmpfsSetSize_pages (t : TmpfsFile) (pages : List ℕ) :
    tmpfsSetSize { t with pages := pages } = { tmpfsSetSize t with pages := pages } := by
  rw [tmpfsSetSize_eq, tmpfsSetSize_eq]

/-- A write with stale entries in the table does what it does without them. -/
theorem tmpfsOpWrite_trim {buf : List UInt8} {kmalloc : Bool} (ht : Trims t' t)
    (hcount : t'.pageCount = t'.pages.length) :
    (tmpfsOpWrite kmalloc buf t' = .error .noMemory → tmpfsOpWrite kmalloc buf t = .error .noMemory) ∧
      ∀ r t₁, tmpfsOpWrite kmalloc buf t' = .ok (r, t₁) → ∃ t₂, tmpfsOpWrite kmalloc buf t = .ok (r, t₂) ∧ Trims t₁ t₂ := by
  obtain ⟨hpre, hrest⟩ := ht
  have hoffset : t.offset = t'.offset := by rw [hrest]
  rw [tmpfsOpWrite, tmpfsOpWrite, hoffset]
  rw [hrest, tmpfsGrow_trim kmalloc _ hpre hcount.le]
  rcases hgrow : tmpfsGrow kmalloc (u32 (u32 (t'.offset + buf.length) + pageSize - 1) / pageSize) t' with e | t₂
  · exact ⟨id, fun r t₁ hok => absurd hok (by simp [Except.bind])⟩
  · simp only [Except.map, Except.bind]
    by_cases hmore : u32 (u32 (t'.offset + buf.length) + pageSize - 1) / pageSize > t'.pageCount
    · rw [if_pos hmore]
      exact ⟨id, fun r t₁ hok => ⟨t₁, hok, List.prefix_refl _, rfl⟩⟩
    · rw [if_neg hmore]
      have hsame : t₂ = t' := by
        rw [tmpfsGrow, if_neg hmore] at hgrow
        exact (Except.ok.inj hgrow).symm
      rw [hsame]
      rcases hwrite : tmpfsWriteFrom buf t' with e | t₃
      · refine ⟨fun herror => ?_, fun r t₁ hok => absurd hok (by simp)⟩
        have herror : e = .noMemory := by simpa using herror
        rw [herror] at hwrite
        exact absurd hwrite (tmpfsWriteFrom_ne_noMemory buf t')
      · obtain ⟨hpages, hwrite'⟩ := tmpfsWriteFrom_trim buf hpre hwrite
        refine ⟨fun herror => absurd herror (by simp), fun r t₁ hok => ?_⟩
        obtain ⟨rfl, rfl⟩ := Prod.mk.inj (Except.ok.inj hok)
        refine ⟨{ tmpfsSetSize t₃ with pages := t.pages }, ?_, ?_, rfl⟩
        · rw [hwrite', ← tmpfsSetSize_pages]
        · rw [tmpfsSetSize_eq]
          dsimp only
          rw [hpages]
          exact hpre

theorem tmpfsOpRead_trim {r : ℤ × List UInt8} (ht : Trims t' t) (hrun : tmpfsOpRead n t' = .ok (r, t₁)) :
    ∃ t₂, tmpfsOpRead n t = .ok (r, t₂) ∧ Trims t₁ t₂ := by
  obtain ⟨hpre, hrest⟩ := ht
  have hoffset : t.offset = t'.offset := by rw [hrest]
  have hsize : t.size = t'.size := by rw [hrest]
  rw [tmpfsOpRead] at hrun ⊢
  rw [hoffset, hsize]
  split at hrun
  · next hge =>
    obtain ⟨rfl, rfl⟩ := Prod.mk.inj (Except.ok.inj hrun)
    exact ⟨t, by rw [if_pos hge], hpre, hrest⟩
  · next hlt =>
    rw [if_neg hlt]
    dsimp only at hrun ⊢
    rcases hread : tmpfsReadFrom (if u64 (t'.offset + n) > t'.size then u32 (t'.size - t'.offset) else n) t'
      with e | ⟨bytes, t₃⟩
    · rw [hread] at hrun
      exact absurd hrun (by simp [Except.map])
    · rw [hread] at hrun
      obtain ⟨rfl, rfl⟩ := Prod.mk.inj (Except.ok.inj hrun)
      obtain ⟨hpages, hread'⟩ := tmpfsReadFrom_trim hpre hread
      refine ⟨{ t₃ with pages := t.pages }, ?_, by rw [hpages]; exact hpre, rfl⟩
      rw [hrest, hread']
      rfl

theorem tmpfsOpSeek_trim (offset whence : ℕ) (ht : Trims t' t) :
    (tmpfsOpSeek offset whence t).1 = (tmpfsOpSeek offset whence t').1 ∧
      Trims (tmpfsOpSeek offset whence t').2 (tmpfsOpSeek offset whence t).2 := by
  obtain ⟨hpre, hrest⟩ := ht
  refine ⟨rfl, ?_⟩
  rw [hrest]
  unfold tmpfsOpSeek
  dsimp only
  split_ifs <;> exact ⟨hpre, rfl⟩

/-! ### One call -/

/-- **Operations on a file with stale entries.** -/
theorem TmpfsOp.stands {o : TmpfsOp} (h : Stands t f) (hok : (TmpfsCall.op o).Ok t) : o.run t = .error .noMemory ∨
    ∃ t₁, o.run t = .ok ((o.spec f).1, t₁) ∧ Stands t₁ (o.spec f).2 := by
  obtain ⟨t', g, ht, hrep, hagree⟩ := h
  have hfile := hrep.file ht
  cases o with
  | write kmalloc buf =>
    obtain ⟨hfits, hclean⟩ := hok
    rw [hfile] at hfits
    have hgap : ∀ i, f.size ≤ i → i < f.cursor → g.byte i = 0 := fun i hsize hcursor => by
      have hzero := hclean i
      rw [hrep.pageByte ht] at hzero
      have hsame : t.size = g.size ∧ t.offset = g.cursor := by rw [ht.rest]; exact ⟨hrep.size, hrep.offset⟩
      exact hzero (by rw [hsame.1, hagree.size]; exact hsize) (by rw [hsame.2, hagree.cursor]; exact hcursor)
    rcases tmpfsOpWrite_spec kmalloc hrep hfits with hnone | ⟨t₁, hrun, hrep₁⟩
    · have herror := (tmpfsOpWrite_trim ht hrep.count).1 hnone
      exact .inl (by rw [run, herror]; rfl)
    · obtain ⟨t₂, hrun₂, ht₂⟩ := (tmpfsOpWrite_trim ht hrep.count).2 _ _ hrun
      exact .inr ⟨t₂, by rw [run, hrun₂]; rfl, t₁, g.write buf, ht₂, hrep₁, hagree.write hgap⟩
  | read n =>
    have hfits : (TmpfsOp.read n).Fits t.file := hok
    rw [hfile] at hfits
    obtain ⟨t₁, hrun, hrep₁⟩ := tmpfsOpRead_spec hrep hfits
    obtain ⟨t₂, hrun₂, ht₂⟩ := tmpfsOpRead_trim ht hrun
    obtain ⟨hbytes, hagree₁⟩ := hagree.read n
    refine .inr ⟨t₂, ?_, t₁, (g.read n).2, ht₂, hrep₁, hagree₁⟩
    rw [run, hrun₂, spec, hbytes]
  | seek offset whence =>
    have hfits : (TmpfsOp.seek offset whence).Fits t.file := hok
    rw [hfile] at hfits
    obtain ⟨hret, hrep₁⟩ := tmpfsOpSeek_spec hrep hfits
    obtain ⟨hsame, ht₂⟩ := tmpfsOpSeek_trim offset whence ht
    have htarget : seekTarget offset whence g = seekTarget offset whence f := by
      rw [seekTarget, seekTarget, hagree.size, hagree.cursor]
    rw [htarget] at hrep₁
    refine .inr ⟨_, ?_, _, _, ht₂, hrep₁, hagree.seek _⟩
    rw [run, hsame, hret]
    rfl

theorem tmpfsFreePages_eq (pages : List ℕ) (hn : i + n ≤ pages.length) :
    tmpfsFreePages pages i n = some ((pages.drop i).take n) := by
  induction n generalizing i with
  | zero => rw [tmpfsFreePages, List.take_zero]
  | succ n ih =>
    have hi : i < pages.length := by omega
    rw [tmpfsFreePages, List.getElem?_eq_getElem hi, Option.bind_some, ih (by omega), List.drop_eq_getElem_cons hi,
      List.take_succ_cons, Option.map_some]

/-- The number of pages that a size takes. -/
theorem needed_spec (length : ℕ) : length ≤ (length + pageSize - 1) / pageSize * pageSize ∧
    ∀ k, length ≤ k * pageSize → (length + pageSize - 1) / pageSize ≤ k := by
  refine ⟨by simp only [pageSize]; omega, fun k hk => ?_⟩
  simp only [pageSize] at *
  omega

/-- **`tmpfs_op_truncate`** to a size that fits the pages. -/
theorem tmpfsOpTruncate_eq (ht : Trims t' t) (hrep : Represents t' g) (hfit : length ≤ t.pageCount * pageSize)
    (hn : n = (length + pageSize - 1) / pageSize) :
    n ≤ t.pageCount ∧ t.pageCount ≤ t.pages.length ∧
      tmpfsOpTruncate length t = .ok ((0, t.owned.drop n), { t with size := length, pageCount := n, stSize := length }) := by
  have hcount : t.pageCount = t'.pageCount := by rw [ht.rest]
  have hbound := hrep.bound
  have hlen : t.pageCount ≤ t.pages.length := by
    rw [hcount, hrep.count]
    exact ht.pages.length_le
  have hneeded : u32 (u64 (length + pageSize - 1) / pageSize) = n := by
    rw [u64_of_lt (by simp only [pageSize] at *; omega), u32_of_lt (by simp only [pageSize] at *; omega), hn]
  have hle : n ≤ t.pageCount := by
    rw [hn]
    exact (needed_spec length).2 _ hfit
  refine ⟨hle, hlen, ?_⟩
  rw [tmpfsOpTruncate]
  simp only [hneeded]
  rw [tmpfsFreePages_eq _ (by omega), ← List.drop_take]
  rfl

/-- The law, in a state where the condition holds. -/
theorem TmpfsFile.Stands.truncateLaw (h : Stands t f) {supply : List ℕ} (hok : (TmpfsCall.truncate length supply).Ok t) :
    TruncateLaw length t := by
  obtain ⟨t', g, ht, hrep, -⟩ := h
  obtain ⟨hfit, hclean, -⟩ := hok
  obtain ⟨n, hn⟩ : ∃ n, n = (length + pageSize - 1) / pageSize := ⟨_, rfl⟩
  have hcovers := (needed_spec length).1
  obtain ⟨hle, hlen, hrun⟩ := tmpfsOpTruncate_eq ht hrep hfit hn
  rw [← hn] at hcovers
  have howned := ht.owned hrep.count
  have hkept : (t.pages.take t.pageCount).take n = t.pages.take n := by rw [List.take_take, min_eq_left hle]
  have hall : t.pages.take n ++ t.owned.drop n = t.owned := by
    rw [← hkept]
    exact List.take_append_drop _ _
  refine ⟨_, _, hrun, rfl, rfl, fun i hi => ?_, fun i hi => ?_, hcovers, hall, ?_⟩
  · have hpage : i / pageSize < n := (Nat.div_lt_iff_lt_mul (by decide)).2 (hi.trans_le hcovers)
    have hsame : TmpfsFile.pageByte { t with size := length, pageCount := n, stSize := length } i = t.pageByte i := by
      rw [TmpfsFile.pageByte, TmpfsFile.pageByte, TmpfsFile.owned, TmpfsFile.owned, List.getElem?_take_of_lt hpage,
        List.getElem?_take_of_lt (hpage.trans_le hle)]
    rw [hsame]
    split
    · rfl
    · next hge => exact hclean i (Nat.le_of_not_lt hge) hi
  · have hi : i < n := hi
    exact ⟨_, List.getElem?_eq_getElem (by dsimp only; omega)⟩
  · change (t.pages.take n ++ t.owned.drop n).Nodup
    rw [hall, howned]
    exact (List.nodup_append.1 hrep.nodup).1

/-- **Truncating** an array. -/
theorem TmpfsFile.Stands.truncate (h : Stands t f) {supply : List ℕ} (hok : (TmpfsCall.truncate length supply).Ok t) :
    ∃ t₁, (TmpfsCall.truncate length supply).run t = .ok ((0, []), t₁) ∧ Stands t₁ (f.truncate length) := by
  obtain ⟨t', g, ht, hrep, hagree⟩ := h
  obtain ⟨hfit, hclean, hnodup⟩ := hok
  obtain ⟨n, hn⟩ : ∃ n, n = (length + pageSize - 1) / pageSize := ⟨_, rfl⟩
  have hcovers := (needed_spec length).1
  obtain ⟨hle, hlen, hrun⟩ := tmpfsOpTruncate_eq ht hrep hfit hn
  have hcount : t.pageCount = t'.pageCount := by rw [ht.rest]
  rw [ht.owned hrep.count, ← hn] at hnodup
  rw [← hn] at hcovers
  rw [TmpfsCall.run, hrun]
  have hrep₁ : Represents { t' with size := length, pageCount := n, stSize := length, pages := t'.pages.take n, supply := supply }
      { g with size := length, byte := fun i => if i < n * pageSize then g.byte i else 0 } := by
    refine ⟨rfl, hrep.offset, rfl, ?_, hnodup, fun i pa hi => ?_, fun i hi => if_neg (Nat.not_lt.2 hi), hcovers, ?_⟩
    · rw [List.length_take, ← hrep.count, ← hcount]
      exact (min_eq_left hle).symm
    · have hi : (t'.pages.take n)[i / pageSize]? = some pa := hi
      obtain ⟨hlt, -⟩ := List.getElem?_eq_some_iff.1 hi
      have hpage : i / pageSize < n := hlt.trans_le (List.length_take_le _ _)
      rw [List.getElem?_take_of_lt hpage] at hi
      dsimp only
      rw [if_pos ((Nat.div_lt_iff_lt_mul (by decide)).1 hpage)]
      exact hrep.content i pa hi
    · refine (Nat.mul_le_mul_right _ hle).trans ?_
      rw [hcount]
      exact hrep.bound
  refine ⟨_, rfl, _, _, ⟨(List.take_prefix _ _).trans ht.pages, ?_⟩, hrep₁,
    hagree.truncate (fun i hi => if_pos (hi.trans_le hcovers)) fun i hsize hlt => ?_⟩
  · rw [ht.rest]
  · have hzero := hclean i
    rw [hrep.pageByte ht] at hzero
    have hsame : t.size = g.size := by rw [ht.rest]; exact hrep.size
    exact hzero (by rw [hsame, hagree.size]; exact hsize) hlt

/-- One call. -/
theorem TmpfsCall.run_spec (c : TmpfsCall) (h : Stands t f) (hok : c.Ok t) : c.run t = .error .noMemory ∨
    ∃ t₁, c.run t = .ok ((c.spec f).1, t₁) ∧ Stands t₁ (c.spec f).2 := by
  cases c with
  | op o => exact TmpfsOp.stands h hok
  | truncate length supply => exact .inr (h.truncate hok)

/-! ### Runs -/

/-- Calls one after the other. -/
theorem tmpfsCalls_spec (calls : List TmpfsCall) (h : Stands t f) (hok : Meets calls t) :
    tmpfsCalls calls t = .error .noMemory ∨
      ∃ t₁, tmpfsCalls calls t = .ok ((specCalls calls f).1, t₁) ∧ Stands t₁ (specCalls calls f).2 := by
  induction calls generalizing t f with
  | nil => exact .inr ⟨t, rfl, h⟩
  | cons c calls ih =>
    obtain ⟨hc, hrest⟩ := hok
    rcases c.run_spec h hc with herror | ⟨t₁, hrun, h₁⟩
    · exact .inl (by rw [tmpfsCalls, herror]; rfl)
    · rcases ih h₁ (hrest _ _ hrun) with herror | ⟨t₂, hrun₂, h₂⟩
      · exact .inl (by rw [tmpfsCalls, hrun, Except.bind, herror]; rfl)
      · exact .inr ⟨t₂, by rw [tmpfsCalls, hrun, Except.bind, hrun₂]; rfl, h₂⟩

theorem stands_new (mem : ℕ → ℕ → UInt8) {supply : List ℕ} (h : supply.Nodup) : Stands (.new mem supply) .empty :=
  ⟨.new mem supply, .empty, ⟨List.prefix_refl _, rfl⟩, represents_new h, .refl fun _ _ => rfl⟩

/-- **Truncation along a run.**  When every write uncovers only zeros and stays below the last
page, and every truncation uncovers only zeros and fits the pages that there are, a run reads
and writes the array that it is to, never past the table, and the law of truncation holds of
every size that meets the condition where it ends. -/
theorem tmpfs_truncates (mem : ℕ → ℕ → UInt8) {supply : List ℕ} (hsupply : supply.Nodup) (calls : List TmpfsCall)
    (hok : Meets calls (.new mem supply)) :
    tmpfsCalls calls (.new mem supply) = .error .noMemory ∨
      ∃ t, tmpfsCalls calls (.new mem supply) = .ok ((specCalls calls .empty).1, t) ∧
        Stands t (specCalls calls .empty).2 ∧
          ∀ length supply', (TmpfsCall.truncate length supply').Ok t → TruncateLaw length t := by
  rcases tmpfsCalls_spec calls (stands_new mem hsupply) hok with herror | ⟨t, hrun, h⟩
  · exact .inl herror
  · exact .inr ⟨t, hrun, h, fun _ _ => h.truncateLaw⟩

theorem tmpfs_truncates_short :
    tmpfsCalls [.op (.write true [7]), .truncate 0 [0x1000]] (.new (fun _ _ => 9) [0x1000]) = .error .noMemory ∨
      ∃ t, tmpfsCalls [.op (.write true [7]), .truncate 0 [0x1000]] (.new (fun _ _ => 9) [0x1000]) =
          .ok ((specCalls [.op (.write true [7]), .truncate 0 [0x1000]] .empty).1, t) ∧
        Stands t (specCalls [.op (.write true [7]), .truncate 0 [0x1000]] .empty).2 ∧
          ∀ length supply', (TmpfsCall.truncate length supply').Ok t → TruncateLaw length t :=
  tmpfs_truncates _ (by decide) _ ⟨⟨⟨by decide, by decide⟩, fun i _ hi => absurd hi (Nat.not_lt_zero i)⟩,
    fun _ _ _ => ⟨⟨Nat.zero_le _, fun i _ hi => absurd hi (Nat.not_lt_zero i), by simp [pageSize]⟩, fun _ _ _ => trivial⟩⟩

/-- Ten bytes, of a file without pages. -/
theorem not_tmpfs_truncates : ¬ ∀ (mem : ℕ → ℕ → UInt8) (supply : List ℕ) (calls : List TmpfsCall)
    (outs : List (ℤ × List UInt8)) (t : TmpfsFile) (length : ℕ), supply.Nodup →
      tmpfsCalls calls (.new mem supply) = .ok (outs, t) → length < 2 ^ 64 → TruncateLaw length t := by
  intro hall
  obtain ⟨freed, t', hrun, -, -, -, hpages, -⟩ := hall (fun _ _ => 0) [] [] [] _ 10 List.nodup_nil rfl (by decide)
  obtain ⟨-, rfl⟩ := Prod.mk.inj (Except.ok.inj hrun)
  obtain ⟨pa, hpa⟩ := hpages 0 (by decide)
  exact absurd hpa (by simp [TmpfsFile.new])

end Flopperating
