/-
# Files of `tmpflopfs` side by side

The files of all mounts take their pages from one memory and one supply.  A read moves the
offset of its file (`TmpfsWorld.vfsRead_spec`), a write changes pages of its own file and
pages of the supply (`TmpfsWorld.vfsWrite_spec`), and what the other files hold stays.

| source | here |
| --- | --- |
| `struct tmpfs_node`, without its links and `node->stat` | `TmpfsData` |
| `node->vfs_mode`, `node->data_pointer` | `mode`, `data` |
| a buffer of `kmalloc`, the next one, and whether there is memory | `heap`, `fresh`, `grant` |
| an operation that does not return | `fault` |
-/

import Flopperating.Fs.TmpfsNodes

namespace Flopperating

open ByteFile TmpfsFile

structure TmpfsData where
  size : ℕ
  offset : ℕ
  pages : List ℕ
  pageCount : ℕ

structure TmpfsWorld where
  mode : ℕ → ℕ
  data : ℕ → ℕ
  file : ℕ → TmpfsData
  mem : ℕ → ℕ → UInt8
  supply : List ℕ
  heap : ℕ → ℕ → UInt8
  fresh : ℕ
  grant : Bool
  fault : Option TmpfsFault

namespace TmpfsWorld

/-- The file `i`, as an operation finds it. -/
def view (w : TmpfsWorld) (i : ℕ) : TmpfsFile where
  size := (w.file i).size
  offset := (w.file i).offset
  pages := (w.file i).pages
  pageCount := (w.file i).pageCount
  stSize := (w.file i).size
  mem := w.mem
  supply := w.supply

/-- The file `i` is left as `t`. -/
def put (i : ℕ) (t : TmpfsFile) (w : TmpfsWorld) : TmpfsWorld :=
  { w with file := Function.update w.file i ⟨t.size, t.offset, t.pages, t.pageCount⟩, mem := t.mem, supply := t.supply }

/-- `vfs_read`, which puts what it reads in the buffer. -/
def vfsRead (node : Option ℕ) (buffer size : ℕ) (w : TmpfsWorld) : ℤ × TmpfsWorld :=
  match node with
  | none => (-1, w)
  | some n =>
    match vfsReadNode (w.mode n) size (w.view (w.data n)) with
    | .error e => (-1, { w with fault := some e })
    | .ok ((r, bytes), t) =>
      (r, { w.put (w.data n) t with heap := Function.update w.heap buffer (overwrite (w.heap buffer) 0 bytes) })

/-- `vfs_write`, of what is in the buffer. -/
def vfsWrite (node : Option ℕ) (buffer size : ℕ) (w : TmpfsWorld) : ℤ × TmpfsWorld :=
  match node with
  | none => (-1, w)
  | some n =>
    match vfsWriteNode (w.mode n) w.grant (slice (w.heap buffer) 0 size) (w.view (w.data n)) with
    | .error e => (-1, { w with fault := some e })
    | .ok (r, t) => (r, w.put (w.data n) t)

def kmalloc (_size : ℕ) (w : TmpfsWorld) : Option ℕ × TmpfsWorld :=
  if w.grant then (some w.fresh, { w with fresh := w.fresh + 1 }) else (none, w)

/-- The pages of the file `i` hold `f`; the table may have stale entries. -/
def Holds (w : TmpfsWorld) (i : ℕ) (f : ByteFile UInt8) : Prop := ∃ t, Trims t (w.view i) ∧ Represents t f

/-- Two files, each with its pages. -/
structure Pair (w : TmpfsWorld) (i j : ℕ) (f g : ByteFile UInt8) : Prop where
  source : w.Holds i f
  target : w.Holds j g
  apart : ∀ pa ∈ (w.view i).owned, pa ∉ (w.view j).owned

/-- What neither operation changes; `j` is the file that is written. -/
structure Kept (j : ℕ) (w w' : TmpfsWorld) : Prop where
  mode : w'.mode = w.mode
  data : w'.data = w.data
  grant : w'.grant = w.grant
  fault : w'.fault = w.fault
  room : ((w'.view j).owned ++ w'.supply).length = ((w.view j).owned ++ w.supply).length

end TmpfsWorld

variable {t t' t₁ : TmpfsFile} {f : ByteFile UInt8} {left n needed r : ℕ} {bytes rest buf : List UInt8} {v : ℤ} {kmalloc : Bool}

/-! ### What an operation leaves -/

/-- The loop of `tmpfs_op_read` moves the offset. -/
theorem tmpfsReadFrom_frame (hrun : tmpfsReadFrom left t = .ok (bytes, t')) : t' = { t with offset := t'.offset } := by
  induction left using Nat.strong_induction_on generalizing t bytes with
  | _ left ih =>
    rw [tmpfsReadFrom] at hrun
    split at hrun
    · obtain ⟨-, rfl⟩ := Prod.mk.inj (Except.ok.inj hrun)
      rfl
    · next hpos =>
      have hchunk := tmpfsChunk_pos t hpos
      dsimp only at hrun
      split at hrun
      · exact absurd hrun (by simp)
      · rcases hrest : tmpfsReadFrom (left - tmpfsChunk t left) { t with offset := u64 (t.offset + tmpfsChunk t left) }
          with e | ⟨more, t₁⟩
        · rw [hrest] at hrun
          exact absurd hrun (by simp [Except.map])
        · rw [hrest] at hrun
          obtain ⟨-, rfl⟩ := Prod.mk.inj (Except.ok.inj hrun)
          have hsame := ih (left - tmpfsChunk t left) (by omega) hrest
          exact hsame

theorem tmpfsOpRead_frame (hrun : tmpfsOpRead n t = .ok ((v, bytes), t')) : t' = { t with offset := t'.offset } := by
  rw [tmpfsOpRead] at hrun
  split at hrun
  · obtain ⟨-, rfl⟩ := Prod.mk.inj (Except.ok.inj hrun)
    rfl
  · dsimp only at hrun
    rcases hread : tmpfsReadFrom (if u64 (t.offset + n) > t.size then u32 (t.size - t.offset) else n) t with e | ⟨more, t₁⟩
    · rw [hread] at hrun
      exact absurd hrun (by simp [Except.map])
    · rw [hread] at hrun
      obtain ⟨-, rfl⟩ := Prod.mk.inj (Except.ok.inj hrun)
      exact tmpfsReadFrom_frame hread

/-- The loop of `tmpfs_op_write` changes the pages of the table. -/
theorem tmpfsWriteFrom_frame (rest : List UInt8) (hrun : tmpfsWriteFrom rest t = .ok t') :
    t' = { t with mem := t'.mem, offset := t'.offset } ∧ ∀ pa, pa ∉ t.pages → t'.mem pa = t.mem pa := by
  induction hleft : rest.length using Nat.strong_induction_on generalizing t rest with
  | _ left ih =>
    rw [tmpfsWriteFrom] at hrun
    split at hrun
    · obtain rfl := Except.ok.inj hrun
      exact ⟨rfl, fun _ _ => rfl⟩
    · next hpos =>
      have hchunk := tmpfsChunk_pos t hpos
      dsimp only at hrun
      split at hrun
      · exact absurd hrun (by simp)
      · next pa hpa =>
        obtain ⟨hsame, hmem⟩ := ih _ (by rw [List.length_drop]; omega) _ hrun rfl
        refine ⟨hsame, fun pa' hpa' => (hmem pa' hpa').trans ?_⟩
        have hne : pa' ≠ pa := fun heq => hpa' (by rw [heq]; exact List.mem_of_getElem? hpa)
        exact Function.update_of_ne hne _ _

/-- The pages that a write adds come from the supply. -/
theorem tmpfsGrow_frame (hcount : t.pageCount = t.pages.length) (hrun : tmpfsGrow kmalloc needed t = .ok t') :
    t'.pages ++ t'.supply = t.pages ++ t.supply ∧ ∀ pa, pa ∉ t.supply → t'.mem pa = t.mem pa := by
  rw [tmpfsGrow] at hrun
  split at hrun
  · cases kmalloc with
    | false => exact absurd hrun (by simp)
    | true =>
      rcases tmpfsAllocPages_spec (needed - t.pageCount) t with herror | ⟨-, mem, halloc, -, hsame⟩
      · rw [if_pos rfl, herror] at hrun
        exact absurd hrun (by simp [Except.map])
      · rw [if_pos rfl, halloc] at hrun
        obtain rfl := Except.ok.inj hrun
        refine ⟨?_, fun pa hpa => hsame pa fun hin => hpa (List.mem_of_mem_take hin)⟩
        dsimp only
        rw [hcount, List.take_length, List.append_assoc, List.take_append_drop]
  · obtain rfl := Except.ok.inj hrun
    exact ⟨rfl, fun _ _ => rfl⟩

/-- **`tmpfs_op_write`** changes pages of the file and of the supply. -/
theorem tmpfsOpWrite_frame (hcount : t.pageCount = t.pages.length) (hrun : tmpfsOpWrite kmalloc buf t = .ok (v, t')) :
    t'.pages ++ t'.supply = t.pages ++ t.supply ∧ ∀ pa, pa ∉ t.pages ++ t.supply → t'.mem pa = t.mem pa := by
  rw [tmpfsOpWrite] at hrun
  rcases hgrow : tmpfsGrow kmalloc (u32 (u32 (t.offset + buf.length) + pageSize - 1) / pageSize) t with e | t₁
  · rw [hgrow] at hrun
    exact absurd hrun (by simp [Except.bind])
  · rw [hgrow] at hrun
    simp only [Except.bind] at hrun
    rcases hwrite : tmpfsWriteFrom buf t₁ with e | t₂
    · rw [hwrite] at hrun
      exact absurd hrun (by simp [Except.map])
    · rw [hwrite] at hrun
      obtain ⟨-, rfl⟩ := Prod.mk.inj (Except.ok.inj hrun)
      obtain ⟨hpages, hmem⟩ := tmpfsGrow_frame hcount hgrow
      obtain ⟨hsame, hmem'⟩ := tmpfsWriteFrom_frame buf hwrite
      rw [tmpfsSetSize_eq]
      dsimp only
      refine ⟨?_, fun pa hpa => ?_⟩
      · rw [hsame]
        exact hpages
      · have hnot : pa ∉ t₁.pages ++ t₁.supply := hpages ▸ hpa
        rw [hmem' pa fun hin => hnot (List.mem_append_left _ hin), hmem pa fun hin => hpa (List.mem_append_right _ hin)]

/-- With enough pages in the supply there is memory. -/
theorem tmpfsAllocPages_ok (n : ℕ) (hn : n ≤ t.supply.length) : tmpfsAllocPages n t ≠ .error .noMemory := by
  induction n generalizing t with
  | zero => exact fun h => absurd h (by simp [tmpfsAllocPages])
  | succ n ih =>
    rw [tmpfsAllocPages]
    split
    · next hnil =>
      rw [hnil] at hn
      exact absurd hn (Nat.not_succ_le_zero n)
    · next pa supply hsupply =>
      rw [hsupply] at hn
      have hrest := ih (t := { t with supply := supply, mem := Function.update t.mem pa fun _ => 0 })
        (Nat.le_of_succ_le_succ hn)
      rcases h : tmpfsAllocPages n { t with supply := supply, mem := Function.update t.mem pa fun _ => 0 } with e | o
      · rw [h] at hrest
        intro herror
        have herror : e = .noMemory := by simpa [Except.map] using herror
        exact hrest (congrArg Except.error herror)
      · simp [Except.map]

theorem tmpfsGrow_ok (hneeded : needed - t.pageCount ≤ t.supply.length) : tmpfsGrow true needed t ≠ .error .noMemory := by
  rw [tmpfsGrow]
  split
  · have halloc := tmpfsAllocPages_ok _ hneeded
    rcases h : tmpfsAllocPages (needed - t.pageCount) t with e | o
    · rw [h] at halloc
      intro herror
      have herror : e = .noMemory := by simpa [Except.map] using herror
      exact halloc (congrArg Except.error herror)
    · simp [Except.map]
  · simp

/-- **`tmpfs_op_write`** with enough pages in the supply. -/
theorem tmpfsOpWrite_ok (h : Represents t f) (hfits : (TmpfsOp.write true buf).Fits f)
    (hroom : f.cursor + buf.length ≤ (t.pages ++ t.supply).length * pageSize) :
    ∃ t', tmpfsOpWrite true buf t = .ok ((buf.length : ℤ), t') ∧ Represents t' (f.write buf) := by
  refine (tmpfsOpWrite_spec true h hfits).resolve_left fun herror => ?_
  have hlast := hfits.1
  have hstop : u32 (t.offset + buf.length) = f.cursor + buf.length := by
    rw [h.offset]
    exact u32_of_lt (by simp only [pageSize] at *; omega)
  have hround : u32 (f.cursor + buf.length + pageSize - 1) = f.cursor + buf.length + pageSize - 1 :=
    u32_of_lt (by simp only [pageSize] at *; omega)
  rw [List.length_append, ← h.count] at hroom
  have hfew : (f.cursor + buf.length + pageSize - 1) / pageSize - t.pageCount ≤ t.supply.length := by
    simp only [pageSize] at *
    omega
  rw [tmpfsOpWrite, hstop] at herror
  rw [hround] at herror
  have hgrows := tmpfsGrow_ok hfew
  rcases hgrow : tmpfsGrow true ((f.cursor + buf.length + pageSize - 1) / pageSize) t with e | t₁
  · rw [hgrow] at hgrows herror
    exact hgrows (congrArg Except.error (Except.error.inj herror))
  · rw [hgrow] at herror
    have hwrites := tmpfsWriteFrom_ne_noMemory buf t₁
    rcases hwrite : tmpfsWriteFrom buf t₁ with e | t₂
    · rw [hwrite] at hwrites
      rw [Except.bind, hwrite] at herror
      exact hwrites (congrArg Except.error (Except.error.inj herror))
    · rw [Except.bind, hwrite] at herror
      exact absurd herror (by simp [Except.map])

/-- A file does not see what happens to other pages. -/
theorem Represents.frame (h : Represents t f) {mem : ℕ → ℕ → UInt8} {supply : List ℕ}
    (hmem : ∀ pa ∈ t.pages, mem pa = t.mem pa) (hnodup : (t.pages ++ supply).Nodup) :
    Represents { t with mem := mem, supply := supply } f where
  size := h.size
  offset := h.offset
  stat := h.stat
  count := h.count
  nodup := hnodup
  content i pa hpa := by
    have hpa : t.pages[i / pageSize]? = some pa := hpa
    change mem pa (i % pageSize) = f.byte i
    rw [hmem pa (List.mem_of_getElem? hpa)]
    exact h.content i pa hpa
  blank := h.blank
  covers := h.covers
  bound := h.bound

namespace TmpfsWorld

variable {w : TmpfsWorld} {g : ByteFile UInt8} {i j m size : ℕ}

/-! ### One of the files -/

theorem view_put_self (h : t.stSize = t.size) : (w.put i t).view i = t := by
  rw [view, put]
  dsimp only
  rw [Function.update_self]
  exact congrArg (fun stSize => { t with stSize := stSize }) h.symm

theorem view_put_of_ne (hne : j ≠ i) : (w.put i t).view j = { w.view j with mem := t.mem, supply := t.supply } := by
  rw [view, put]
  dsimp only
  rw [Function.update_of_ne hne]
  rfl

theorem Holds.file (h : w.Holds i f) : (w.view i).file = f := by
  obtain ⟨t, ht, hrep⟩ := h
  exact hrep.file ht

theorem Holds.nodup (h : w.Holds i f) : ((w.view i).owned ++ w.supply).Nodup := by
  obtain ⟨t, ht, hrep⟩ := h
  have hsupply : w.supply = t.supply := congrArg TmpfsFile.supply ht.rest
  rw [ht.owned hrep.count, hsupply]
  exact hrep.nodup

/-- What an operation leaves in the file that it is about. -/
theorem holds_put_self (ht : Trims t t') (hrep : Represents t f) : (w.put i t').Holds i f := by
  have hstat : t'.stSize = t'.size := by
    rw [ht.rest]
    exact hrep.stat.trans hrep.size.symm
  exact ⟨t, by rw [view_put_self hstat]; exact ht, hrep⟩

/-- What it leaves in another one. -/
theorem Holds.put (h : w.Holds i f) (hne : i ≠ j) (hmem : ∀ pa ∈ (w.view i).owned, t.mem pa = w.mem pa)
    (hnodup : ((w.view i).owned ++ t.supply).Nodup) : (w.put j t).Holds i f := by
  obtain ⟨t₀, ht, hrep⟩ := h
  have hpages := ht.owned hrep.count
  have hmem₀ : w.mem = t₀.mem := congrArg TmpfsFile.mem ht.rest
  rw [hpages] at hmem hnodup
  refine ⟨{ t₀ with mem := t.mem, supply := t.supply }, ⟨?_, ?_⟩, hrep.frame (by rwa [← hmem₀]) hnodup⟩
  · rw [view_put_of_ne hne]
    exact ht.pages
  · rw [view_put_of_ne hne, ht.rest]

/-! ### Both files -/

/-- **`vfs_read`** of one file: the other one stays. -/
theorem vfsRead_spec (buffer : ℕ) (hp : w.Pair i j f g) (hne : i ≠ j) (hdata : w.data n = i)
    (hmode : w.mode n &&& 1 = 1) (hfits : (TmpfsOp.read size).Fits f) :
    ∃ w', w.vfsRead (some n) buffer size = (((f.read size).1.length : ℤ), w') ∧ w'.Pair i j (f.read size).2 g ∧
      slice (w'.heap buffer) 0 (f.read size).1.length = (f.read size).1 ∧ Kept j w w' := by
  obtain ⟨t, ht, hrep⟩ := hp.source
  obtain ⟨t₁, hrun, hrep₁⟩ := tmpfsOpRead_spec hrep hfits
  obtain ⟨t₂, hrun₂, ht₂⟩ := tmpfsOpRead_trim ht hrun
  have hframe := tmpfsOpRead_frame hrun₂
  have hmem : t₂.mem = w.mem := congrArg TmpfsFile.mem hframe
  have hsupply : t₂.supply = w.supply := congrArg TmpfsFile.supply hframe
  have hself := hrep₁.stat.trans hrep₁.size.symm
  have hview : (w.put i t₂).view i = t₂ := view_put_self (by rw [ht₂.rest]; exact hself)
  have howned : t₂.owned = (w.view i).owned := by rw [hframe]; rfl
  have hother : ((w.put i t₂).view j) = w.view j := by
    rw [view_put_of_ne hne.symm, hmem, hsupply]
    rfl
  refine ⟨{ w.put i t₂ with heap := Function.update w.heap buffer (overwrite (w.heap buffer) 0 (f.read size).1) },
    ?_, ⟨?_, ?_, ?_⟩, ?_, ⟨rfl, rfl, rfl, rfl, ?_⟩⟩
  · rw [vfsRead]
    dsimp only
    rw [hdata, vfsReadNode, if_neg (not_not.2 hmode), hrun₂]
  · exact holds_put_self ht₂ hrep₁
  · obtain ⟨t₀, ht₀, hrep₀⟩ := hp.target
    exact ⟨t₀, by rw [← hother] at ht₀; exact ht₀, hrep₀⟩
  · intro pa hpa
    have hpa : pa ∈ ((w.put i t₂).view i).owned := hpa
    rw [hview, howned] at hpa
    change pa ∉ ((w.put i t₂).view j).owned
    rw [hother]
    exact hp.apart pa hpa
  · dsimp only
    rw [Function.update_self]
    exact slice_overwrite
  · change (((w.put i t₂).view j).owned ++ t₂.supply).length = _
    rw [hother, hsupply]

/-- **`vfs_write`** of one file, with enough pages: the other one stays. -/
theorem vfsWrite_spec (buffer : ℕ) (hp : w.Pair i j f g) (hne : i ≠ j) (hdata : w.data m = j)
    (hmode : w.mode m &&& 2 = 2) (happends : ¬ appends (w.mode m)) (hgrant : w.grant = true) (hbytes : slice (w.heap buffer) 0 size = bytes)
    (hfits : (TmpfsOp.write true bytes).Fits g)
    (hroom : g.cursor + bytes.length ≤ ((w.view j).owned ++ w.supply).length * pageSize) :
    ∃ w', w.vfsWrite (some m) buffer size = ((bytes.length : ℤ), w') ∧ w'.Pair i j f (g.write bytes) ∧ Kept j w w' := by
  obtain ⟨t, ht, hrep⟩ := hp.target
  have hpages := ht.owned hrep.count
  have hsupply : w.supply = t.supply := congrArg TmpfsFile.supply ht.rest
  have hmem : w.mem = t.mem := congrArg TmpfsFile.mem ht.rest
  rw [hpages, hsupply] at hroom
  obtain ⟨t₁, hrun, hrep₁⟩ := tmpfsOpWrite_ok hrep hfits hroom
  obtain ⟨hsame, hframe⟩ := tmpfsOpWrite_frame hrep.count hrun
  obtain ⟨t₂, hrun₂, ht₂⟩ := (tmpfsOpWrite_trim ht hrep.count).2 _ _ hrun
  have hself := hrep₁.stat.trans hrep₁.size.symm
  have hview : (w.put j t₂).view j = t₂ := view_put_self (by rw [ht₂.rest]; exact hself)
  have howned : t₂.owned = t₁.pages := ht₂.owned hrep₁.count
  have hsupply₂ : t₂.supply = t₁.supply := by rw [ht₂.rest]
  have hmem₂ : t₂.mem = t₁.mem := by rw [ht₂.rest]
  -- the pages of the source are neither in the table of the target nor in the supply
  have hforeign : ∀ pa ∈ (w.view i).owned, pa ∉ t₁.pages ++ t₁.supply := fun pa hpa => by
    rw [hsame, List.mem_append, ← hpages, ← hsupply]
    rintro (hin | hin)
    · exact hp.apart pa hpa hin
    · exact (List.nodup_append.1 hp.source.nodup).2.2 pa hpa pa hin rfl
  have hnodup : ((w.view i).owned ++ t₂.supply).Nodup := by
    refine List.nodup_append.2 ⟨(List.nodup_append.1 hp.source.nodup).1, ?_, fun pa hpa pa' hpa' heq => ?_⟩
    · rw [hsupply₂]
      exact (List.nodup_append.1 hrep₁.nodup).2.1
    · rw [hsupply₂, ← heq] at hpa'
      exact hforeign pa hpa (List.mem_append_right _ hpa')
  have hother : (w.put j t₂).view i = { w.view i with mem := t₂.mem, supply := t₂.supply } := view_put_of_ne hne
  refine ⟨w.put j t₂, ?_, ⟨hp.source.put hne (fun pa hpa => ?_) hnodup, holds_put_self ht₂ hrep₁, ?_⟩,
    ⟨rfl, rfl, rfl, rfl, ?_⟩⟩
  · have hret : (bytes.length : ℤ) ≠ -1 := by omega
    rw [vfsWrite, hdata, vfsWriteNode, if_neg (not_not.2 hmode), hgrant, hbytes, hrun₂, Except.map]
    dsimp only
    rw [if_pos hret, vfsSeekAppend, if_neg happends]
  · rw [hmem₂, hmem]
    refine hframe pa fun hin => hforeign pa hpa ?_
    rw [hsame]
    exact hin
  · intro pa hpa
    rw [hother] at hpa
    rw [hview, howned]
    exact fun hin => hforeign pa hpa (List.mem_append_left _ hin)
  · rw [hview, howned, hpages, hsupply]
    change (t₁.pages ++ t₂.supply).length = _
    rw [hsupply₂, hsame]

end TmpfsWorld

end Flopperating
