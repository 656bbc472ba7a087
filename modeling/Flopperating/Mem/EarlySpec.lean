/-
# The chunks of the early allocator

What the stores of `early_alloc` and `early_free` do to the chunks, in two steps.
`Headers` are headers as a function of their address, with the same edits as the
stores of the code; that a list of chunks is well linked and tiles the pool
(`Chunked`) is kept by the split and by a merge there.  The memory shows such
headers on a list (`Shows`), and a store keeps that as long as the headers of the
list do not overlap, which in a tiling they never do.
-/

import Flopperating.Data.DoublyLinked
import Flopperating.Data.Tiling
import Flopperating.Mem.Early

namespace Flopperating

open ByteMemory DoublyLinked Tiling

/-- The header at each address. -/
abbrev Headers := ℕ → EarlyChunk

/-- A pointer to a chunk. -/
def chunkAt (p : ℕ) : Option ℕ := if p = 0 then none else some p

@[simp] theorem chunkAt_zero : chunkAt 0 = none := rfl

theorem chunkAt_of_pos {p : ℕ} (h : 0 < p) : chunkAt p = some p := if_neg (Nat.pos_iff_ne_zero.1 h)

theorem chunkAt_eq_some {p c : ℕ} : chunkAt p = some c ↔ p ≠ 0 ∧ p = c := by
  unfold chunkAt
  split <;> simp_all

namespace Headers

variable {hs hs' : Headers} {c d n v lo hi : ℕ} {l l₁ l₂ : List ℕ}

def withSize (hs : Headers) (c v : ℕ) : Headers := Function.update hs c { hs c with size := v }

def withFree (hs : Headers) (c : ℕ) (v : Bool) : Headers :=
  Function.update hs c { hs c with free := v }

def withNext (hs : Headers) (c v : ℕ) : Headers := Function.update hs c { hs c with next := v }

def withPrev (hs : Headers) (c v : ℕ) : Headers := Function.update hs c { hs c with prev := v }

def withPrevIf (hs : Headers) (c v : ℕ) : Headers := if c ≠ 0 then hs.withPrev c v else hs

/-- The `next` pointers. -/
def nextOf (hs : Headers) (c : ℕ) : Option ℕ := chunkAt (hs c).next

/-- The `prev` pointers. -/
def prevOf (hs : Headers) (c : ℕ) : Option ℕ := chunkAt (hs c).prev

/-- The `free` flags. -/
def isFree (hs : Headers) (c : ℕ) : Bool := (hs c).free

/-- A chunk with its header. -/
def spanOf (hs : Headers) (c : ℕ) : ℕ := chunkHeaderSize + (hs c).size

/-- The chunks from `lo` are `l`: they tile the range up to `hi`, and are linked both ways. -/
structure Chunked (hs : Headers) (lo hi : ℕ) (l : List ℕ) : Prop where
  linked : Links hs.nextOf hs.prevOf (some lo) l
  tiled : Tiles hs.spanOf lo l hi

/-- The memory shows these headers on the list. -/
def Shows (m : Memory) (hs : Headers) (l : List ℕ) : Prop := ∀ c ∈ l, loadChunk m c = hs c

/-! ### Edits -/

theorem withSize_of_ne (h : d ≠ c) : hs.withSize c v d = hs d := Function.update_of_ne h ..

theorem withFree_of_ne {v : Bool} (h : d ≠ c) : hs.withFree c v d = hs d := Function.update_of_ne h ..

theorem withNext_of_ne (h : d ≠ c) : hs.withNext c v d = hs d := Function.update_of_ne h ..

theorem withPrev_of_ne (h : d ≠ c) : hs.withPrev c v d = hs d := Function.update_of_ne h ..

/-- A field that an edit leaves. -/
theorem comp_update_of_eq {α : Type*} (f : EarlyChunk → α) {ch : EarlyChunk}
    (h : f ch = f (hs c)) : f ∘ Function.update hs c ch = f ∘ hs := by
  rw [Function.comp_update, h]
  exact Function.update_eq_self ..

@[simp] theorem nextOf_withSize : (hs.withSize c v).nextOf = hs.nextOf :=
  comp_update_of_eq (fun ch : EarlyChunk => chunkAt ch.next) rfl

@[simp] theorem nextOf_withFree {v : Bool} : (hs.withFree c v).nextOf = hs.nextOf :=
  comp_update_of_eq (fun ch : EarlyChunk => chunkAt ch.next) rfl

@[simp] theorem nextOf_withNext :
    (hs.withNext c v).nextOf = Function.update hs.nextOf c (chunkAt v) :=
  Function.comp_update (fun ch : EarlyChunk => chunkAt ch.next) ..

@[simp] theorem nextOf_withPrev : (hs.withPrev c v).nextOf = hs.nextOf :=
  comp_update_of_eq (fun ch : EarlyChunk => chunkAt ch.next) rfl

@[simp] theorem prevOf_withSize : (hs.withSize c v).prevOf = hs.prevOf :=
  comp_update_of_eq (fun ch : EarlyChunk => chunkAt ch.prev) rfl

@[simp] theorem prevOf_withFree {v : Bool} : (hs.withFree c v).prevOf = hs.prevOf :=
  comp_update_of_eq (fun ch : EarlyChunk => chunkAt ch.prev) rfl

@[simp] theorem prevOf_withNext : (hs.withNext c v).prevOf = hs.prevOf :=
  comp_update_of_eq (fun ch : EarlyChunk => chunkAt ch.prev) rfl

@[simp] theorem prevOf_withPrev :
    (hs.withPrev c v).prevOf = Function.update hs.prevOf c (chunkAt v) :=
  Function.comp_update (fun ch : EarlyChunk => chunkAt ch.prev) ..

@[simp] theorem isFree_withSize : (hs.withSize c v).isFree = hs.isFree :=
  comp_update_of_eq EarlyChunk.free rfl

@[simp] theorem isFree_withFree {v : Bool} :
    (hs.withFree c v).isFree = Function.update hs.isFree c (v) :=
  Function.comp_update EarlyChunk.free ..

@[simp] theorem isFree_withNext : (hs.withNext c v).isFree = hs.isFree :=
  comp_update_of_eq EarlyChunk.free rfl

@[simp] theorem isFree_withPrev : (hs.withPrev c v).isFree = hs.isFree :=
  comp_update_of_eq EarlyChunk.free rfl

@[simp] theorem spanOf_withSize :
    (hs.withSize c v).spanOf = Function.update hs.spanOf c (chunkHeaderSize + v) :=
  Function.comp_update (fun ch : EarlyChunk => chunkHeaderSize + ch.size) ..

@[simp] theorem spanOf_withFree {v : Bool} : (hs.withFree c v).spanOf = hs.spanOf :=
  comp_update_of_eq (fun ch : EarlyChunk => chunkHeaderSize + ch.size) rfl

@[simp] theorem spanOf_withNext : (hs.withNext c v).spanOf = hs.spanOf :=
  comp_update_of_eq (fun ch : EarlyChunk => chunkHeaderSize + ch.size) rfl

@[simp] theorem spanOf_withPrev : (hs.withPrev c v).spanOf = hs.spanOf :=
  comp_update_of_eq (fun ch : EarlyChunk => chunkHeaderSize + ch.size) rfl

@[simp] theorem nextOf_withPrevIf : (hs.withPrevIf c v).nextOf = hs.nextOf := by
  unfold withPrevIf
  split <;> simp

theorem prevOf_withPrevIf :
    (hs.withPrevIf c v).prevOf = setAt hs.prevOf (chunkAt c) (chunkAt v) := by
  unfold withPrevIf chunkAt
  split <;> simp_all [chunkAt]

@[simp] theorem isFree_withPrevIf : (hs.withPrevIf c v).isFree = hs.isFree := by
  unfold withPrevIf
  split <;> simp

@[simp] theorem spanOf_withPrevIf : (hs.withPrevIf c v).spanOf = hs.spanOf := by
  unfold withPrevIf
  split <;> simp

/-- An edit of the flags moves no chunk. -/
theorem Chunked.withFree {v : Bool} (h : Chunked hs lo hi l) : Chunked (hs.withFree c v) lo hi l :=
  ⟨by simpa using h.linked, by simpa using h.tiled⟩

theorem Chunked.congr (h : Chunked hs lo hi l) (heq : ∀ c ∈ l, hs' c = hs c) :
    Chunked hs' lo hi l :=
  ⟨h.linked.congr (fun c hc => congrArg (fun ch : EarlyChunk => chunkAt ch.next) (heq c hc))
      fun c hc => congrArg (fun ch : EarlyChunk => chunkAt ch.prev) (heq c hc),
    h.tiled.congr fun c hc => congrArg (fun ch : EarlyChunk => chunkHeaderSize + ch.size) (heq c hc)⟩

/-- The headers of a tiling do not overlap. -/
theorem Chunked.clear (h : Chunked hs lo hi l) (hc : c ∈ l) (hd : d ∈ l) : Clear c d := by
  rcases eq_or_ne c d with rfl | hne
  · exact .inl rfl
  · have hap := h.tiled.apart hc hd hne
    simp only [Extent.Apart, spanOf] at hap
    exact .inr (by omega)

theorem Chunked.within (h : Chunked hs lo hi l) (hc : c ∈ l) :
    lo ≤ c ∧ c + (chunkHeaderSize + (hs c).size) ≤ hi := h.tiled.within hc

theorem Chunked.ne_of_mem (h : Chunked hs lo hi (l₁ ++ c :: l₂)) (hd : d ∈ l₁ ++ l₂) : d ≠ c :=
  ne_of_mem_of_not_mem hd (List.nodup_cons.1 (List.nodup_middle.1 h.linked.nodup)).1

/-- The `next` field of a chunk. -/
theorem Chunked.next_eq (h : Chunked hs lo hi (l₁ ++ c :: l₂)) : chunkAt (hs c).next = l₂.head? :=
  h.linked.fields.1

/-- The `prev` field of a chunk. -/
theorem Chunked.prev_eq (h : Chunked hs lo hi (l₁ ++ c :: l₂)) :
    chunkAt (hs c).prev = l₁.getLast? := h.linked.fields.2

/-- What `next` points to is on the list. -/
theorem Chunked.next_mem (h : Chunked hs lo hi l) (hc : c ∈ l) (hnext : (hs c).next ≠ 0) :
    (hs c).next ∈ l := by
  obtain ⟨l₁, l₂, rfl⟩ := List.append_of_mem hc
  have heq := h.next_eq
  rw [chunkAt, if_neg hnext] at heq
  exact List.mem_append_right _ (List.mem_cons_of_mem _ (List.mem_of_mem_head? heq.symm))

/-- The headers after the split of `c`, with the new chunk at `n`. -/
def split (hs : Headers) (c n size remaining : ℕ) : Headers :=
  (((((((hs.withSize n (remaining - chunkHeaderSize)).withFree n true).withNext n
    (hs c).next).withPrev n c).withPrevIf (hs c).next n).withNext c n).withSize c size)

/-- The headers after `c` has taken in `d`. -/
def merge (hs : Headers) (c d : ℕ) : Headers :=
  ((hs.withSize c ((hs c).size + (chunkHeaderSize + (hs d).size))).withNext c
    (hs d).next).withPrevIf (hs d).next c

/-! A chunk in the middle of a list, and one behind it. -/

section Middle

variable {a b : List ℕ} {x y z : ℕ}

theorem mem_with (hz : z ∈ a ++ b) : z ∈ a ++ x :: b := ((List.sublist_cons_self x b).append_left a).subset hz

theorem mem_without (hz : z ∈ a ++ x :: b) (hne : z ≠ x) : z ∈ a ++ b := by
  rcases List.mem_append.1 hz with hz | hz
  · exact List.mem_append_left b hz
  · exact List.mem_append_right a ((List.mem_cons.1 hz).resolve_left hne)

theorem mem_with_next (hz : z ∈ a ++ x :: b) : z ∈ a ++ x :: y :: b :=
  (((List.sublist_cons_self y b).cons_cons x).append_left a).subset hz

theorem mem_without_next (hz : z ∈ a ++ x :: y :: b) (hne : z ≠ y) : z ∈ a ++ x :: b := by
  rw [List.append_cons] at hz ⊢
  exact mem_without hz hne

end Middle

/-- **The split keeps the chunks.** -/
theorem Chunked.split {size remaining : ℕ} (h : Chunked hs lo hi (l₁ ++ c :: l₂)) (hlo : 0 < lo)
    (hrem : size + remaining = (hs c).size) (hroom : chunkHeaderSize ≤ remaining)
    (hn : n = c + chunkHeaderSize + size) :
    Chunked (hs.split c n size remaining) lo hi (l₁ ++ c :: n :: l₂) := by
  have hh : chunkHeaderSize = 16 := rfl
  have hc : c ∈ l₁ ++ c :: l₂ := by simp
  have hcn : c < n := by rw [hn]; exact Nat.lt_add_right _ (Nat.lt_add_of_pos_right (by decide))
  -- the new chunk starts inside the old one
  have hnew : n ∉ l₁ ++ c :: l₂ := fun hmem => by
    have hap := h.tiled.apart hc hmem hcn.ne
    simp only [Extent.Apart, spanOf] at hap
    omega
  have hpos : 0 < c := hlo.trans_le (h.within hc).1
  refine ⟨?_, ?_⟩
  · have hlinks := h.linked.insertAfter hnew
    simp only [Headers.split, nextOf_withSize, nextOf_withNext, nextOf_withPrevIf, nextOf_withPrev,
      nextOf_withFree, prevOf_withSize, prevOf_withNext, prevOf_withPrevIf, prevOf_withPrev,
      prevOf_withFree, chunkAt_of_pos hpos, chunkAt_of_pos (hpos.trans hcn)]
    exact hlinks
  · simp only [Headers.split, spanOf_withSize, spanOf_withNext, spanOf_withPrevIf, spanOf_withPrev,
      spanOf_withFree]
    refine h.tiled.cut (fun d hd => ?_) ?_ ?_
    · have hdn : d ≠ n := by
        rintro rfl
        exact hnew (mem_with hd)
      rw [Function.update_of_ne (h.ne_of_mem hd), Function.update_of_ne hdn]
    · rw [Function.update_self, hn, Nat.add_assoc]
    · rw [Function.update_self, Function.update_of_ne hcn.ne', Function.update_self, spanOf]
      omega

/-- **A merge keeps the chunks.** -/
theorem Chunked.merge (h : Chunked hs lo hi (l₁ ++ c :: d :: l₂)) (hlo : 0 < lo) :
    Chunked (hs.merge c d) lo hi (l₁ ++ c :: l₂) := by
  have hpos : 0 < c := hlo.trans_le (h.within (by simp)).1
  have hprev : hs.prevOf d = some c := by
    have h' : Links hs.nextOf hs.prevOf (some lo) ((l₁ ++ [c]) ++ d :: l₂) := by simpa using h.linked
    simpa using h'.fields.2
  refine ⟨?_, ?_⟩
  · have h' : Links hs.nextOf hs.prevOf (some lo) ((l₁ ++ [c]) ++ d :: l₂) := by simpa using h.linked
    have hlinks := h'.remove
    rw [hprev, if_neg (by simp), List.append_assoc] at hlinks
    simp only [Headers.merge, nextOf_withSize, nextOf_withNext, nextOf_withPrevIf, prevOf_withSize,
      prevOf_withNext, prevOf_withPrevIf, chunkAt_of_pos hpos]
    exact hlinks
  · simp only [Headers.merge, spanOf_withSize, spanOf_withNext, spanOf_withPrevIf]
    refine h.tiled.join (fun e he => Function.update_of_ne (h.ne_of_mem (mem_with he)) ..) ?_
    · rw [Function.update_self]
      simp only [spanOf]
      omega

/-! ### Stores -/

section Stores

variable {m : Memory} (hclear : ∀ c ∈ l, ∀ d ∈ l, Clear c d)
include hclear

/-- A store that is an edit at every chunk of the list. -/
theorem Shows.update {m' : Memory} {f : EarlyChunk → EarlyChunk} (h : Shows m hs l) (hc : c ∈ l)
    (hm : ∀ d, Clear c d → loadChunk m' d = Function.update (loadChunk m) c (f (loadChunk m c)) d) :
    Shows m' (Function.update hs c (f (hs c))) l := fun d hd => by
  rw [hm d (hclear c hc d hd), h c hc]
  rcases eq_or_ne d c with rfl | hne
  · rw [Function.update_self, Function.update_self]
  · rw [Function.update_of_ne hne, Function.update_of_ne hne, h d hd]

theorem Shows.setChunkSize (h : Shows m hs l) (hc : c ∈ l) (hv : v < 2 ^ 32) :
    Shows (setChunkSize m c v) (hs.withSize c v) l :=
  h.update hclear (f := fun ch => { ch with size := v }) hc fun _ hd => loadChunk_setChunkSize hd hv

theorem Shows.setChunkFree {v : Bool} (h : Shows m hs l) (hc : c ∈ l) :
    Shows (setChunkFree m c v) (hs.withFree c v) l :=
  h.update hclear (f := fun ch => { ch with free := v }) hc fun _ hd => loadChunk_setChunkFree hd

theorem Shows.setChunkNext (h : Shows m hs l) (hc : c ∈ l) (hv : v < 2 ^ 32) :
    Shows (setChunkNext m c v) (hs.withNext c v) l :=
  h.update hclear (f := fun ch => { ch with next := v }) hc fun _ hd => loadChunk_setChunkNext hd hv

theorem Shows.setChunkPrev (h : Shows m hs l) (hc : c ∈ l) (hv : v < 2 ^ 32) :
    Shows (setChunkPrev m c v) (hs.withPrev c v) l :=
  h.update hclear (f := fun ch => { ch with prev := v }) hc fun _ hd => loadChunk_setChunkPrev hd hv

theorem Shows.setPrevIf (h : Shows m hs l) (hc : c ≠ 0 → c ∈ l) (hv : v < 2 ^ 32) :
    Shows (setPrevIf m c v) (hs.withPrevIf c v) l := by
  unfold Flopperating.setPrevIf withPrevIf
  split
  · next hne => exact h.setChunkPrev hclear (hc hne) hv
  · exact h

/-- The stores of the split. -/
theorem Shows.earlySplit {size remaining : ℕ} (h : Shows m hs l) (hc : c ∈ l) (hn : n ∈ l)
    (hne : c ≠ n) (hnext : (hs c).next ≠ 0 → (hs c).next ∈ l) (hbound : n < 2 ^ 32)
    (hat : n = c + chunkHeaderSize + size) (hrem : remaining < 2 ^ 32) :
    Shows (earlySplit m c size remaining) (hs.split c n size remaining) l := by
  have hsize : size < 2 ^ 32 := by omega
  have hcb : c < 2 ^ 32 := by omega
  unfold Flopperating.earlySplit Headers.split
  rw [← hat, u32_of_lt hbound]
  have h₂ := (h.setChunkSize hclear hn (v := remaining - chunkHeaderSize) (by omega)).setChunkFree
    hclear (v := true) hn
  have hread₂ := congrArg EarlyChunk.next (h₂ c hc)
  rw [withFree_of_ne hne, withSize_of_ne hne] at hread₂
  have hnb : (hs c).next < 2 ^ 32 := by
    rw [← congrArg EarlyChunk.next (h c hc)]
    exact readWord_lt _ _
  simp only [hread₂]
  have h₄ := (h₂.setChunkNext hclear hn hnb).setChunkPrev hclear hn hcb
  have hread₄ := congrArg EarlyChunk.next (h₄ c hc)
  rw [withPrev_of_ne hne, withNext_of_ne hne, withFree_of_ne hne, withSize_of_ne hne] at hread₄
  simp only [hread₄]
  exact ((h₄.setPrevIf hclear hnext hbound).setChunkNext hclear hc hbound).setChunkSize hclear hc hsize

/-- The stores of a merge. -/
theorem Shows.earlyMerge (h : Shows m hs l) (hc : c ∈ l) (hd : d ∈ l)
    (hnext : (hs d).next ≠ 0 → (hs d).next ∈ l) (hcb : c < 2 ^ 32)
    (hsum : (hs c).size + (chunkHeaderSize + (hs d).size) < 2 ^ 32) :
    Shows (earlyMerge m c d) (hs.merge c d) l := by
  unfold Flopperating.earlyMerge Headers.merge
  have hnb : (hs d).next < 2 ^ 32 := by
    rw [← congrArg EarlyChunk.next (h d hd)]
    exact readWord_lt _ _
  simp only [h c hc, h d hd, u32_of_lt hsum]
  exact ((h.setChunkSize hclear hc hsum).setChunkNext hclear hc hnb).setPrevIf hclear hnext hcb

end Stores

/-- **The split in the pool.**  The new chunk is free; the other flags stay, and so do the sizes
of all but the chunk that is split. -/
theorem Chunked.earlySplit {m : Memory} {size remaining : ℕ}
    (h : Chunked (loadChunk m) lo hi (l₁ ++ c :: l₂)) (hlo : 0 < lo) (hhi : hi ≤ 2 ^ 32)
    (hrem : size + remaining = (loadChunk m c).size) (hroom : chunkHeaderSize ≤ remaining)
    (hn : n = c + chunkHeaderSize + size) :
    Chunked (loadChunk (earlySplit m c size remaining)) lo hi (l₁ ++ c :: n :: l₂) ∧
      n ∉ l₁ ++ c :: l₂ ∧ (loadChunk (earlySplit m c size remaining) n).free = true ∧
      (loadChunk (earlySplit m c size remaining) c).size = size ∧ ∀ e ∈ l₁ ++ c :: l₂,
        (loadChunk (earlySplit m c size remaining) e).free = (loadChunk m e).free ∧
          (e ≠ c → (loadChunk (earlySplit m c size remaining) e).size = (loadChunk m e).size) := by
  have hh : chunkHeaderSize = 16 := rfl
  have hnew := h.split hlo hrem hroom hn
  have hin := h.within (c := c) (by simp)
  have hcn : c ≠ n := by omega
  have hfresh : n ∉ l₁ ++ c :: l₂ := by
    have hnd := hnew.linked.nodup
    rw [← List.singleton_append, ← List.append_assoc, List.nodup_middle] at hnd
    simpa using (List.nodup_cons.1 hnd).1
  have hsub : ∀ e ∈ l₁ ++ c :: l₂, e ∈ l₁ ++ c :: n :: l₂ := fun e he => mem_with_next he
  have hshows : Shows (Flopperating.earlySplit m c size remaining)
      (Headers.split (loadChunk m) c n size remaining) (l₁ ++ c :: n :: l₂) :=
    Shows.earlySplit (fun a ha b hb => hnew.clear ha hb) (fun _ _ => rfl) (by simp) (by simp)
      hcn (fun hne => hsub _ (h.next_mem (c := c) (by simp) hne)) (by omega) hn (by omega)
  have hfree : (Headers.split (loadChunk m) c n size remaining).isFree =
      Function.update (isFree (loadChunk m)) n true := by
    simp [Headers.split]
  have hspan : (Headers.split (loadChunk m) c n size remaining).spanOf =
      Function.update (Function.update (spanOf (loadChunk m)) n
        (chunkHeaderSize + (remaining - chunkHeaderSize))) c (chunkHeaderSize + size) := by
    simp [Headers.split]
  refine ⟨hnew.congr hshows, hfresh, ?_, ?_, fun e he => ?_⟩
  · rw [hshows n (by simp)]
    exact (congrFun hfree n).trans (Function.update_self ..)
  · rw [hshows c (by simp)]
    exact Nat.add_left_cancel ((congrFun hspan c).trans (Function.update_self ..))
  · have hen : e ≠ n := ne_of_mem_of_not_mem he hfresh
    rw [hshows e (hsub e he)]
    refine ⟨(congrFun hfree e).trans (Function.update_of_ne hen ..), fun hne => ?_⟩
    have hsize := congrFun hspan e
    rw [Function.update_of_ne hne, Function.update_of_ne hen] at hsize
    exact Nat.add_left_cancel hsize

/-- **A flag in the pool.** -/
theorem Chunked.setChunkFree {m : Memory} {v : Bool} (h : Chunked (loadChunk m) lo hi l)
    (hc : c ∈ l) : Chunked (loadChunk (setChunkFree m c v)) lo hi l ∧
      (loadChunk (setChunkFree m c v) c).free = v ∧ ∀ e ∈ l,
        (e ≠ c → (loadChunk (setChunkFree m c v) e).free = (loadChunk m e).free) ∧
          (loadChunk (setChunkFree m c v) e).size = (loadChunk m e).size := by
  have hshows : Shows (Flopperating.setChunkFree m c v) (Headers.withFree (loadChunk m) c v) l :=
    Shows.setChunkFree (fun a ha b hb => h.clear ha hb) (fun _ _ => rfl) hc
  refine ⟨h.withFree.congr hshows, ?_, fun e he => ⟨fun hne => ?_, ?_⟩⟩
  · exact congrArg EarlyChunk.free ((hshows c hc).trans (Function.update_self ..))
  · exact congrArg EarlyChunk.free ((hshows e he).trans (withFree_of_ne hne))
  · rw [hshows e he]
    have hspan : (Headers.withFree (loadChunk m) c v).spanOf = spanOf (loadChunk m) :=
      spanOf_withFree
    exact Nat.add_left_cancel (congrFun hspan e)

/-- **A merge in the pool.**  The flags of the chunks stay, and so do the sizes of all but the
one that grows. -/
theorem Chunked.earlyMerge {m : Memory} (h : Chunked (loadChunk m) lo hi (l₁ ++ c :: d :: l₂))
    (hlo : 0 < lo) (hhi : hi ≤ 2 ^ 32) :
    Chunked (loadChunk (earlyMerge m c d)) lo hi (l₁ ++ c :: l₂) ∧ ∀ e ∈ l₁ ++ c :: l₂,
      (loadChunk (earlyMerge m c d) e).free = (loadChunk m e).free ∧
        (e ≠ c → (loadChunk (earlyMerge m c d) e).size = (loadChunk m e).size) := by
  have hh : chunkHeaderSize = 16 := rfl
  have hcm : c ∈ l₁ ++ c :: d :: l₂ := by simp
  have hdm : d ∈ l₁ ++ c :: d :: l₂ := by simp
  have hc := h.within hcm
  have hd := h.within hdm
  have hnext := h.tiled.next
  simp only [spanOf] at hnext
  have hshows : Shows (Flopperating.earlyMerge m c d) (Headers.merge (loadChunk m) c d)
      (l₁ ++ c :: d :: l₂) :=
    Shows.earlyMerge (fun a ha b hb => h.clear ha hb) (fun _ _ => rfl) hcm hdm
      (fun hne => h.next_mem hdm hne) (by omega) (by omega)
  have hsub : ∀ e ∈ l₁ ++ c :: l₂, e ∈ l₁ ++ c :: d :: l₂ := fun e he => mem_with_next he
  refine ⟨(h.merge hlo).congr fun e he => hshows e (hsub e he), fun e he => ?_⟩
  rw [hshows e (hsub e he)]
  have hfree : (Headers.merge (loadChunk m) c d).isFree = isFree (loadChunk m) := by
    simp [Headers.merge]
  have hspan : (Headers.merge (loadChunk m) c d).spanOf =
      Function.update (spanOf (loadChunk m)) c
        (chunkHeaderSize + ((loadChunk m c).size + (chunkHeaderSize + (loadChunk m d).size))) := by
    simp [Headers.merge]
  refine ⟨congrFun hfree e, fun hne => ?_⟩
  have hsize := congrFun hspan e
  rw [Function.update_of_ne hne] at hsize
  exact Nat.add_left_cancel hsize

/-- The merge forward: `d`, when it is free, is no longer a chunk of its own. -/
theorem Chunked.mergeForward {m : Memory} (h : Chunked (loadChunk m) lo hi (l₁ ++ c :: l₂))
    (hlo : 0 < lo) (hhi : hi ≤ 2 ^ 32) :
    ∃ l₃, Chunked (loadChunk (earlyMergeForward m c)) lo hi (l₁ ++ c :: l₃) ∧
      (∀ e ∈ l₁ ++ c :: l₃, (loadChunk (earlyMergeForward m c) e).free = (loadChunk m e).free ∧
        (e ≠ c → (loadChunk (earlyMergeForward m c) e).size = (loadChunk m e).size)) ∧
      (l₃ = l₂ ∧ (∀ d ∈ l₂.head?, (loadChunk m d).free = false) ∨
        ∃ d, l₂ = d :: l₃ ∧ (loadChunk m d).free = true) := by
  have hnext := h.next_eq
  unfold earlyMergeForward
  dsimp only
  by_cases hfree : (loadChunk m c).next ≠ 0 ∧ (loadChunk m (loadChunk m c).next).free = true
  · rw [if_pos hfree]
    rw [chunkAt, if_neg hfree.1] at hnext
    obtain ⟨l₃, rfl⟩ : ∃ l₃, l₂ = (loadChunk m c).next :: l₃ :=
      ⟨_, List.eq_cons_of_mem_head? hnext.symm⟩
    obtain ⟨hch, hkeep⟩ := h.earlyMerge hlo hhi
    exact ⟨l₃, hch, hkeep, .inr ⟨_, rfl, hfree.2⟩⟩
  · rw [if_neg hfree]
    refine ⟨l₂, h, fun _ _ => ⟨rfl, fun _ => rfl⟩, .inl ⟨rfl, fun d hd => ?_⟩⟩
    obtain ⟨hne, rfl⟩ := chunkAt_eq_some.1 (hnext.trans hd)
    exact Bool.eq_false_iff.2 fun hd' => hfree ⟨hne, hd'⟩

/-- The merge backward: `c` goes into the chunk before it when that one is free. -/
theorem Chunked.mergeBackward {m : Memory} (h : Chunked (loadChunk m) lo hi (l₁ ++ c :: l₂))
    (hlo : 0 < lo) (hhi : hi ≤ 2 ^ 32) :
    (earlyMergeBackward m c = m ∧ ∀ b ∈ l₁.getLast?, (loadChunk m b).free = false) ∨
    ∃ l₀ b, l₁ = l₀ ++ [b] ∧ (loadChunk m b).free = true ∧
      Chunked (loadChunk (earlyMergeBackward m c)) lo hi (l₀ ++ b :: l₂) ∧
      ∀ e ∈ l₀ ++ b :: l₂, (loadChunk (earlyMergeBackward m c) e).free = (loadChunk m e).free ∧
        (e ≠ b → (loadChunk (earlyMergeBackward m c) e).size = (loadChunk m e).size) := by
  have hprev := h.prev_eq
  unfold earlyMergeBackward
  dsimp only
  by_cases hfree : (loadChunk m c).prev ≠ 0 ∧ (loadChunk m (loadChunk m c).prev).free = true
  · rw [if_pos hfree]
    rw [chunkAt, if_neg hfree.1] at hprev
    obtain ⟨l₀, rfl⟩ : ∃ l₀, l₁ = l₀ ++ [(loadChunk m c).prev] :=
      ⟨_, (List.dropLast_append_getLast? _ hprev.symm).symm⟩
    rw [List.append_assoc] at h
    obtain ⟨hch, hkeep⟩ := h.earlyMerge hlo hhi
    exact .inr ⟨l₀, _, rfl, hfree.2, hch, hkeep⟩
  · rw [if_neg hfree]
    refine .inl ⟨rfl, fun b hb => ?_⟩
    obtain ⟨hne, rfl⟩ := chunkAt_eq_some.1 (hprev.trans hb)
    exact Bool.eq_false_iff.2 fun hb' => hfree ⟨hne, hb'⟩

/-! ### The calls -/

/-- The chunks in the memory, without two free neighbours. -/
structure Pooled (m : Memory) (lo hi : ℕ) (l : List ℕ) : Prop where
  chunked : Chunked (loadChunk m) lo hi l
  coalesced : Coalesced (isFree (loadChunk m)) l

/-- The chunks that are handed out. -/
def Used (m : Memory) (l : List ℕ) (c : ℕ) : Prop := c ∈ l ∧ (loadChunk m c).free = false

variable {m m' : Memory} {size fuel : ℕ}

/-- Flags that stay on a list stay coalesced there. -/
theorem Coalesced.keep (h : Coalesced (isFree (loadChunk m)) l)
    (hkeep : ∀ e ∈ l, (loadChunk m' e).free = (loadChunk m e).free) :
    Coalesced (isFree (loadChunk m')) l :=
  h.mono fun e he hfree => (hkeep e he).symm.trans hfree

/-- **A chunk handed out**, between coalesced chunks. -/
theorem Chunked.handOut (h : Chunked (loadChunk m) lo hi (l₁ ++ c :: l₂))
    (h₁ : Coalesced (isFree (loadChunk m)) l₁) (h₂ : Coalesced (isFree (loadChunk m)) l₂) :
    Pooled (Flopperating.setChunkFree m c false) lo hi (l₁ ++ c :: l₂) ∧
      ∀ e, Used (Flopperating.setChunkFree m c false) (l₁ ++ c :: l₂) e ↔
        e = c ∨ Used m (l₁ ++ c :: l₂) e := by
  have hc : c ∈ l₁ ++ c :: l₂ := by simp
  obtain ⟨hset, hflag, hrest⟩ := h.setChunkFree (v := false) hc
  have hout : ∀ e ∈ l₁ ++ l₂, (loadChunk (Flopperating.setChunkFree m c false) e).free =
      (loadChunk m e).free := fun e he =>
    (hrest e (mem_with he)).1 (h.ne_of_mem he)
  refine ⟨⟨hset, coalesced_of_used (Coalesced.keep h₁ fun e he => ?_)
    (Coalesced.keep h₂ fun e he => ?_) hflag⟩, fun e => ?_⟩
  · exact hout e (List.mem_append_left _ he)
  · exact hout e (List.mem_append_right _ he)
  · rcases eq_or_ne e c with rfl | hne
    · exact iff_of_true ⟨hc, hflag⟩ (.inl rfl)
    · unfold Used
      constructor
      · rintro ⟨he, hfree⟩
        exact .inr ⟨he, ((hrest e he).1 hne).symm.trans hfree⟩
      · rintro (rfl | ⟨he, hfree⟩)
        · exact absurd rfl hne
        · exact ⟨he, ((hrest e he).1 hne).trans hfree⟩

/-- **What `early_alloc` does with the chunk it has found.** -/
theorem Pooled.take (h : Pooled m lo hi (l₁ ++ c :: l₂)) (hlo : 0 < lo) (hhi : hi ≤ 2 ^ 32)
    (hfree : (loadChunk m c).free = true) (hsize : size ≤ (loadChunk m c).size) :
    ∃ l', Pooled (earlyTake m c size) lo hi l' ∧
      (∀ e, Used (earlyTake m c size) l' e ↔ e = c ∨ Used m (l₁ ++ c :: l₂) e) ∧
      (∀ e, Used m (l₁ ++ c :: l₂) e →
        (loadChunk (earlyTake m c size) e).size = (loadChunk m e).size) ∧
      size ≤ (loadChunk (earlyTake m c size) c).size := by
  have hc : c ∈ l₁ ++ c :: l₂ := by simp
  have h₁ : Coalesced (isFree (loadChunk m)) l₁ := h.coalesced.left_of_append
  have h₂ : Coalesced (isFree (loadChunk m)) (c :: l₂) := h.coalesced.right_of_append
  have hne : ∀ e, Used m (l₁ ++ c :: l₂) e → e ≠ c := by
    rintro e he rfl
    exact Bool.false_ne_true (he.2.symm.trans hfree)
  unfold earlyTake
  dsimp only
  split
  · next hroom =>
    -- the new chunk is free, and behind it comes a used one
    obtain ⟨hch, hfresh, hnew, hcsize, hkeep⟩ := h.chunked.earlySplit
      (n := c + chunkHeaderSize + size) hlo hhi (Nat.add_sub_cancel' hsize)
      (Nat.le_of_lt (lt_of_le_of_lt (Nat.le_add_right _ 8) hroom)) rfl
    have hout : ∀ e ∈ l₁ ++ c :: l₂, (loadChunk (Flopperating.earlySplit m c size
        ((loadChunk m c).size - size)) e).free = (loadChunk m e).free := fun e he => (hkeep e he).1
    obtain ⟨hpool, hused⟩ := hch.handOut (Coalesced.keep h₁ fun e he => hout e (by simp [he]))
      (coalesced_cons (Coalesced.keep h₂.tail fun e he => hout e (by simp [he])) fun d hd =>
        (hout d (by simp [List.mem_of_mem_head? hd])).trans (h₂.head_used hfree d hd))
    obtain ⟨-, -, hrest⟩ := hch.setChunkFree (v := false) (c := c) (by simp)
    refine ⟨_, hpool, fun e => (hused e).trans (or_congr_right ⟨?_, ?_⟩), fun e he => ?_, ?_⟩
    · rintro ⟨he, hfalse⟩
      have hen : e ≠ c + chunkHeaderSize + size := by
        rintro rfl
        exact Bool.false_ne_true (hfalse.symm.trans hnew)
      have hmem := mem_without_next he hen
      exact ⟨hmem, (hout e hmem).symm.trans hfalse⟩
    · rintro ⟨he, hfalse⟩
      exact ⟨mem_with_next he, (hout e he).trans hfalse⟩
    · exact (hrest e (mem_with_next he.1)).2.trans ((hkeep e he.1).2 (hne e he))
    · rw [(hrest c (by simp)).2, hcsize]
  · obtain ⟨hpool, hused⟩ := h.chunked.handOut h₁ h₂.tail
    obtain ⟨-, -, hrest⟩ := h.chunked.setChunkFree (v := false) hc
    exact ⟨_, hpool, hused, fun e he => (hrest e he.1).2, (hrest c hc).2.symm ▸ hsize⟩

/-- `early_free` after the merge forward: behind the chunk comes a used one. -/
theorem Pooled.freeForward (h : Pooled m lo hi (l₁ ++ c :: l₂)) (hlo : 0 < lo) (hhi : hi ≤ 2 ^ 32)
    (hm : m' = earlyMergeForward (Flopperating.setChunkFree m c true) c) :
    ∃ l₃, Chunked (loadChunk m') lo hi (l₁ ++ c :: l₃) ∧ (loadChunk m' c).free = true ∧
      Coalesced (isFree (loadChunk m)) l₃ ∧ (∀ d ∈ l₃.head?, (loadChunk m d).free = false) ∧
      (∀ e ∈ l₁ ++ l₃, (loadChunk m' e).free = (loadChunk m e).free ∧
        (loadChunk m' e).size = (loadChunk m e).size) ∧
      ∀ e, e ∈ l₁ ++ l₃ ∧ (loadChunk m e).free = false ↔ Used m (l₁ ++ c :: l₂) e ∧ e ≠ c := by
  have hc : c ∈ l₁ ++ c :: l₂ := by simp
  have h₂ : Coalesced (isFree (loadChunk m)) l₂ := h.coalesced.right_of_append.tail
  obtain ⟨hset, hflag, hrest⟩ := h.chunked.setChunkFree (v := true) hc
  have hout : ∀ e ∈ l₁ ++ l₂, (loadChunk (Flopperating.setChunkFree m c true) e).free =
      (loadChunk m e).free := fun e he => (hrest e (mem_with he)).1 (h.chunked.ne_of_mem he)
  obtain ⟨l₃, hch, hkeep, hcase⟩ := hset.mergeForward hlo hhi
  rw [← hm] at hch hkeep
  have hsub : ∀ e ∈ l₁ ++ l₃, e ∈ l₁ ++ l₂ := fun e he => by
    rcases hcase with ⟨rfl, -⟩ | ⟨d, rfl, -⟩
    · exact he
    · exact mem_with he
  refine ⟨l₃, hch, (hkeep c (by simp)).1.trans hflag, ?_, ?_, fun e he => ?_, fun e => ?_⟩
  · rcases hcase with ⟨rfl, -⟩ | ⟨d, rfl, -⟩
    · exact h₂
    · exact h₂.tail
  · rcases hcase with ⟨rfl, hhead⟩ | ⟨d, rfl, hd⟩
    · exact fun d hd => (hout d (by simp [List.mem_of_mem_head? hd])).symm.trans (hhead d hd)
    · exact h₂.head_used ((hout d (by simp)).symm.trans hd)
  · have hkept := hkeep e (mem_with he)
    exact ⟨hkept.1.trans (hout e (hsub e he)),
      (hkept.2 (hch.ne_of_mem he)).trans (hrest e (mem_with (hsub e he))).2⟩
  · constructor
    · rintro ⟨he, hfalse⟩
      have hmem := hsub e he
      exact ⟨⟨mem_with hmem, hfalse⟩, h.chunked.ne_of_mem hmem⟩
    · rintro ⟨⟨he, hfalse⟩, hne⟩
      refine ⟨?_, hfalse⟩
      have hin := mem_without he hne
      rcases hcase with ⟨rfl, -⟩ | ⟨d, rfl, hd⟩
      · exact hin
      · have hed : e ≠ d := by
          rintro rfl
          exact Bool.false_ne_true (hfalse.symm.trans ((hout e (by simp)).symm.trans hd))
        exact mem_without hin hed

/-- **What `early_free` does with a used chunk.** -/
theorem Pooled.free (h : Pooled m lo hi (l₁ ++ c :: l₂)) (hlo : 0 < lo) (hhi : hi ≤ 2 ^ 32)
    (hm : m' = earlyCoalesce (Flopperating.setChunkFree m c true) c) :
    ∃ l', Pooled m' lo hi l' ∧
      (∀ e, Used m' l' e ↔ Used m (l₁ ++ c :: l₂) e ∧ e ≠ c) ∧
      ∀ e, Used m (l₁ ++ c :: l₂) e → e ≠ c → (loadChunk m' e).size = (loadChunk m e).size := by
  have h₁ : Coalesced (isFree (loadChunk m)) l₁ := h.coalesced.left_of_append
  obtain ⟨l₃, hch, hflag, h₃, hhead, hkeep, hused⟩ := h.freeForward hlo hhi rfl
  unfold earlyCoalesce at hm
  generalize earlyMergeForward (Flopperating.setChunkFree m c true) c = m₂ at hm hch hflag hkeep
  rcases hch.mergeBackward hlo hhi with ⟨hsame, hlast⟩ | ⟨l₀, b, rfl, hb, hch', hkeep'⟩
  · rw [hsame] at hm
    subst hm
    refine ⟨_, ⟨hch, coalesced_around (Coalesced.keep h₁ fun e he => ?_) hlast
      (Coalesced.keep h₃ fun e he => ?_) fun d hd => ?_⟩, fun e => ?_, fun e he hne => ?_⟩
    · exact (hkeep e (by simp [he])).1
    · exact (hkeep e (by simp [he])).1
    · exact (hkeep d (by simp [List.mem_of_mem_head? hd])).1.trans (hhead d hd)
    · rw [← hused e]
      constructor
      · rintro ⟨he, hfalse⟩
        have hec : e ≠ c := by
          rintro rfl
          exact Bool.false_ne_true (hfalse.symm.trans hflag)
        have hin := mem_without he hec
        exact ⟨hin, (hkeep e hin).1.symm.trans hfalse⟩
      · rintro ⟨hin, hfalse⟩
        exact ⟨mem_with hin, (hkeep e hin).1.trans hfalse⟩
    · exact (hkeep e ((hused e).2 ⟨he, hne⟩).1).2
  · rw [← hm] at hch' hkeep'
    have hlist : ∀ e, e ∈ l₀ ++ [b] ++ l₃ ↔ e ∈ l₀ ++ b :: l₃ := fun e => by simp
    have hbm : (loadChunk m b).free = true := (hkeep b (by simp)).1.symm.trans hb
    have hout : ∀ e ∈ l₀ ++ b :: l₃, (loadChunk m' e).free = (loadChunk m e).free := fun e he =>
      (hkeep' e he).1.trans (hkeep e ((hlist e).2 he)).1
    have h₀ : Coalesced (isFree (loadChunk m)) l₀ := List.IsChain.left_of_append h₁
    refine ⟨_, ⟨hch', coalesced_around (Coalesced.keep h₀ fun e he => hout e (by simp [he]))
      (fun a ha => ?_) (Coalesced.keep h₃ fun e he => hout e (by simp [he])) fun d hd => ?_⟩,
      fun e => ?_, fun e he hne => ?_⟩
    · exact (hout a (by simp [List.mem_of_getLast? ha])).trans (Coalesced.last_used h₁ hbm a ha)
    · exact (hout d (by simp [List.mem_of_mem_head? hd])).trans (hhead d hd)
    · rw [← hused e, hlist e]
      exact and_congr_right fun he => by rw [hout e he]
    · have hin := ((hused e).2 ⟨he, hne⟩).1
      have heb : e ≠ b := by
        rintro rfl
        exact Bool.false_ne_true (he.2.symm.trans hbm)
      exact ((hkeep' e ((hlist e).1 hin)).2 heb).trans (hkeep e hin).2

/-- The walk of `early_alloc` over the rest of the list: it takes the first free chunk that is
large enough, and ends with `NULL` when there is none. -/
theorem Chunked.earlyAllocFrom {cur : ℕ} (size : ℕ) (h : Chunked (loadChunk m) lo hi (l₁ ++ l₂))
    (hcur : chunkAt cur = l₂.head?) (hfuel : l₂.length < fuel) :
    (earlyAllocFrom size m fuel cur = some (0, m) ∧
      ∀ c ∈ l₂, (loadChunk m c).free = true → (loadChunk m c).size < size) ∨
    ∃ a c b, l₂ = a ++ c :: b ∧ (loadChunk m c).free = true ∧ size ≤ (loadChunk m c).size ∧
      earlyAllocFrom size m fuel cur = some (u32 (c + chunkHeaderSize), earlyTake m c size) := by
  induction l₂ generalizing l₁ fuel cur with
  | nil =>
    obtain ⟨fuel, rfl⟩ := Nat.exists_eq_succ_of_ne_zero (Nat.ne_of_gt hfuel)
    have hzero : cur = 0 := by
      by_contra hne
      rw [chunkAt, if_neg hne] at hcur
      exact absurd hcur (by simp)
    refine .inl ⟨?_, by simp⟩
    rw [Flopperating.earlyAllocFrom, if_pos hzero]
  | cons c l₂ ih =>
    obtain ⟨fuel, rfl⟩ := Nat.exists_eq_succ_of_ne_zero (Nat.ne_of_gt (Nat.zero_lt_of_lt hfuel))
    obtain ⟨hne, rfl⟩ := chunkAt_eq_some.1 (hcur.trans rfl)
    rw [Flopperating.earlyAllocFrom, if_neg hne]
    split
    · next hfit => exact .inr ⟨[], cur, l₂, rfl, hfit.1, hfit.2, rfl⟩
    · next hfit =>
      have h' : Chunked (loadChunk m) lo hi ((l₁ ++ [cur]) ++ l₂) := by simpa using h
      rcases ih h' h.next_eq (by simpa using hfuel) with ⟨hrun, hall⟩ | ⟨a, c, b, rfl, hfree, hle, hrun⟩
      · refine .inl ⟨hrun, fun d hd hfree => ?_⟩
        rcases List.mem_cons.1 hd with rfl | hd
        · exact Nat.lt_of_not_le fun hle => hfit ⟨hfree, hle⟩
        · exact hall d hd hfree
      · exact .inr ⟨cur :: a, c, b, rfl, hfree, hle, hrun⟩

end Headers

end Flopperating
