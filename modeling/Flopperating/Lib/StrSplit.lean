/-
# Splitting a string

`flopstrsplit` of `src/lib/str.c`.  A first pass counts the delimiters and a second one copies
the fields, each to an allocation of its own.

| source | here |
| --- | --- |
| `char** tokens` | `Split`: the bytes that were asked for, and its slots, of which `none` is `NULL` |
| `tokens[index]` | `Token`: the bytes that were asked for, and its characters |

No call of `kmalloc` fails, and what it gives is not initialised (`before`, `garbage`).  The string
is in the same address space as the blocks of all the tokens (`KmallocSucceeds`); so neither the
size of a token nor that of the slots wraps around.

The tokens are the fields of the string, less an empty one at its end (`flopstrsplit_splits`).
The empty string has a field, and no token (`not_splitsInto_fields`).
-/

import Flopperating.Data.Fields
import Flopperating.Lib.StrCopy
import Flopperating.Mem.Heap

namespace Flopperating

open Fields TracedMemory

/-- `flopstrchr`: the string from the first `c` on. -/
def flopstrchr : CString → UInt8 → Option CString
  | [], _ => none
  | d :: str, c => if d.1 = c then some (d :: str) else flopstrchr str c

/-- `flopstrchr(delim, *s)` as a condition. -/
def isDelim (delim : CString) (c : CChar) : Bool := (flopstrchr delim c.1).isSome

/-- An allocation for a token. -/
structure Token where
  size : ℕ
  chars : CharArray

/-- What `flopstrsplit` returns. -/
structure Split where
  bytes : ℕ
  tokens : TracedMemory ℕ (Option Token)

/-- The loop that counts. -/
def countDelims (delim : CString) : ℕ → CString → ℕ
  | tokenCount, [] => tokenCount
  | tokenCount, c :: s => countDelims delim (if isDelim delim c then u32 (tokenCount + 1) else tokenCount) s

/-- `kmalloc(len + 1)`, and the copy to it. -/
def newToken (garbage : ℕ → UInt8) (start : CString) (len : ℕ) : Token :=
  ⟨u32 (len + 1), flopstrcopy 0 start (u32 (len + 1)) (.fresh garbage)⟩

/-- The loop that copies, with the string from `s` on: the last index, and the slots. -/
def splitFrom (delim : CString) (garbage : ℕ → ℕ → UInt8) (index : ℕ) (s : CString)
    (tokens : TracedMemory ℕ (Option Token)) : ℕ × TracedMemory ℕ (Option Token) :=
  if s = [] then (index, tokens)
  else splitFrom delim garbage (index + 1) (s.dropWhile fun c => !isDelim delim c).tail
    (tokens.store index (some (newToken (garbage index) s (s.takeWhile fun c => !isDelim delim c).length)))
termination_by s.length
decreasing_by
  have := (List.dropWhile_sublist (l := s) fun c => !isDelim delim c).length_le
  have := List.length_pos_iff.2 ‹_›
  rw [List.length_tail]
  omega

/-- `flopstrsplit`. -/
def flopstrsplit (str delim : CString) (before : ℕ → Option Token) (garbage : ℕ → ℕ → UInt8) : Split :=
  ⟨u32 (u32 (countDelims delim 0 str + 2) * 4),
    (splitFrom delim garbage 0 str ⟨before, []⟩).2.store (splitFrom delim garbage 0 str ⟨before, []⟩).1 none⟩

/-- The string and a block for each token are in one address space. -/
def KmallocSucceeds (str delim : CString) : Prop :=
  str.length + 1 + (tokens (isDelim delim) str).length * blockSize ≤ 2 ^ 32

instance (str delim : CString) : Decidable (KmallocSucceeds str delim) :=
  inferInstanceAs (Decidable (str.length + 1 + (tokens (isDelim delim) str).length * blockSize ≤ 2 ^ 32))

/-- The slots have the given texts and `NULL`, and nothing outside is written. -/
structure SplitsInto (str delim : CString) (texts : List CString) (out : Split) : Prop where
  bytes : out.bytes = ((str.filter (isDelim delim)).length + 2) * 4
  slots : ∀ i ∈ out.tokens.touched, i < (str.filter (isDelim delim)).length + 2
  token : ∀ i (hi : i < texts.length), ∃ t, out.tokens.value i = some t ∧ (∀ j ∈ t.chars.touched, j < t.size) ∧
    HoldsAt t.chars.value 0 texts[i]
  null : out.tokens.value texts.length = none

variable {str delim s t r : CString} {c d : CChar} {m : TracedMemory ℕ (Option Token)} {index n : ℕ}
  {before : ℕ → Option Token} {a : ℕ → UInt8} {garbage : ℕ → ℕ → UInt8}

theorem isDelim_iff : isDelim delim c = true ↔ c ∈ delim := by
  unfold isDelim
  induction delim with
  | nil => exact iff_of_false Bool.false_ne_true List.not_mem_nil
  | cons d delim ih =>
    rw [flopstrchr, List.mem_cons]
    split_ifs with heq
    · exact iff_of_true rfl (.inl (Subtype.ext heq.symm))
    · exact ih.trans ⟨.inr, fun h => h.resolve_left fun h => heq (congrArg Subtype.val h.symm)⟩

theorem countDelims_eq (h : n + s.length < 2 ^ 32) : countDelims delim n s = n + (s.filter (isDelim delim)).length := by
  induction s generalizing n with
  | nil => rfl
  | cons c s ih =>
    rw [List.length_cons] at h
    rw [countDelims]
    split_ifs with hc
    · rw [u32_of_lt (by omega), ih (by omega), List.filter_cons_of_pos hc, List.length_cons]
      omega
    · rw [ih (by omega), List.filter_cons_of_neg hc]

/-! ### The tokens -/

/-- The allocation of a token with its text. -/
def tokenOf (garbage : ℕ → UInt8) (t : CString) : Token :=
  ⟨t.length + 1, storeFrom (0 + ·) 0 (t.map Subtype.val ++ [0]) (CharArray.fresh garbage)⟩

theorem newToken_eq (h : t.length + 1 < 2 ^ 32) : newToken a (t ++ r) t.length = tokenOf a t := by
  rw [newToken, u32_of_lt h, flopstrcopy, copyTerminated_eq, predSize_of_pos (Nat.succ_pos _) h, Nat.succ_sub_one,
    List.take_left, tokenOf]

/-- The text is all that is written to the allocation. -/
theorem tokenOf_within : ∀ j ∈ (tokenOf a t).chars.touched, j < (tokenOf a t).size := by
  intro j hj
  rcases mem_touched_storeFrom.1 hj with hj | ⟨k, hk, rfl⟩
  · exact absurd hj List.not_mem_nil
  · rw [List.length_append, List.length_map, List.length_singleton] at hk
    rw [Nat.zero_add, Nat.zero_add]
    exact hk

theorem splitFrom_nil : splitFrom delim garbage index [] m = (index, m) := by
  rw [splitFrom, if_pos rfl]

theorem splitFrom_free (hne : s ≠ []) (hs : Free (isDelim delim) s) (hlen : s.length + 1 < 2 ^ 32) :
    splitFrom delim garbage index s m = (index + 1, m.store index (some (tokenOf (garbage index) s))) := by
  have htoken := newToken_eq (r := []) (a := garbage index) hlen
  rw [List.append_nil] at htoken
  rw [splitFrom, if_neg hne, hs.dropWhile_eq, hs.takeWhile_eq, htoken, List.tail_nil, splitFrom_nil]

theorem splitFrom_append (ht : Free (isDelim delim) t) (hd : isDelim delim d = true)
    (hlen : t.length + 1 < 2 ^ 32) : splitFrom delim garbage index (t ++ d :: r) m =
      splitFrom delim garbage (index + 1) r (m.store index (some (tokenOf (garbage index) t))) := by
  rw [splitFrom, if_neg (by simp), ht.dropWhile_append hd, ht.takeWhile_append hd, newToken_eq hlen, List.tail_cons]

/-- **The second pass stores the tokens one after the other.** -/
theorem splitFrom_eq (hlen : s.length + 1 < 2 ^ 32) : splitFrom delim garbage index s m =
    (index + (tokens (isDelim delim) s).length, storeFrom id index
      ((tokens (isDelim delim) s).mapIdx fun i t => some (tokenOf (garbage (index + i)) t)) m) := by
  induction s using separated_induction (p := isDelim delim) generalizing index m with
  | nil => exact splitFrom_nil
  | last s hne hs =>
    rw [splitFrom_free hne hs hlen, tokens_of_free hne hs]
    rfl
  | cons t d r ht hd ih =>
    rw [List.length_append, List.length_cons] at hlen
    rw [splitFrom_append ht hd (by omega), ih (by omega), tokens_append ht hd, List.mapIdx_cons, storeFrom,
      List.length_cons, Nat.add_right_comm, Nat.add_assoc]
    simp only [Nat.add_assoc, Nat.add_comm 1]
    rfl

/-- The string is shorter than the address space. -/
theorem KmallocSucceeds.length_lt (h : KmallocSucceeds str delim) : str.length + 1 < 2 ^ 32 := by
  rcases eq_or_ne str [] with rfl | hne
  · decide
  · have hpos := List.length_pos_iff.2 (tokens_ne_nil (p := isDelim delim) hne)
    have : str.length + 1 + (tokens (isDelim delim) str).length * 32 ≤ 2 ^ 32 := h
    omega

/-- **`flopstrsplit` splits the string into its tokens**, and joined they are the string again, less a
delimiter that comes last. -/
theorem flopstrsplit_splits (hserved : KmallocSucceeds str delim) :
    SplitsInto str delim (tokens (isDelim delim) str) (flopstrsplit str delim before garbage) ∧
      (∀ c, isDelim delim c = true ↔ c ∈ delim) ∧
      joinWith (tokens (isDelim delim) str) (str.filter (isDelim delim)) =
        if endsIn (isDelim delim) str then str.dropLast else str := by
  refine ⟨?_, fun c => isDelim_iff, joinWith_tokens⟩
  have hcount : (str.filter (isDelim delim)).length ≤ (tokens (isDelim delim) str).length ∧
    (tokens (isDelim delim) str).length ≤ (str.filter (isDelim delim)).length + 1 := length_tokens
  have hspace : str.length + 1 + (tokens (isDelim delim) str).length * 32 ≤ 2 ^ 32 := hserved
  have hlen := hserved.length_lt
  have hsplit : splitFrom delim garbage 0 str ⟨before, []⟩ = ((tokens (isDelim delim) str).length, storeFrom id 0
      ((tokens (isDelim delim) str).mapIdx fun i t => some (tokenOf (garbage i) t)) ⟨before, []⟩) := by
    rw [splitFrom_eq hlen]
    simp only [Nat.zero_add]
  exact {
    bytes := by
      show u32 (u32 (countDelims delim 0 str + 2) * 4) = _
      have hslots : u32 ((str.filter (isDelim delim)).length + 2) = (str.filter (isDelim delim)).length + 2 :=
        u32_of_lt (by omega)
      rw [countDelims_eq (by omega), Nat.zero_add, hslots, u32_of_lt (by omega)]
    slots := fun i hi => by
      rw [flopstrsplit, hsplit] at hi
      rcases List.mem_cons.1 hi with rfl | hi
      · omega
      · rcases mem_touched_storeFrom.1 hi with hi | ⟨k, hk, rfl⟩
        · exact absurd hi List.not_mem_nil
        · rw [List.length_mapIdx] at hk
          rw [Nat.zero_add, id_eq]
          omega
    token := fun i hi => by
      refine ⟨tokenOf (garbage i) (tokens (isDelim delim) str)[i], ?_, tokenOf_within, holdsAt_storeFrom _⟩
      have hstored := value_storeFrom (m := ⟨before, []⟩) (i := 0) Function.injective_id
        (hi.trans_eq (List.length_mapIdx (f := fun i t => some (tokenOf (garbage i) t))).symm)
      rw [Nat.zero_add, id_eq, List.getElem_mapIdx] at hstored
      rw [flopstrsplit, hsplit]
      exact (Function.update_of_ne (Nat.ne_of_lt hi) _ _).trans hstored
    null := by
      rw [flopstrsplit, hsplit]
      exact Function.update_self .. }

theorem flopstrsplit_splits_path : SplitsInto (ascii "/a//b/") (ascii "/") [[], ascii "a", [], ascii "b"]
    (flopstrsplit (ascii "/a//b/") (ascii "/") (fun _ => none) fun _ _ => 0) :=
  (flopstrsplit_splits (by decide)).1

/-- The empty string has one field, but no token. -/
theorem not_splitsInto_fields : ¬ SplitsInto [] (ascii ",") (fields (isDelim (ascii ",")) [])
    (flopstrsplit [] (ascii ",") (fun _ => none) fun _ _ => 0) := by
  intro h
  obtain ⟨t, ht, -⟩ := h.token 0 Nat.one_pos
  rw [flopstrsplit, splitFrom_nil] at ht
  exact absurd ht (Option.some_ne_none t).symm

end Flopperating
