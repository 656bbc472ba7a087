/-
# Bounded copies

`flopstrcopy`, `flopstrlcpy` and `flopstrlcat` of `src/lib/str.c`.  An array of characters keeps
which of its places were written; the string that is copied from is no part of it.

| source | here |
| --- | --- |
| `char* dst`, before the call | `CharArray.fresh`: its characters, none of them written |
| `dst[i] = c` | `store` |
| `size - 1`, of type `size_t` | `predSize size` |

Every loop stops where `i` reaches such a difference.  For a positive size it is the number of
characters that there is room for, and the copies keep to it.  `0 - 1` is `2 ^ 32 - 1`: then a
copy goes on to the end of the string, whatever the array (`boundedCopies_iff`).
-/

import Flopperating.Data.TracedMemory
import Flopperating.Lib.Str
import Flopperating.Machine

namespace Flopperating

open TracedMemory

/-- The characters from a pointer on, and which of them were written. -/
abbrev CharArray : Type := TracedMemory ℕ UInt8

def CharArray.fresh (a : ℕ → UInt8) : CharArray := ⟨a, []⟩

/-- The string `s` with its `NUL` is at `base`. -/
def HoldsAt (a : ℕ → UInt8) (base : ℕ) (s : CString) : Prop := ∀ i ≤ s.length, a (base + i) = charAt (s.drop i)

instance (a : ℕ → UInt8) (base : ℕ) (s : CString) : Decidable (HoldsAt a base s) := inferInstanceAs (Decidable (∀ i ≤ s.length, a (base + i) = charAt (s.drop i)))

/-- `n - 1`, of type `size_t`. -/
def predSize (n : ℕ) : ℕ := u32 (n + (2 ^ 32 - 1))

/-- `flopstrlen` of an array, from index `i` on and for at most `n` rounds. -/
def strlenFrom (a : ℕ → UInt8) : ℕ → ℕ → Option ℕ
  | 0, _ => none
  | n + 1, i => if a i = 0 then some i else strlenFrom a n (i + 1)

/-- `flopstrlen` of an array. -/
def arrayStrlen (a : ℕ → UInt8) : Option ℕ := strlenFrom a (2 ^ 32) 0

/-- The string that begins at index `i`, of which at most `n` characters are read. -/
def textFrom (a : ℕ → UInt8) : ℕ → ℕ → CString
  | 0, _ => []
  | n + 1, i => if h : a i ≠ 0 then ⟨a i, h⟩ :: textFrom a n (i + 1) else []

/-- `while (i < bound && src[i] != '\0') { dst[base + i] = src[i]; i++; }`, of which the first
component is `i`. -/
def copyWhile (bound base : ℕ) : ℕ → CString → CharArray → ℕ × CharArray
  | i, [], dst => (i, dst)
  | i, c :: src, dst => if i < bound then copyWhile bound base (i + 1) src (dst.store (base + i) c.1) else (i, dst)

/-- The loop, and `dst[base + i] = '\0'`. -/
def copyTerminated (bound base : ℕ) (src : CString) (dst : CharArray) : CharArray :=
  (copyWhile bound base 0 src dst).2.store (base + (copyWhile bound base 0 src dst).1) 0

/-- `flopstrcopy(dst + base, src, len)`. -/
def flopstrcopy (base : ℕ) (src : CString) (len : ℕ) (dst : CharArray) : CharArray :=
  copyTerminated (predSize len) base src dst

/-- `flopstrlcpy`. -/
def flopstrlcpy (src : CString) (size : ℕ) (dst : CharArray) : ℕ × CharArray :=
  (flopstrlen src,
    if size > 0 then copyTerminated (predSize size) 0 src dst else (copyWhile (predSize size) 0 0 src dst).2)

/-- `flopstrlcat`. -/
def flopstrlcat (src : CString) (size : ℕ) (dst : CharArray) : Option (ℕ × CharArray) :=
  (arrayStrlen dst.value).map fun dstLen =>
    (u32 (dstLen + flopstrlen src),
      if dstLen < predSize size then copyTerminated (predSize (u32 (size + (2 ^ 32 - dstLen)))) dstLen src dst
      else dst)

variable {a b : ℕ → UInt8} {dst : CharArray} {src old s t : CString} {base bound i j len n size z : ℕ}

/-! ### Strings in arrays -/

theorem predSize_of_pos (hpos : 0 < n) (hlt : n < 2 ^ 32) : predSize n = n - 1 := by
  unfold predSize u32
  omega

theorem charAt_drop_ne_zero (hi : i < s.length) : charAt (s.drop i) ≠ 0 := by
  rw [List.drop_eq_getElem_cons hi]
  exact (s[i]).2

theorem charAt_drop_of_lt (hi : i < s.length) : charAt (s.drop i) = (s[i]).1 := by
  rw [List.drop_eq_getElem_cons hi]
  rfl

theorem HoldsAt.congr (h : HoldsAt a base s) (heq : ∀ i ≤ s.length, b (base + i) = a (base + i)) : HoldsAt b base s :=
  fun i hi => (heq i hi).trans (h i hi)

/-- The part of a string behind its first characters. -/
theorem HoldsAt.drop (h : HoldsAt a base s) (hi : i ≤ s.length) : HoldsAt a (base + i) (s.drop i) := by
  intro j hj
  rw [List.length_drop] at hj
  rw [List.drop_drop, Nat.add_assoc]
  exact h (i + j) (by omega)

/-- A place of memory holds one string. -/
theorem HoldsAt.unique (hs : HoldsAt a base s) (ht : HoldsAt a base t) : s = t := by
  induction s generalizing base t with
  | nil =>
    rcases t with - | ⟨c, t⟩
    · rfl
    · exact absurd ((ht 0 (Nat.zero_le _)).symm.trans (hs 0 (Nat.zero_le _))) c.2
  | cons c s ih =>
    rcases t with - | ⟨d, t⟩
    · exact absurd ((hs 0 (Nat.zero_le _)).symm.trans (ht 0 (Nat.zero_le _))) c.2
    · have hhead : c = d := Subtype.ext ((hs 0 (Nat.zero_le _)).symm.trans (ht 0 (Nat.zero_le _)))
      have htail : s = t := ih (hs.drop (i := 1) (Nat.succ_le_succ (Nat.zero_le _)))
        (ht.drop (i := 1) (Nat.succ_le_succ (Nat.zero_le _)))
      rw [hhead, htail]

theorem strlenFrom_eq (h : HoldsAt a 0 s) (hi : i ≤ s.length) (hn : s.length < i + n) :
    strlenFrom a n i = some s.length := by
  induction n generalizing i with
  | zero => exact absurd hn (Nat.not_lt.2 hi)
  | succ n ih =>
    have hat := h i hi
    rw [Nat.zero_add] at hat
    rw [strlenFrom, hat]
    rcases Nat.lt_or_eq_of_le hi with hlt | rfl
    · rw [if_neg (charAt_drop_ne_zero hlt)]
      exact ih hlt (by omega)
    · rw [List.drop_length]
      exact if_pos rfl

theorem arrayStrlen_eq (h : HoldsAt a 0 s) (hlen : s.length < 2 ^ 32) : arrayStrlen a = some s.length :=
  strlenFrom_eq h (Nat.zero_le _) (by omega)

/-- Bytes that were stored one after the other, and a `NUL` behind them, are a string. -/
theorem holdsAt_storeFrom (dst : CharArray) :
    HoldsAt (storeFrom (base + ·) 0 (s.map Subtype.val ++ [0]) dst).value base s := by
  intro i hi
  have hlt : i < (s.map Subtype.val ++ [0]).length := by
    rw [List.length_append, List.length_map, List.length_singleton]
    exact Nat.lt_succ_of_le hi
  have hinj : Function.Injective (base + ·) := fun x y => Nat.add_left_cancel
  have hvalue := value_storeFrom (m := dst) (i := 0) hinj hlt
  rw [Nat.zero_add] at hvalue
  rw [hvalue]
  rcases Nat.lt_or_eq_of_le hi with hin | rfl
  · rw [List.getElem_append_left (by rw [List.length_map]; exact hin), List.getElem_map, charAt_drop_of_lt hin]
  · rw [List.getElem_append_right (List.length_map Subtype.val).le, List.drop_length, List.getElem_singleton]
    rfl

theorem length_textFrom_le (hz : a (i + z) = 0) : (textFrom a n i).length ≤ z := by
  induction n generalizing i z with
  | zero => exact Nat.zero_le z
  | succ n ih =>
    rw [textFrom]
    split_ifs with hi
    · cases z with
      | zero => exact absurd hz hi
      | succ z =>
        rw [List.length_cons]
        exact Nat.succ_le_succ (ih (by rwa [Nat.succ_add_eq_add_succ]))
    · exact Nat.zero_le z

theorem textFrom_eq (h : HoldsAt a i s) (hn : s.length ≤ n) : textFrom a n i = s := by
  induction s generalizing i n with
  | nil =>
    have hend : a i = 0 := h 0 le_rfl
    cases n with
    | zero => rfl
    | succ n => exact dif_neg fun hne => hne hend
  | cons c s ih =>
    obtain ⟨n, rfl⟩ : ∃ k, n = k + 1 := Nat.exists_eq_succ_of_ne_zero (by rw [List.length_cons] at hn; omega)
    have hhead : a i = c.1 := h 0 (Nat.zero_le _)
    have htail : textFrom a n (i + 1) = s := ih (h.drop (i := 1) (Nat.succ_le_succ (Nat.zero_le _))) (Nat.le_of_succ_le_succ hn)
    rw [textFrom, dif_pos (by rw [hhead]; exact c.2), htail]
    exact congrArg (· :: s) (Subtype.ext hhead)

/-! ### The loop -/

/-- **The loop stores the characters that are below the bound.** -/
theorem copyWhile_eq (hi : i ≤ bound) : copyWhile bound base i src dst =
    (i + (src.take (bound - i)).length, storeFrom (base + ·) i ((src.take (bound - i)).map Subtype.val) dst) := by
  induction src generalizing i dst with
  | nil => rw [List.take_nil]; rfl
  | cons c src ih =>
    rw [copyWhile]
    rcases Nat.lt_or_eq_of_le hi with hlt | rfl
    · obtain ⟨k, hk⟩ : ∃ k, bound - i = k + 1 := ⟨bound - i - 1, by omega⟩
      rw [if_pos hlt, ih hlt, hk, List.take_succ_cons, show bound - (i + 1) = k by omega, List.length_cons,
        List.map_cons, storeFrom, Nat.succ_add, Nat.add_succ]
    · rw [if_neg (Nat.lt_irrefl i), Nat.sub_self]
      rfl

theorem copyTerminated_eq : copyTerminated bound base src dst =
    storeFrom (base + ·) 0 ((src.take bound).map Subtype.val ++ [0]) dst := by
  rw [copyTerminated, copyWhile_eq (Nat.zero_le bound), Nat.sub_zero, storeFrom_append, List.length_map]
  rfl

/-- Afterwards the array has what was copied, as a string. -/
theorem holdsAt_copyTerminated (dst : CharArray) : HoldsAt (copyTerminated bound base src dst).value base (src.take bound) := by
  rw [copyTerminated_eq]
  exact holdsAt_storeFrom dst

/-- The places that are written. -/
theorem mem_touched_copyTerminated : j ∈ (copyTerminated bound base src dst).touched ↔
    j ∈ dst.touched ∨ ∃ k ≤ (src.take bound).length, j = base + k := by
  rw [copyTerminated_eq, mem_touched_storeFrom, List.length_append, List.length_map, List.length_singleton]
  simp only [Nat.zero_add, Nat.lt_succ_iff]

theorem value_copyTerminated (h : ∀ k ≤ (src.take bound).length, j ≠ base + k) :
    (copyTerminated bound base src dst).value j = dst.value j := by
  rw [copyTerminated_eq]
  refine value_storeFrom_of_ne fun k hk => ?_
  rw [List.length_append, List.length_map, List.length_singleton] at hk
  rw [Nat.zero_add]
  exact h k (Nat.le_of_lt_succ hk)

/-! ### The bound -/

/-- A copy to `dst` keeps to `dst[0..size-1]`, and where this is not empty it leaves the string
`text` in `dst`. -/
structure Respects (size : ℕ) (text : CString) (dst : CharArray) : Prop where
  writes : ∀ i ∈ dst.touched, i < size
  holds : 0 < size → HoldsAt dst.value 0 text

/-- What is expected of the copies of `src` to the arrays `dst` and, behind the string `old`, `cat`. -/
structure BoundedCopies (src old : CString) (dst cat : ℕ → UInt8) (size : ℕ) : Prop where
  copy : Respects size (src.take (size - 1)) (flopstrcopy 0 src size (.fresh dst))
  lcpy : Respects size (src.take (size - 1)) (flopstrlcpy src size (.fresh dst)).2
  lcpy_length : (flopstrlcpy src size (.fresh dst)).1 = src.length
  lcat : ∃ r, flopstrlcat src size (.fresh cat) = some (old.length + src.length, r) ∧
    Respects size (old ++ src.take (size - 1 - old.length)) r

/-- A copy with room for the `NUL` keeps to the array. -/
theorem copyTerminated_writes (hbound : base + bound < size) :
    ∀ i ∈ (copyTerminated bound base src (.fresh a)).touched, i < size := by
  intro i hi
  rcases mem_touched_copyTerminated.1 hi with hi | ⟨k, hk, rfl⟩
  · exact absurd hi List.not_mem_nil
  · have := List.length_take_le bound src
    omega

theorem copyTerminated_respects (hbound : bound < size) :
    Respects size (src.take bound) (copyTerminated bound 0 src (.fresh a)) where
  writes := copyTerminated_writes (by rwa [Nat.zero_add])
  holds _ := holdsAt_copyTerminated _

theorem flopstrcopy_respects (hpos : 0 < size) (hsize : size < 2 ^ 32) :
    Respects size (src.take (size - 1)) (flopstrcopy 0 src size (.fresh a)) := by
  rw [flopstrcopy, predSize_of_pos hpos hsize]
  exact copyTerminated_respects (Nat.sub_lt hpos Nat.one_pos)

/-- `flopstrlcpy` is `flopstrcopy` for a positive size. -/
theorem flopstrlcpy_of_pos (hpos : 0 < size) : (flopstrlcpy src size dst).2 = flopstrcopy 0 src size dst := if_pos hpos

/-- What is appended stands behind the string that was there. -/
theorem holdsAt_append (hold : HoldsAt dst.value 0 old) :
    HoldsAt (copyTerminated bound old.length src dst).value 0 (old ++ src.take bound) := by
  intro i hi
  rw [List.length_append] at hi
  rw [Nat.zero_add]
  rcases Nat.lt_or_ge i old.length with hlt | hge
  · have hkept := hold i (Nat.le_of_lt hlt)
    rw [Nat.zero_add] at hkept
    rw [value_copyTerminated fun k _ => by omega, hkept, charAt_drop_of_lt hlt,
      charAt_drop_of_lt (by rw [List.length_append]; omega), List.getElem_append_left hlt]
  · have hstring : HoldsAt (copyTerminated bound old.length src dst).value old.length (src.take bound) :=
      holdsAt_copyTerminated dst
    have hcopied := hstring (i - old.length) (by omega)
    rw [Nat.add_sub_cancel' hge] at hcopied
    rw [hcopied, List.drop_append, List.drop_eq_nil_of_le hge, List.nil_append]

theorem flopstrlcat_respects (hpos : 0 < size) (hsize : size < 2 ^ 32) (hold : HoldsAt a 0 old)
    (hfits : old.length + src.length < 2 ^ 32) :
    ∃ r, flopstrlcat src size (.fresh a) = some (old.length + src.length, r) ∧
      Respects size (old ++ src.take (size - 1 - old.length)) r := by
  have hlen : arrayStrlen (CharArray.fresh a).value = some old.length := arrayStrlen_eq hold (by omega)
  rw [flopstrlcat, hlen, Option.map_some, flopstrlen, u32_of_lt hfits, predSize_of_pos hpos hsize]
  refine ⟨_, rfl, ?_⟩
  by_cases hroom : old.length < size - 1
  · have hbound : predSize (u32 (size + (2 ^ 32 - old.length))) = size - 1 - old.length := by
      rw [show u32 (size + (2 ^ 32 - old.length)) = size - old.length by unfold u32; omega,
        predSize_of_pos (by omega) (by omega), Nat.sub_right_comm]
    rw [if_pos hroom, hbound]
    exact ⟨copyTerminated_writes (by omega), fun _ => holdsAt_append hold⟩
  · rw [if_neg hroom, Nat.sub_eq_zero_of_le (Nat.not_lt.1 hroom), List.take_zero, List.append_nil]
    exact ⟨fun i hi => absurd hi List.not_mem_nil, fun _ => hold⟩

/-- For size `0` the `NUL` of the copy alone is outside. -/
theorem not_respects_flopstrcopy_zero : ¬ Respects 0 t (flopstrcopy 0 src 0 (.fresh a)) := fun h =>
  absurd (h.writes 0 (mem_touched_copyTerminated.2 (.inr ⟨0, Nat.zero_le _, rfl⟩))) (Nat.lt_irrefl 0)

/-- **The copies keep to their size exactly when it is positive.**  Both strings are in one
address space. -/
theorem boundedCopies_iff {cat : ℕ → UInt8} (hsize : size < 2 ^ 32) (hold : HoldsAt cat 0 old)
    (hfits : old.length + src.length < 2 ^ 32) : BoundedCopies src old a cat size ↔ 0 < size := by
  constructor
  · intro h
    refine Nat.pos_of_ne_zero ?_
    rintro rfl
    exact not_respects_flopstrcopy_zero h.copy
  · intro hpos
    exact {
      copy := flopstrcopy_respects hpos hsize
      lcpy := by
        rw [flopstrlcpy_of_pos hpos]
        exact flopstrcopy_respects hpos hsize
      lcpy_length := rfl
      lcat := flopstrlcat_respects hpos hsize hold hfits }

/-- The string `"a"` in an array. -/
def arrayA (i : ℕ) : UInt8 := if i = 0 then 97 else 0

theorem holdsAt_arrayA : HoldsAt arrayA 0 (ascii "a") := by decide

theorem boundedCopies_three : BoundedCopies (ascii "bc") (ascii "a") arrayA arrayA 3 :=
  (boundedCopies_iff (by decide) holdsAt_arrayA (by decide)).2 (by decide)

/-- With size `0`, the whole of `"bc"` is copied to an array that has no place. -/
theorem not_boundedCopies_zero : ¬ BoundedCopies (ascii "bc") (ascii "a") arrayA arrayA 0 := by
  intro h
  have hwritten : 1 ∈ (flopstrlcpy (ascii "bc") 0 (.fresh arrayA)).2.touched := by decide +kernel
  exact absurd (h.lcpy.writes 1 hwritten) (by decide)

end Flopperating
