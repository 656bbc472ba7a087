/-
# Files as arrays with a cursor

What a file with a read and write position is for: a value at every position, a size, and a
cursor.  A read takes what there is from the cursor on, a write overwrites it, and both move
the cursor.  A transfer in pieces is a transfer (`slice_add`, `overwrite_append`).
-/

import Mathlib.Data.List.Range

/-- A file: the positions from `size` on have not been written. -/
structure ByteFile (α : Type*) where
  size : ℕ
  cursor : ℕ
  byte : ℕ → α

namespace ByteFile

variable {α : Type*} {a i m n : ℕ} {b b' : ℕ → α} {xs ys : List α}

/-! ### Pieces of an array -/

/-- The `n` values from position `a` on. -/
def slice (b : ℕ → α) (a n : ℕ) : List α := (List.range n).map fun j => b (a + j)

/-- The values `xs` have been put at the positions from `a` on. -/
def overwrite (b : ℕ → α) (a : ℕ) (xs : List α) : ℕ → α := fun i =>
  if a ≤ i then (xs[i - a]?).getD (b i) else b i

@[simp] theorem length_slice : (slice b a n).length = n := by rw [slice, List.length_map, List.length_range]

@[simp] theorem slice_zero : slice b a 0 = [] := rfl

theorem slice_add : slice b a (m + n) = slice b a m ++ slice b (a + m) n := by
  rw [slice, List.range_add, List.map_append, List.map_map]
  refine congrArg (slice b a m ++ ·) (List.map_congr_left fun j _ => ?_)
  rw [Function.comp_apply, Nat.add_assoc]

theorem slice_congr {c : ℕ} (h : ∀ j < n, b' (c + j) = b (a + j)) : slice b' c n = slice b a n :=
  List.map_congr_left fun j hj => h j (List.mem_range.1 hj)

@[simp] theorem overwrite_nil : overwrite b a [] = b := by
  funext i
  rw [overwrite, List.getElem?_nil, Option.getD_none, ite_self]

theorem overwrite_of_lt (h : i < a) : overwrite b a xs i = b i := if_neg (Nat.not_le.2 h)

theorem overwrite_of_le (h : a + xs.length ≤ i) : overwrite b a xs i = b i := by
  rw [overwrite, List.getElem?_eq_none (by omega), Option.getD_none, ite_self]

theorem overwrite_of_mem (hi : i < xs.length) : overwrite b a xs (a + i) = xs[i] := by
  rw [overwrite, if_pos (Nat.le_add_right a i), Nat.add_sub_cancel_left, List.getElem?_eq_getElem hi, Option.getD_some]

/-- What has been put there is there. -/
theorem slice_overwrite : slice (overwrite b a xs) a xs.length = xs := by
  refine List.ext_getElem length_slice fun j hj hlt => ?_
  simp only [slice, List.getElem_map, List.getElem_range]
  exact overwrite_of_mem hlt

theorem overwrite_append : overwrite b a (xs ++ ys) = overwrite (overwrite b a xs) (a + xs.length) ys := by
  funext i
  rcases Nat.lt_or_ge i (a + xs.length) with hlt | hge
  · rw [overwrite_of_lt hlt, overwrite, overwrite]
    split
    · rw [List.getElem?_append_left (by omega)]
    · rfl
  · rw [overwrite, overwrite, if_pos (by omega), if_pos hge, overwrite_of_le hge,
      List.getElem?_append_right (by omega), Nat.sub_add_eq]

/-! ### Operations -/

/-- A file that has never been written. -/
def empty [Zero α] : ByteFile α := ⟨0, 0, fun _ => 0⟩

/-- At most `n` values from the cursor on, which passes them. -/
def read (n : ℕ) (f : ByteFile α) : List α × ByteFile α :=
  (slice f.byte f.cursor (min n (f.size - f.cursor)), { f with cursor := f.cursor + min n (f.size - f.cursor) })

/-- The values are written at the cursor, which passes them. -/
def write (xs : List α) (f : ByteFile α) : ByteFile α where
  size := max f.size (f.cursor + xs.length)
  cursor := f.cursor + xs.length
  byte := overwrite f.byte f.cursor xs

/-- Up to `n` values go from one file to another; nothing is written when there are none. -/
def copy (n : ℕ) (f g : ByteFile α) : ByteFile α × ByteFile α :=
  ((f.read n).2, if (f.read n).1 = [] then g else g.write (f.read n).1)

/-- The cursor is put at `n`. -/
def seek (n : ℕ) (f : ByteFile α) : ByteFile α := { f with cursor := n }

/-- The size is `n`: what is cut off is gone, and what is added is zero. -/
def truncate [Zero α] (n : ℕ) (f : ByteFile α) : ByteFile α :=
  { f with size := n, byte := fun i => if i < min f.size n then f.byte i else 0 }

/-! ### Copies in pieces -/

section Copy

variable {f g : ByteFile α}

theorem length_read : (f.read n).1.length = min n (f.size - f.cursor) := length_slice

theorem read_eq_nil : (f.read n).1 = [] ↔ min n (f.size - f.cursor) = 0 := by rw [← List.length_eq_zero_iff, length_read]

/-- What is there is read in two pieces. -/
theorem read_add (hm : m ≤ f.size - f.cursor) :
    f.read (m + n) = ((f.read m).1 ++ ((f.read m).2.read n).1, ((f.read m).2.read n).2) := by
  have hsplit : min (m + n) (f.size - f.cursor) = m + min n (f.size - (f.cursor + m)) := by omega
  rw [ByteFile.read, ByteFile.read, ByteFile.read, hsplit, min_eq_left hm, slice_add, Nat.add_assoc]

theorem write_append : g.write (xs ++ ys) = (g.write xs).write ys := by
  have hmax : max g.size (g.cursor + (xs ++ ys).length) =
      max (max g.size (g.cursor + xs.length)) (g.cursor + xs.length + ys.length) := by
    rw [List.length_append]
    omega
  rw [ByteFile.write, ByteFile.write, ByteFile.write, hmax, overwrite_append, List.length_append, Nat.add_assoc]

theorem copy_of_nil (h : min n (f.size - f.cursor) = 0) : copy n f g = (f, g) := by
  have hsame : (f.read n).2 = f := by
    rw [ByteFile.read, h]
    rfl
  rw [copy, if_pos (read_eq_nil.2 h), hsame]

/-- Past the end there is nothing more to copy. -/
theorem copy_of_le (h : f.size - f.cursor ≤ m) (hmn : m ≤ n) : copy n f g = copy m f g := by
  have hread : f.read n = f.read m := by
    rw [ByteFile.read, ByteFile.read, min_eq_right h, min_eq_right (h.trans hmn)]
  rw [copy, copy, hread]

/-- **A copy in pieces is a copy.** -/
theorem copy_add (hm : m ≤ f.size - f.cursor) : copy (m + n) f g = copy n (copy m f g).1 (copy m f g).2 := by
  rw [copy, copy, copy, read_add hm]
  refine Prod.ext rfl ?_
  dsimp only
  by_cases hfirst : (f.read m).1 = []
  · rw [if_pos hfirst, hfirst, List.nil_append]
  · rw [if_neg hfirst, if_neg fun hnil => hfirst (List.append_eq_nil_iff.1 hnil).1, write_append]
    split
    · next hsecond =>
      rw [hsecond]
      have hmore : (g.write (f.read m).1).write [] = g.write (f.read m).1 := by rw [← write_append, List.append_nil]
      exact hmore
    · rfl

end Copy

/-- The same size, cursor and values, where `f` is zero from its size on. -/
structure Agrees [Zero α] (g f : ByteFile α) : Prop where
  size : g.size = f.size
  cursor : g.cursor = f.cursor
  byte : ∀ i < f.size, g.byte i = f.byte i
  zero : ∀ i, f.size ≤ i → f.byte i = 0

section Agrees

variable [Zero α] {f g : ByteFile α}

theorem Agrees.refl (h : ∀ i, f.size ≤ i → f.byte i = 0) : Agrees f f := ⟨rfl, rfl, fun _ _ => rfl, h⟩

theorem Agrees.seek (h : Agrees g f) (n : ℕ) : Agrees (g.seek n) (f.seek n) := ⟨h.size, rfl, h.byte, h.zero⟩

theorem Agrees.read (h : Agrees g f) (n : ℕ) : (g.read n).1 = (f.read n).1 ∧ Agrees (g.read n).2 (f.read n).2 := by
  constructor
  · rw [ByteFile.read, ByteFile.read, h.size, h.cursor]
    exact slice_congr fun j hj => h.byte _ (by omega)
  · refine ⟨h.size, ?_, h.byte, h.zero⟩
    rw [ByteFile.read, ByteFile.read, h.size, h.cursor]

/-- A write keeps them alike when there is nothing between the size and the cursor. -/
theorem Agrees.write (h : Agrees g f) (hgap : ∀ i, f.size ≤ i → i < f.cursor → g.byte i = 0) :
    Agrees (g.write xs) (f.write xs) := by
  refine ⟨?_, ?_, fun i hi => ?_, fun i hi => ?_⟩
  · rw [ByteFile.write, ByteFile.write, h.size, h.cursor]
  · rw [ByteFile.write, ByteFile.write, h.cursor]
  · have hi : i < max f.size (f.cursor + xs.length) := hi
    change overwrite g.byte g.cursor xs i = overwrite f.byte f.cursor xs i
    rw [h.cursor]
    rcases Nat.lt_or_ge i f.size with hlt | hge
    · rw [overwrite, overwrite, h.byte i hlt]
    · rcases Nat.lt_or_ge i f.cursor with hbelow | habove
      · rw [overwrite_of_lt hbelow, overwrite_of_lt hbelow, hgap i hge hbelow, h.zero i hge]
      · rw [overwrite, overwrite, if_pos habove, if_pos habove, List.getElem?_eq_getElem (by omega)]
        rfl
  · have hi : max f.size (f.cursor + xs.length) ≤ i := hi
    change overwrite f.byte f.cursor xs i = 0
    rw [overwrite_of_le (by omega), h.zero i (by omega)]

/-- Values that are kept beyond the size do not matter while they are zero where the size
grows. -/
theorem Agrees.truncate (h : Agrees g f) {b : ℕ → α} (hkeep : ∀ i < n, b i = g.byte i)
    (hgap : ∀ i, f.size ≤ i → i < n → g.byte i = 0) : Agrees { g with size := n, byte := b } (f.truncate n) := by
  refine ⟨rfl, h.cursor, fun i hi => ?_, fun i hi => ?_⟩
  · have hi : i < n := hi
    change b i = if i < min f.size n then f.byte i else 0
    rw [hkeep i hi]
    split
    · exact h.byte i (by omega)
    · exact hgap i (by omega) hi
  · have hi : n ≤ i := hi
    exact if_neg (by omega)

end Agrees

end ByteFile
