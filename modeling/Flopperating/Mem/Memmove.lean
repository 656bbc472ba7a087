/-
# Moving bytes

`flop_memcpy` and `flop_memmove` of `src/mem/utils.c`.  Both copy with `rep movsb`, whose operands
are the variables that are bound to its registers: the instruction leaves them behind the last byte.

`flop_memmove` takes the direction in which no byte is overwritten before it has been copied, so
all bytes arrive (`flopMemmove_copied`).  What it returns is `dest` when it copies downwards, where
the operands are variables of their own; upwards it returns what `flop_memcpy` returns, and that is
the operand (`flopMemmove_moves_iff`).
-/

import Flopperating.Data.ByteMemory
import Flopperating.Machine

namespace Flopperating

open ByteMemory

/-- `rep movsb`, where `move` is what a byte does to both pointers: `edi`, `esi` and the memory. -/
def repMovsb (move : ℕ → ℕ) : ℕ → ℕ → ℕ → Memory → ℕ × ℕ × Memory
  | 0, edi, esi, mem => (edi, esi, mem)
  | ecx + 1, edi, esi, mem => repMovsb move ecx (move edi) (move esi) (Function.update mem edi (mem esi))

/-- What a byte does after `cld`. -/
def upwards (a : ℕ) : ℕ := u32 (a + 1)

/-- What a byte does after `std`. -/
def downwards (a : ℕ) : ℕ := u32 (a + (2 ^ 32 - 1))

/-- `flop_memcpy`: the pointer that is returned, and the memory. -/
def flopMemcpy (dest src n : ℕ) (mem : Memory) : ℕ × Memory :=
  if dest = 0 ∨ src = 0 then (0, mem)
  else ((repMovsb upwards n dest src mem).1, (repMovsb upwards n dest src mem).2.2)

/-- `flop_memmove`. -/
def flopMemmove (dest src n : ℕ) (mem : Memory) : ℕ × Memory :=
  if dest = 0 ∨ src = 0 then (0, mem)
  else if dest < src then flopMemcpy dest src n mem
  else (dest, (repMovsb downwards n (u32 (dest + n + (2 ^ 32 - 1))) (u32 (src + n + (2 ^ 32 - 1))) mem).2.2)

/-- The bytes from `src` on are at `dest`, and nothing else has changed. -/
structure BytesCopied (dest src n : ℕ) (mem mem' : Memory) : Prop where
  bytes : ∀ i < n, mem' (dest + i) = mem (src + i)
  frame : ∀ x, ¬ (dest ≤ x ∧ x < dest + n) → mem' x = mem x

/-- What is expected of a move. -/
structure BytesMoved (dest src n : ℕ) (mem : Memory) (out : ℕ × Memory) : Prop where
  copied : BytesCopied dest src n mem out.2
  returned : out.1 = dest

namespace BytesCopied

variable {mem mem' : Memory} {dest src n : ℕ}

theorem zero : BytesCopied dest src 0 mem mem where
  bytes i hi := absurd hi (Nat.not_lt_zero i)
  frame _ _ := rfl

/-- The first byte, which is not behind the ones that are still to be copied. -/
theorem cons (hlt : dest < src) (h : BytesCopied (dest + 1) (src + 1) n (Function.update mem dest (mem src)) mem') :
    BytesCopied dest src (n + 1) mem mem' where
  bytes i hi := by
    cases i with
    | zero => exact (h.frame dest (by omega)).trans (Function.update_self ..)
    | succ i =>
      have hbyte := h.bytes i (Nat.lt_of_succ_lt_succ hi)
      rw [Nat.add_right_comm, Nat.add_right_comm src, Function.update_of_ne (by omega)] at hbyte
      exact hbyte
  frame x hx := by
    rw [h.frame x (by omega), Function.update_of_ne (by omega)]

/-- The last byte, which is not before the ones that are still to be copied. -/
theorem snoc (hle : src ≤ dest) (h : BytesCopied dest src n (Function.update mem (dest + n) (mem (src + n))) mem') :
    BytesCopied dest src (n + 1) mem mem' where
  bytes i hi := by
    rcases Nat.lt_or_eq_of_le (Nat.le_of_lt_succ hi) with hlt | rfl
    · rw [h.bytes i hlt, Function.update_of_ne (by omega)]
    · exact (h.frame (dest + i) (by omega)).trans (Function.update_self ..)
  frame x hx := by
    rw [h.frame x (by omega), Function.update_of_ne (by omega)]

end BytesCopied

variable {mem : Memory} {dest src n : ℕ}

theorem upwards_of_lt (h : dest + 1 < 2 ^ 32) : upwards dest = dest + 1 := u32_of_lt h

/-- Upwards, nothing is overwritten that is still to be read when the destination is below. -/
theorem repMovsb_upwards (hlt : dest < src) (hsrc : src + n ≤ 2 ^ 32) :
    BytesCopied dest src n mem (repMovsb upwards n dest src mem).2.2 := by
  induction n generalizing dest src mem with
  | zero => exact .zero
  | succ n ih =>
    refine BytesCopied.cons hlt ?_
    rw [repMovsb]
    rcases Nat.eq_zero_or_pos n with rfl | hpos
    · exact .zero
    · rw [upwards_of_lt (by omega), upwards_of_lt (by omega)]
      exact ih (by omega) (by omega)

/-- Downwards, when the destination is not below. -/
theorem repMovsb_downwards (hle : src ≤ dest) (hdest : dest + n ≤ 2 ^ 32) :
    BytesCopied dest src n mem
      (repMovsb downwards n (u32 (dest + n + (2 ^ 32 - 1))) (u32 (src + n + (2 ^ 32 - 1))) mem).2.2 := by
  induction n generalizing mem with
  | zero => exact .zero
  | succ n ih =>
    have hd : u32 (dest + (n + 1) + (2 ^ 32 - 1)) = dest + n := by
      unfold u32
      omega
    have hs : u32 (src + (n + 1) + (2 ^ 32 - 1)) = src + n := by
      unfold u32
      omega
    rw [hd, hs, repMovsb]
    exact BytesCopied.snoc hle (ih (by omega))

/-- `rep movsb` leaves `edi` behind what it has copied. -/
theorem repMovsb_edi (hdest : dest < 2 ^ 32) : (repMovsb upwards n dest src mem).1 = u32 (dest + n) := by
  induction n generalizing dest src mem with
  | zero => exact (u32_of_lt hdest).symm
  | succ n ih =>
    rw [repMovsb, upwards, ih (u32_lt _)]
    unfold u32
    omega

theorem flopMemcpy_eq (hdest : 0 < dest) (hsrc : 0 < src) :
    flopMemcpy dest src n mem = ((repMovsb upwards n dest src mem).1, (repMovsb upwards n dest src mem).2.2) :=
  if_neg (by omega)

theorem flopMemmove_of_lt (hdest : 0 < dest) (hlt : dest < src) :
    flopMemmove dest src n mem = flopMemcpy dest src n mem := by
  rw [flopMemmove, if_neg (by omega), if_pos hlt]

theorem flopMemmove_of_le (hsrc : 0 < src) (hle : src ≤ dest) : flopMemmove dest src n mem =
    (dest, (repMovsb downwards n (u32 (dest + n + (2 ^ 32 - 1))) (u32 (src + n + (2 ^ 32 - 1))) mem).2.2) := by
  rw [flopMemmove, if_neg (by omega), if_neg (Nat.not_lt.2 hle)]

/-- **All bytes arrive, however the two places overlap.** -/
theorem flopMemmove_copied (hdest : 0 < dest) (hsrc : 0 < src) (hd : dest + n ≤ 2 ^ 32) (hs : src + n ≤ 2 ^ 32) :
    BytesCopied dest src n mem (flopMemmove dest src n mem).2 := by
  rcases Nat.lt_or_ge dest src with hlt | hle
  · rw [flopMemmove_of_lt hdest hlt, flopMemcpy_eq hdest hsrc]
    exact repMovsb_upwards hlt hs
  · rw [flopMemmove_of_le hsrc hle]
    exact repMovsb_downwards hle hd

/-- **The pointer that is returned is `dest` exactly where nothing was copied upwards.** -/
theorem flopMemmove_moves_iff (hdest : 0 < dest) (hsrc : 0 < src) (hd : dest + n ≤ 2 ^ 32) (hs : src + n ≤ 2 ^ 32) :
    BytesMoved dest src n mem (flopMemmove dest src n mem) ↔ n = 0 ∨ src ≤ dest := by
  have hcopied : BytesCopied dest src n mem (flopMemmove dest src n mem).2 := flopMemmove_copied hdest hsrc hd hs
  refine ⟨fun h => ?_, fun h => ⟨hcopied, ?_⟩⟩
  · by_contra hup
    have hreturned := h.returned
    rw [flopMemmove_of_lt hdest (by omega), flopMemcpy_eq hdest hsrc] at hreturned
    have hedi := (repMovsb_edi (by omega)).symm.trans hreturned
    unfold u32 at hedi
    omega
  · rcases Nat.lt_or_ge dest src with hlt | hle
    · obtain rfl : n = 0 := by omega
      rw [flopMemmove_of_lt hdest hlt, flopMemcpy_eq hdest hsrc]
      rfl
    · rw [flopMemmove_of_le hsrc hle]

theorem flopMemmove_moves_overlapping :
    BytesMoved 0x1002 0x1000 4 (fun a => a) (flopMemmove 0x1002 0x1000 4 fun a => a) :=
  (flopMemmove_moves_iff (by decide) (by decide) (by decide) (by decide)).2 (by decide)

/-- Moving four bytes down by two returns the end of the destination. -/
theorem not_flopMemmove_moves : ¬ BytesMoved 0x1000 0x1002 4 (fun a => a) (flopMemmove 0x1000 0x1002 4 fun a => a) :=
  fun h => absurd h.returned (by decide +kernel)

end Flopperating
