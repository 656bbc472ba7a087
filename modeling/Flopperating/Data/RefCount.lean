/-
# Counted references

Holders `i` of a type `ι` refer to objects `a` of a type `α`, holder `i` to object `a`
`refs i a` times.  Among the holders of a list, `total l refs a` is how often `a` is referred
to: what a reference count should be.

* One holder changes (`total_change`): what it refers to now comes in for what it referred to
  before.
* A holder comes to the list (`total_cons`).
* A holder that refers to an object makes the total more than zero (`le_total`).
-/

import Mathlib.Algebra.Order.BigOperators.Group.List
import Mathlib.Algebra.Order.Ring.Nat
import Mathlib.Data.List.Nodup

namespace RefCount

variable {ι α : Type*} {l : List ι} {refs refs' : ι → α → ℕ} {i j : ι} {a : α}

/-- How often the holders of a list refer to an object. -/
def total (l : List ι) (refs : ι → α → ℕ) (a : α) : ℕ := (l.map fun i => refs i a).sum

@[simp] theorem total_nil (refs : ι → α → ℕ) (a : α) : total [] refs a = 0 := rfl

theorem total_cons (i : ι) (l : List ι) (refs : ι → α → ℕ) (a : α) :
    total (i :: l) refs a = refs i a + total l refs a := List.sum_cons

theorem total_congr (h : ∀ j ∈ l, refs' j a = refs j a) : total l refs' a = total l refs a :=
  congrArg List.sum (List.map_congr_left h)

/-- A holder of the list accounts for no more than all. -/
theorem le_total (refs : ι → α → ℕ) (a : α) (hi : i ∈ l) : refs i a ≤ total l refs a :=
  List.le_sum_of_mem (List.mem_map_of_mem hi)

/-- **One holder changes** what it refers to. -/
theorem total_change (refs refs' : ι → α → ℕ) (a : α) (hl : l.Nodup) (hi : i ∈ l) (hother : ∀ j ∈ l, j ≠ i → refs' j a = refs j a) :
    total l refs' a + refs i a = total l refs a + refs' i a := by
  induction l with
  | nil => exact absurd hi List.not_mem_nil
  | cons k l ih =>
    obtain ⟨hk, hl⟩ := List.nodup_cons.1 hl
    rw [total_cons, total_cons]
    rcases List.mem_cons.1 hi with rfl | hin
    · have hsame : total l refs' a = total l refs a := total_congr fun j hj =>
        hother j (List.mem_cons_of_mem _ hj) (ne_of_mem_of_not_mem hj hk)
      omega
    · have hki : k ≠ i := (ne_of_mem_of_not_mem hin hk).symm
      have hsame := hother k List.mem_cons_self hki
      have := ih hl hin fun j hj => hother j (List.mem_cons_of_mem _ hj)
      omega

/-- Holders that refer to an object once or not at all are counted. -/
theorem total_ite (l : List ι) (p : ι → α → Prop) [∀ i a, Decidable (p i a)] (a : α) :
    total l (fun i a => if p i a then 1 else 0) a = l.countP fun i => p i a := by
  induction l with
  | nil => rfl
  | cons i l ih =>
    rw [total_cons, ih, List.countP_cons, Nat.add_comm]
    simp only [decide_eq_true_eq]

end RefCount
