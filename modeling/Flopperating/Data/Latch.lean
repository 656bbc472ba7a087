/-
# Latches

A flag that some inputs set and others clear.  It is on exactly if an input that sets it has been seen
and none that clears it since.
-/

import Mathlib.Data.List.Basic
import Mathlib.Data.List.Induction

namespace Latch

variable {α σ : Type*} {on off : List α} {a : α} {l : List α}

/-- An input of `on` has been seen, and none of `off` since. -/
def Held (on off l : List α) : Prop := ∃ before c after, l = before ++ c :: after ∧ c ∈ on ∧ ∀ d ∈ after, d ∉ off

theorem not_held_nil : ¬ Held on off ([] : List α) := by
  rintro ⟨before, c, after, heq, -⟩
  exact List.append_ne_nil_of_right_ne_nil before (List.cons_ne_nil c after) heq.symm

/-- The last input decides, or leaves it to those in front of it. -/
theorem held_concat : Held on off (l ++ [a]) ↔ a ∈ on ∨ a ∉ off ∧ Held on off l := by
  constructor
  · rintro ⟨before, c, after, heq, hc, hafter⟩
    obtain rfl | ⟨after, d, rfl⟩ := after.eq_nil_or_concat'
    · obtain ⟨-, hac⟩ := List.append_inj' heq rfl
      exact .inl (List.singleton_inj.1 hac ▸ hc)
    · rw [← List.cons_append, ← List.append_assoc] at heq
      obtain ⟨rfl, had⟩ := List.append_inj' heq rfl
      obtain rfl := List.singleton_inj.1 had
      exact .inr ⟨hafter a List.mem_concat_self, before, c, after, rfl, hc, fun e he =>
        hafter e (List.mem_append_left _ he)⟩
  · rintro (ha | ⟨ha, before, c, after, rfl, hc, hafter⟩)
    · exact ⟨l, a, [], rfl, ha, fun _ hd => absurd hd List.not_mem_nil⟩
    · refine ⟨before, c, after ++ [a], by rw [List.append_assoc, List.cons_append], hc, fun d hd => ?_⟩
      obtain hd | hd := List.mem_append.1 hd
      · exact hafter d hd
      · rwa [List.mem_singleton.1 hd]

/-- **A flag that every input sets, clears or keeps is a latch.** -/
theorem latch_run [DecidableEq α] {step : σ → α → σ} {flag : σ → Bool} {s : σ} (hstart : flag s = false)
    (hstep : ∀ s a, flag (step s a) = if a ∈ on then true else if a ∈ off then false else flag s) (l : List α) :
    flag (l.foldl step s) = true ↔ Held on off l := by
  induction l using List.reverseRecOn with
  | nil => exact iff_of_false (by rw [List.foldl_nil, hstart]; exact Bool.false_ne_true) not_held_nil
  | append_singleton l a ih =>
    rw [List.foldl_append, List.foldl_cons, List.foldl_nil, hstep, held_concat, ← ih]
    split_ifs with hon hoff
    · exact iff_of_true rfl (.inl hon)
    · exact iff_of_false id fun h => h.elim hon fun h => h.1 hoff
    · exact ⟨fun h => .inr ⟨hoff, h⟩, fun h => h.elim (absurd · hon) And.right⟩

end Latch
