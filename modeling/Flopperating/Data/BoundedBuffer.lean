/-
# Arrays filled from their start

An array of `cap` elements that is written from its start on, one element behind
the other, is the list of what has been written.  Writing past the end is a
fault `e`.  `push` writes one element, `pushAll` writes what it is given, and
`pushWhile` stops where `stop` elements have been written.
-/

import Mathlib.Data.List.Basic

namespace BoundedBuffer

universe u v

variable {α β : Type u} {ε : Type v}

/-- Write one element. -/
def push (cap : ℕ) (e : ε) (a : List α) (x : α) : Except ε (List α) :=
  if a.length < cap then .ok (a ++ [x]) else .error e

/-- Write every element. -/
def pushAll (cap : ℕ) (e : ε) (a xs : List α) : Except ε (List α) := xs.foldlM (push cap e) a

/-- Write elements as long as fewer than `stop` have been written. -/
def pushWhile (cap stop : ℕ) (e : ε) : List α → List α → Except ε (List α)
  | a, [] => .ok a
  | a, x :: xs => if a.length < stop then (push cap e a x).bind fun a => pushWhile cap stop e a xs else .ok a

variable {cap stop : ℕ} {e : ε} {a xs ys : List α} {x : α}

theorem ok_bind {y : α} {f : α → Except ε β} : (Except.ok y >>= f) = f y := rfl

theorem error_bind {f : α → Except ε β} : ((Except.error e : Except ε α) >>= f) = .error e := rfl

theorem push_of_lt (h : a.length < cap) : push cap e a x = .ok (a ++ [x]) := if_pos h

theorem push_of_le (h : cap ≤ a.length) : push cap e a x = .error e := if_neg (Nat.not_lt.2 h)

theorem pushAll_of_le (h : a.length + xs.length ≤ cap) : pushAll cap e a xs = .ok (a ++ xs) := by
  induction xs generalizing a with
  | nil => exact congrArg Except.ok (List.append_nil a).symm
  | cons x xs ih =>
    rw [List.length_cons] at h
    rw [pushAll, List.foldlM_cons, push_of_lt (by omega)]
    refine (ih (a := a ++ [x]) (by rw [List.length_append, List.length_singleton]; omega)).trans ?_
    rw [List.append_assoc, List.singleton_append]

theorem pushAll_of_lt (ha : a.length ≤ cap) (h : cap < a.length + xs.length) :
    pushAll cap e a xs = .error e := by
  induction xs generalizing a with
  | nil => exact absurd h (by simpa using ha)
  | cons x xs ih =>
    rw [List.length_cons] at h
    rw [pushAll, List.foldlM_cons]
    rcases Nat.lt_or_ge a.length cap with hlt | hge
    · rw [push_of_lt hlt]
      exact ih (a := a ++ [x]) (by rw [List.length_append, List.length_singleton]; omega)
        (by rw [List.length_append, List.length_singleton]; omega)
    · rw [push_of_le hge]
      rfl

theorem pushAll_bind_push : (pushAll cap e a xs >>= fun a => push cap e a x) = pushAll cap e a (xs ++ [x]) := by
  rw [pushAll, pushAll, List.foldlM_append]
  refine congrArg (List.foldlM (push cap e) a xs >>= ·) (funext fun b => ?_)
  rw [List.foldlM_cons]
  exact (bind_pure (push cap e b x)).symm

/-- **What fits below `stop` is written.** -/
theorem pushWhile_eq (hstop : stop ≤ cap) (ha : a.length ≤ stop) :
    pushWhile cap stop e a xs = .ok (a ++ xs.take (stop - a.length)) := by
  induction xs generalizing a with
  | nil => rw [pushWhile, List.take_nil, List.append_nil]
  | cons x xs ih =>
    rw [pushWhile]
    split_ifs with hlt
    · have hlen : (a ++ [x]).length = a.length + 1 := by rw [List.length_append, List.length_singleton]
      obtain ⟨m, hm⟩ : ∃ m, stop - a.length = m + 1 := ⟨stop - a.length - 1, by omega⟩
      rw [push_of_lt (by omega)]
      refine (ih (a := a ++ [x]) (by omega)).trans ?_
      rw [hlen, hm, List.take_succ_cons, show stop - (a.length + 1) = m by omega, List.append_assoc,
        List.singleton_append]
    · rw [show stop - a.length = 0 by omega, List.take_zero, List.append_nil]

theorem pushWhile_of_le (h : stop ≤ a.length) : pushWhile cap stop e a xs = .ok a := by
  cases xs with
  | nil => rfl
  | cons x xs => exact if_neg (Nat.not_lt.2 h)

/-- Without a stop in the way everything is written. -/
theorem pushWhile_eq_pushAll (h : a.length + xs.length ≤ stop) : pushWhile cap stop e a xs = pushAll cap e a xs := by
  induction xs generalizing a with
  | nil => rfl
  | cons x xs ih =>
    rw [List.length_cons] at h
    rw [pushWhile, if_pos (by omega), pushAll, List.foldlM_cons]
    cases hpush : push cap e a x with
    | error e => rfl
    | ok b =>
      have hlength : b.length = a.length + 1 := by
        rw [push] at hpush
        split_ifs at hpush
        rw [← Except.ok.inj hpush, List.length_append, List.length_singleton]
      exact ih (by omega)

theorem pushWhile_singleton (h : a.length < stop) : pushWhile cap stop e a [x] = push cap e a x := by
  rw [pushWhile, if_pos h]
  cases push cap e a x <;> rfl

/-- **Two loops, one behind the other, are one loop.** -/
theorem pushWhile_bind :
    (pushWhile cap stop e a xs >>= fun a => pushWhile cap stop e a ys) = pushWhile cap stop e a (xs ++ ys) := by
  induction xs generalizing a with
  | nil => rfl
  | cons x xs ih =>
    rw [List.cons_append, pushWhile, pushWhile]
    split_ifs with hlt
    · cases hpush : push cap e a x with
      | error e => rfl
      | ok b => exact ih
    · exact pushWhile_of_le (Nat.not_lt.1 hlt)

end BoundedBuffer
