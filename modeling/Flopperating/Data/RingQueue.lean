/-
# Queues in a ring

A queue in an array of `cap` places: two counters say how much has been taken out and put in,
the places are the counters modulo `cap`, and the counters themselves wrap at `m`, which `cap`
divides.  One place stays free, so the counters differ when there is something in the queue
(`RingQueue.eq_iff`) and their places tell when it is full (`RingQueue.full_iff`).
-/

import Mathlib.Data.List.Basic
import Mathlib.Logic.Function.Basic

/-- The queue `q` is in the array, between the counters `r` and `w`. -/
structure RingQueue {α : Type*} (cap m : ℕ) (data : ℕ → α) (r w : ℕ) (q : List α) : Prop where
  lt : r < m
  count : w = (r + q.length) % m
  short : q.length < cap
  data : ∀ j x, q[j]? = some x → data ((r + j) % cap) = x

namespace RingQueue

variable {α : Type*} {cap m r w : ℕ} {data : ℕ → α} {q : List α} {x : α}

theorem nil (hr : r < m) (hcap : 0 < cap) : RingQueue cap m data r r [] where
  lt := hr
  count := by rw [List.length_nil, Nat.add_zero, Nat.mod_eq_of_lt hr]
  short := hcap
  data j x hx := absurd hx (by simp)

/-- The place of the counter that wraps. -/
theorem place (h : RingQueue cap m data r w q) (hdvd : cap ∣ m) : w % cap = (r + q.length) % cap := by
  rw [h.count, Nat.mod_mod_of_dvd _ hdvd]

/-- Two places that are less than `cap` apart are different. -/
theorem place_ne {i j : ℕ} (hij : i < j) (hj : j < cap) : (r + i) % cap ≠ (r + j) % cap := fun he => by
  have hdvd : cap ∣ (r + j) - (r + i) := Nat.dvd_of_mod_eq_zero (Nat.sub_mod_eq_zero_of_mod_eq he.symm)
  have hzero := Nat.eq_zero_of_dvd_of_lt hdvd (by omega)
  omega

/-- The counters are equal when the queue is empty. -/
theorem eq_iff (h : RingQueue cap m data r w q) (hle : cap ≤ m) : r = w ↔ q = [] := by
  constructor
  · intro he
    rcases q with - | ⟨x, q⟩
    · rfl
    · refine absurd ?_ (place_ne (r := r) (Nat.succ_pos q.length) (Nat.lt_of_lt_of_le h.short hle))
      rw [Nat.add_zero, Nat.mod_eq_of_lt h.lt, he]
      exact he ▸ h.count
  · rintro rfl
    rw [h.count, List.length_nil, Nat.add_zero, Nat.mod_eq_of_lt h.lt]

/-- The place behind the last is the first one when the queue is full. -/
theorem full_iff (h : RingQueue cap m data r w q) (hdvd : cap ∣ m) : (w % cap + 1) % cap = r % cap ↔ q.length + 1 = cap := by
  rw [h.place hdvd, Nat.mod_add_mod, Nat.add_assoc]
  constructor
  · intro he
    by_contra hne
    have hlt : q.length + 1 < cap := Nat.lt_of_le_of_ne h.short hne
    exact place_ne (r := r) (Nat.succ_pos q.length) hlt he.symm
  · intro he
    rw [he, Nat.add_mod_right]

/-- **Putting in** behind the last, when there is room. -/
theorem put (h : RingQueue cap m data r w q) (hdvd : cap ∣ m) (hroom : q.length + 1 < cap) (x : α) :
    RingQueue cap m (Function.update data (w % cap) x) r ((w + 1) % m) (q ++ [x]) where
  lt := h.lt
  count := by rw [h.count, Nat.mod_add_mod, List.length_append, List.length_singleton, Nat.add_assoc]
  short := by rwa [List.length_append, List.length_singleton]
  data j y hy := by
    rw [h.place hdvd]
    rcases Nat.lt_or_ge j q.length with hlt | hge
    · rw [List.getElem?_append_left hlt] at hy
      rw [Function.update_of_ne (place_ne hlt h.short), h.data j y hy]
    · rw [List.getElem?_append_right hge] at hy
      obtain ⟨hlt, hget⟩ := List.getElem?_eq_some_iff.1 hy
      rw [List.length_singleton] at hlt
      have hj : j = q.length := by omega
      rw [hj, Function.update_self, ← hget]
      simp

/-- **Taking out** the first. -/
theorem take (h : RingQueue cap m data r w (x :: q)) (hdvd : cap ∣ m) :
    data (r % cap) = x ∧ RingQueue cap m data ((r + 1) % m) w q := by
  have hpos : 0 < m := Nat.lt_of_le_of_lt (Nat.zero_le r) h.lt
  refine ⟨h.data 0 x rfl, Nat.mod_lt _ hpos, ?_, Nat.lt_of_succ_lt h.short, fun j y hy => ?_⟩
  · rw [h.count, Nat.mod_add_mod, List.length_cons, Nat.add_assoc, Nat.add_comm 1]
  · have hnext := h.data (j + 1) y (by rw [List.getElem?_cons_succ, hy])
    rw [← hnext, Nat.add_mod, Nat.mod_mod_of_dvd _ hdvd, ← Nat.add_mod, Nat.add_assoc, Nat.add_comm 1]

end RingQueue
