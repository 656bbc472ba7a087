/-
# The thread that is chosen next

`sched_select_next` of `src/task/sched.c` in full: after the boost it takes the first thread of the
ready queue that is `Foremost`, of the best class and of the highest priority among those, and
leaves the others as they were (`schedSelectNext_law`).
-/

import Flopperating.Task.SchedWaiting

namespace Flopperating

open LinkedList ThreadList

theorem SchedClass.rank_inj {c d : SchedClass} : c.rank = d.rank ↔ c = d := by cases c <;> cases d <;> decide

namespace Sched

variable {σ : Sched} {thread : ℕ → Thread} {fuel t best : ℕ} {a b l : List ℕ}

/-- No class in `l` is better than that of `t`, and no priority in its class is higher. -/
def Foremost (thread : ℕ → Thread) (l : List ℕ) (t : ℕ) : Prop :=
  ∀ x ∈ l, (thread t).cls.rank ≤ (thread x).cls.rank ∧
    ((thread x).cls = (thread t).cls → (thread x).effective ≤ (thread t).effective)

instance (thread : ℕ → Thread) (l : List ℕ) (t : ℕ) : Decidable (Foremost thread l t) :=
  inferInstanceAs (Decidable (∀ _ ∈ l, _))

theorem foremost_iff : Foremost thread l t ↔ ∀ x ∈ l, ¬ Better thread x (some t) := by
  refine forall₂_congr fun x _ => ?_
  rw [Better, ← SchedClass.rank_inj]
  omega

/-- The thread that is better than those before it, and not worse than those behind it. -/
theorem foremost_middle (hbefore : ∀ x ∈ a, Better thread best (some x))
    (hafter : ∀ x ∈ b, ¬ Better thread x (some best)) : Foremost thread (a ++ best :: b) best := by
  refine foremost_iff.2 fun x hx hbetter => ?_
  rcases List.mem_append.1 hx with hx | hx
  · have hback := hbefore x hx
    unfold Better at hbetter hback
    omega
  · rcases List.mem_cons.1 hx with rfl | hx
    · unfold Better at hbetter
      omega
    · exact hafter x hx hbetter

/-- It is the first of the foremost. -/
theorem find?_foremost (hbefore : ∀ x ∈ a, Better thread best (some x))
    (hafter : ∀ x ∈ b, ¬ Better thread x (some best)) :
    (a ++ best :: b).find? (fun t => Foremost thread (a ++ best :: b) t) = some best := by
  rw [List.find?_eq_some_iff_append]
  refine ⟨decide_eq_true (foremost_middle hbefore hafter), a, b, rfl, fun x hx => ?_⟩
  have hnot : ¬ Foremost thread (a ++ best :: b) x := fun hall =>
    foremost_iff.1 hall best (List.mem_append_right _ List.mem_cons_self) (hbefore x hx)
  rw [decide_eq_false hnot]
  rfl

/-- What is left of a list without one of its threads. -/
theorem filter_ne_middle (hnd : (a ++ best :: b).Nodup) :
    ((a ++ best :: b).filter fun t => some t ≠ some best) = a ++ b := by
  obtain ⟨hout, -⟩ := List.nodup_cons.1 (List.nodup_middle.1 hnd)
  have hkeep : ∀ t ∈ a ++ b, decide (some t ≠ some best) = true := fun t ht =>
    decide_eq_true fun heq => hout (Option.some.inj heq ▸ ht)
  rw [List.filter_append, List.filter_cons_of_neg (by simp), ← List.filter_append]
  exact List.filter_eq_self.2 hkeep

/-- The boost comes to an end on a list of at most `fuel` threads. -/
theorem exists_schedBoostStarvedThreads {name : ListName} (hchain : Chain σ.next (σ.list name).head l)
    (hfuel : l.length ≤ fuel) : ∃ τ, σ.schedBoostStarvedThreads fuel name = some τ := by
  rw [schedBoostStarvedThreads, walk_eq_some_iff.2 ⟨hchain, hfuel⟩]
  exact ⟨_, rfl⟩

theorem exists_schedSelectNext (hchain : Chain σ.next (σ.list .readyQueue).head l) (hfuel : l.length ≤ fuel) :
    ∃ r, σ.schedSelectNext fuel = some r := by
  obtain ⟨τ, hboost⟩ := exists_schedBoostStarvedThreads hchain hfuel
  obtain ⟨-, thread, -, -, rfl, -⟩ := schedBoostStarvedThreads_spec hboost
  rw [schedSelectNext, hboost, Option.bind_some, schedSelectByTimeSlice, schedFindBestThreadIterate,
    walk_eq_some_iff.2 ⟨hchain, hfuel⟩]
  exact ⟨_, rfl⟩

/-- **What `sched_select_next` returns and leaves**, whatever the threads of the ready queue are:
`NULL` when it is empty, and otherwise the first of the foremost after the boost, which is then
the only one that is missing. -/
theorem schedSelectNext_law (h : Shaped l (σ.list .readyQueue, σ.next))
    (hcount : (σ.list .readyQueue).count = l.length) (hfuel : l.length ≤ fuel) :
    ∃ τ o σ', σ.schedBoostStarvedThreads fuel .readyQueue = some τ ∧ σ.schedSelectNext fuel = some (o, σ') ∧
      (o = none ↔ l = []) ∧ o = l.find? (fun t => Foremost τ.thread l t) ∧
      Shaped (l.filter fun t => some t ≠ o) (σ'.list .readyQueue, σ'.next) ∧
      (σ'.list .readyQueue).count = (l.filter fun t => some t ≠ o).length ∧
      ∀ t, (σ'.thread t).cls = (σ.thread t).cls ∧ (σ'.thread t).base = (σ.thread t).base := by
  obtain ⟨τ, hboost⟩ := exists_schedBoostStarvedThreads h.chain hfuel
  obtain ⟨l', thread, hchain, -, rfl, hin, hout⟩ := schedBoostStarvedThreads_spec hboost
  obtain rfl := h.chain.unique hchain
  have hkept : ∀ t, (thread t).cls = (σ.thread t).cls ∧ (thread t).base = (σ.thread t).base := by
    intro t
    by_cases ht : t ∈ l
    · exact ⟨(hin t ht).kept.cls, (hin t ht).kept.base⟩
    · rw [hout t ht]
      exact ⟨rfl, rfl⟩
  have hfind : { σ with thread := thread }.schedFindBestThreadIterate fuel .readyQueue =
      some (l.foldl (findRound thread) ⟨none, none, none⟩) := by
    rw [schedFindBestThreadIterate, walk_eq_some_iff.2 ⟨h.chain, hfuel⟩]
    rfl
  by_cases hnil : l = []
  · subst hnil
    refine ⟨_, none, { σ with thread := thread }, hboost, ?_, by simp, rfl, h, hcount, hkept⟩
    rw [schedSelectNext, hboost, Option.bind_some, schedSelectByTimeSlice, hfind]
    rfl
  · obtain ⟨a, best, b, rfl, hfold, hbefore, hafter⟩ := findRound_foldl thread hnil
    refine ⟨_, some best,
      ({ σ with thread := thread }.onList .readyQueue (schedUnlinkThread best a.getLast?)).schedAssignTimeSlice best,
      hboost, ?_, by simp, (find?_foremost hbefore hafter).symm, ?_, ?_, ?_⟩
    · rw [schedSelectNext, hboost, Option.bind_some, schedSelectByTimeSlice, hfind, hfold]
      rfl
    · rw [filter_ne_middle h.nodup]
      change Shaped (a ++ b) (Function.update σ.list .readyQueue _ .readyQueue, _)
      rw [Function.update_self]
      exact h.unlink
    · have hlen : (σ.list .readyQueue).count = (a ++ b).length + 1 := by
        rw [hcount, List.length_append, List.length_append, List.length_cons, Nat.add_assoc]
      rw [filter_ne_middle h.nodup]
      change (Function.update σ.list .readyQueue _ .readyQueue).count = _
      rw [Function.update_self]
      change (σ.list .readyQueue).count - 1 = _
      rw [hlen, Nat.add_sub_cancel]
    · intro t
      change (Function.update thread best _ t).cls = _ ∧ (Function.update thread best _ t).base = _
      by_cases ht : t = best
      · rw [ht, Function.update_self]
        exact hkept best
      · rw [Function.update_of_ne ht]
        exact hkept t

/-- Of the two threads that are ready the second is chosen. -/
theorem schedSelectNext_law_twoReady :
    ∃ τ o σ', twoReady.schedBoostStarvedThreads 2 .readyQueue = some τ ∧ twoReady.schedSelectNext 2 = some (o, σ') ∧
      o = [3, 2].find? (fun t => Foremost τ.thread [3, 2] t) := by
  have hshaped : Shaped [3, 2] (twoReady.list .readyQueue, twoReady.next) := ⟨⟨rfl, rfl, rfl⟩, rfl⟩
  obtain ⟨τ, o, σ', hboost, hselect, -, ho, -⟩ := schedSelectNext_law hshaped rfl (le_refl 2)
  exact ⟨τ, o, σ', hboost, hselect, ho⟩

end Sched

end Flopperating
