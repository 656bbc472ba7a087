/-
# A tick

`sched_tick` of `src/task/sched.c` in full.  Its loop takes threads out of the sleep queue and puts
them behind the ready queue through the same `next`, while it goes on through the sleep queue.
What is behind it of the sleep queue are the threads that are not due, and the ready queue has
grown by those that are (`schedTickLoop_spec`), so that it ends with the two apart
(`schedTick_law`).
-/

import Flopperating.Task.ThreadOps
import Mathlib.Order.Interval.Finset.Nat

namespace Flopperating

open LinkedList ThreadList

namespace Sched

variable {σ σ' : Sched} {fuel t : ℕ} {done rest sleep ready : List ℕ}

/-- The two queues of the scheduler: each of its own threads, with the right tail and count. -/
structure TwoQueues (sleep ready : List ℕ) (σ : Sched) : Prop where
  sleeping : Shaped sleep (σ.list .sleepQueue, σ.next)
  waiting : Shaped ready (σ.list .readyQueue, σ.next)
  sleepCount : (σ.list .sleepQueue).count = sleep.length
  readyCount : (σ.list .readyQueue).count = ready.length
  apart : ∀ x ∈ sleep, x ∉ ready

/-- A `thread_t*` that is not `NULL`. -/
def IsPointer (t : ℕ) : Prop := 0 < t ∧ t < 2 ^ 32

instance (t : ℕ) : Decidable (IsPointer t) := inferInstanceAs (Decidable (_ ∧ _))

/-- There are fewer threads than a count can count. -/
theorem TwoQueues.length_lt (h : TwoQueues sleep ready σ) (hpointer : ∀ t ∈ sleep ++ ready, IsPointer t) :
    sleep.length + ready.length < 2 ^ 32 := by
  have hnd : (sleep ++ ready).Nodup :=
    List.nodup_append.2 ⟨h.sleeping.nodup, h.waiting.nodup, fun x hx y hy hxy => h.apart x hx (hxy ▸ hy)⟩
  have hsub : (sleep ++ ready).toFinset ⊆ Finset.Ico 1 (2 ^ 32) := fun t ht =>
    Finset.mem_Ico.2 (hpointer t (List.mem_toFinset.1 ht))
  have hcard := Finset.card_le_card hsub
  rw [List.toFinset_card_of_nodup hnd, List.length_append, Nat.card_Ico] at hcard
  omega

/-- Threads may change in everything but their links. -/
theorem TwoQueues.congr (h : TwoQueues sleep ready σ) (hnext : σ'.next = σ.next) (hlist : σ'.list = σ.list) :
    TwoQueues sleep ready σ' := by
  constructor
  · rw [hnext, hlist]
    exact h.sleeping
  · rw [hnext, hlist]
    exact h.waiting
  · rw [hlist]
    exact h.sleepCount
  · rw [hlist]
    exact h.readyCount
  · exact h.apart

theorem onList_list_of_ne {name L : ListName} {op : ThreadList.Linked → ThreadList.Linked} (hL : L ≠ name) :
    (σ.onList name op).list L = σ.list L := Function.update_of_ne hL _ σ.list

/-- **Taking a thread** out of the sleep queue. -/
theorem TwoQueues.wake (h : TwoQueues (done ++ t :: rest) ready σ) :
    TwoQueues (done ++ rest) ready (σ.onList .sleepQueue (schedRemoveFromSleepQueue t done.getLast?)) ∧
      t ∉ done ++ rest := by
  have hout : t ∉ done ++ rest := (List.nodup_cons.1 (List.nodup_middle.1 h.sleeping.nodup)).1
  have hsub : ∀ x ∈ done ++ rest, x ∈ done ++ t :: rest := fun x hx =>
    (List.mem_append.1 hx).elim (List.mem_append_left _) fun hx => List.mem_append_right _ (List.mem_cons_of_mem t hx)
  have ht : t ∉ ready := h.apart t (List.mem_append_right _ List.mem_cons_self)
  have hlast : ∀ x ∈ ready, done.getLast? ≠ some x := fun x hx hlast =>
    h.apart x (List.mem_append_left _ (List.mem_of_getLast? hlast)) hx
  refine ⟨⟨?_, ?_, ?_, ?_, fun x hx => h.apart x (hsub x hx)⟩, hout⟩
  · change Shaped _ (Function.update σ.list .sleepQueue _ .sleepQueue, _)
    rw [Function.update_self]
    exact h.sleeping.unlink
  · rw [onList_list_of_ne (by simp)]
    change Shaped _ (_, (ThreadList.unlink t done.getLast? _).2)
    rw [unlink_links]
    exact h.waiting.congr fun x hx => unlinkLinks_of_ne (ne_of_mem_of_not_mem hx ht) (hlast x hx)
  · have hlen : (σ.list .sleepQueue).count = (done ++ rest).length + 1 := by
      rw [h.sleepCount, List.length_append, List.length_append, List.length_cons, Nat.add_assoc]
    change (Function.update σ.list .sleepQueue _ .sleepQueue).count = _
    rw [Function.update_self]
    change (σ.list .sleepQueue).count - 1 = _
    rw [hlen, Nat.add_sub_cancel]
  · rw [onList_list_of_ne (by simp)]
    exact h.readyCount

/-- **A thread of neither queue** goes to the ready queue. -/
theorem TwoQueues.enqueue (h : TwoQueues sleep ready σ) (hsleep : t ∉ sleep) (hready : t ∉ ready)
    (hroom : ready.length + 1 < 2 ^ 32) :
    ∃ σ', σ.schedUnblock t = some σ' ∧ TwoQueues sleep (ready ++ [t]) σ' ∧ σ'.ticks = σ.ticks ∧
      σ'.thread = Function.update σ.thread t { σ.thread t with threadState := .ready } := by
  have happend := append_eq (t := t) h.waiting.chain.head_eq h.waiting.tail
  have hlast : ∀ x ∈ sleep, ready.getLast? ≠ some x := fun x hx hlast => h.apart x hx (List.mem_of_getLast? hlast)
  refine ⟨{ σ.setThread t { σ.thread t with threadState := .ready } with
    next := appendLinks t ready.getLast? σ.next
    list := Function.update σ.list .readyQueue ⟨(ready ++ [t]).head?, some t, u32 ((σ.list .readyQueue).count + 1)⟩ },
    ?_, ⟨?_, ?_, ?_, ?_, ?_⟩, rfl, rfl⟩
  · change (append t (σ.list .readyQueue, σ.next)).map (fun s =>
      { σ.setThread t { σ.thread t with threadState := .ready } with
        next := s.2, list := Function.update σ.list .readyQueue s.1 }) = _
    rw [happend]
    rfl
  · dsimp only
    rw [Function.update_of_ne (by simp)]
    exact h.sleeping.congr fun x hx => appendLinks_of_ne (ne_of_mem_of_not_mem hx hsleep) (hlast x hx)
  · dsimp only
    rw [Function.update_self]
    exact h.waiting.append hready
  · dsimp only
    rw [Function.update_of_ne (by simp)]
    exact h.sleepCount
  · dsimp only
    rw [Function.update_self, List.length_append]
    dsimp only
    rw [h.readyCount]
    exact u32_of_lt hroom
  · intro x hx hmem
    rcases List.mem_append.1 hmem with hmem | hmem
    · exact h.apart x hx hmem
    · exact hsleep (List.mem_singleton.1 hmem ▸ hx)

/-- **The loop** leaves the threads behind it that are not due, and has put the others behind the
ready queue. -/
theorem schedTickLoop_spec {n : ℕ} (h : TwoQueues (done ++ rest) ready σ) (hn : rest.length ≤ n)
    (hroom : rest.length + ready.length < 2 ^ 32) :
    ∃ σ', schedTickLoop n done.getLast? rest.head? σ = some σ' ∧ σ'.ticks = σ.ticks ∧
      TwoQueues (done ++ rest.filter fun t => σ.ticks < (σ.thread t).wakeTime)
        (ready ++ rest.filter fun t => (σ.thread t).wakeTime ≤ σ.ticks) σ' ∧
      ∀ t, σ'.thread t = if t ∈ rest ∧ (σ.thread t).wakeTime ≤ σ.ticks then
        { σ.thread t with threadState := .ready } else σ.thread t := by
  induction rest generalizing n σ done ready with
  | nil =>
    refine ⟨σ, by cases n <;> rfl, rfl, ?_, fun t => (if_neg fun ht => List.not_mem_nil ht.1).symm⟩
    rw [List.filter_nil, List.filter_nil, List.append_nil ready]
    exact h
  | cons t rest ih =>
    rw [List.length_cons] at hn hroom
    obtain ⟨m, rfl⟩ := Nat.exists_eq_add_one.2 (Nat.lt_of_lt_of_le (Nat.succ_pos _) hn)
    have hm : rest.length ≤ m := Nat.le_of_succ_le_succ hn
    by_cases hdue : (σ.thread t).wakeTime ≤ σ.ticks
    · obtain ⟨hgone, hout⟩ := h.wake
      have hready : t ∉ ready := h.apart t (List.mem_append_right _ List.mem_cons_self)
      obtain ⟨τ, hunblock, hτ, hticks, hthread⟩ := hgone.enqueue hout hready (by omega)
      have hsame : ∀ u, (τ.thread u).wakeTime = (σ.thread u).wakeTime := by
        intro u
        rw [hthread]
        by_cases hu : u = t
        · rw [hu, Function.update_self]
          rfl
        · rw [Function.update_of_ne hu]
          rfl
      have hround : σ.schedProcessSleepThread t done.getLast? = some (done.getLast?, τ) := by
        rw [schedProcessSleepThread, if_pos (by exact hdue), schedWakeThread, hunblock]
        rfl
      obtain ⟨σ', hrun, hticks', hqueues, hthread'⟩ := ih hτ hm
        (by rw [List.length_append, List.length_singleton]; omega)
      refine ⟨σ', ?_, hticks'.trans hticks, ?_, fun u => ?_⟩
      · rw [← hrun]
        change (σ.schedProcessSleepThread t done.getLast?).bind _ = _
        rw [hround, Option.bind_some, tickNext_eq hτ.sleeping]
      · rw [List.filter_cons_of_neg (by simpa using hdue), List.filter_cons_of_pos (by simpa using hdue)]
        simp only [hsame, hticks, List.append_assoc, List.singleton_append] at hqueues
        exact hqueues
      · have hu : u ∈ rest → u ≠ t := fun hu => ne_of_mem_of_not_mem (List.mem_append_right done hu) hout
        rw [hthread', hsame, hticks, hthread]
        by_cases hut : u = t
        · subst hut
          rw [if_neg fun h => hu h.1 rfl, if_pos ⟨List.mem_cons_self, hdue⟩, Function.update_self]
          rfl
        · rw [Function.update_of_ne hut]
          exact if_congr (and_congr_left' (List.mem_cons.trans (or_iff_right hut)).symm) rfl rfl
    · have hround : σ.schedProcessSleepThread t done.getLast? = some (some t, σ) := by
        rw [schedProcessSleepThread, if_neg (by exact hdue)]
      have hkeep : TwoQueues ((done ++ [t]) ++ rest) ready σ := by
        rw [List.append_assoc]
        exact h
      obtain ⟨σ', hrun, hticks', hqueues, hthread'⟩ := ih hkeep hm (by omega)
      refine ⟨σ', ?_, hticks', ?_, fun u => ?_⟩
      · rw [← hrun]
        change (σ.schedProcessSleepThread t done.getLast?).bind _ = _
        have hnext := tickNext_eq hkeep.sleeping
        rw [List.getLast?_concat] at hnext ⊢
        rw [hround, Option.bind_some, hnext]
      · rw [List.filter_cons_of_pos (by simpa using hdue), List.filter_cons_of_neg (by simpa using hdue)]
        rw [List.append_assoc] at hqueues
        exact hqueues
      · rw [hthread']
        by_cases hut : u = t
        · subst hut
          rw [if_neg fun h => hdue h.2, if_neg fun h => hdue h.2]
        · exact if_congr (and_congr_left' (List.mem_cons.trans (or_iff_right hut)).symm) rfl rfl

/-- **What a tick does** with the two queues, whatever is in them: the threads that are due go from
the one to the end of the other, each queue in its order, and are ready. -/
theorem schedTick_law (h : TwoQueues sleep ready σ) (hpointer : ∀ t ∈ sleep ++ ready, IsPointer t)
    (hfuel : sleep.length ≤ fuel) :
    ∃ σ', σ.schedTick fuel = some σ' ∧ σ'.ticks = u64 (σ.ticks + 1) ∧
      TwoQueues (sleep.filter fun t => σ'.ticks < (σ.thread t).wakeTime)
        (ready ++ sleep.filter fun t => (σ.thread t).wakeTime ≤ σ'.ticks) σ' ∧
      ∀ t ∈ sleep, (σ.thread t).wakeTime ≤ σ'.ticks → (σ'.thread t).threadState = .ready := by
  have hticks : TwoQueues ([] ++ sleep) ready { σ with ticks := u64 (σ.ticks + 1) } := h.congr rfl rfl
  obtain ⟨σ', hrun, hnow, hqueues, hthread⟩ := schedTickLoop_spec hticks hfuel (h.length_lt hpointer)
  have hhead : (σ.list .sleepQueue).head = sleep.head? := h.sleeping.chain.head_eq
  refine ⟨σ', ?_, hnow, ?_, fun t ht hdue => ?_⟩
  · rw [schedTick]
    dsimp only
    rw [hhead]
    exact hrun
  · rw [hnow]
    exact hqueues
  · rw [hnow] at hdue
    rw [hthread, if_pos ⟨ht, hdue⟩]

/-- Thread `2` sleeps until tick 1, `3` until tick 5. -/
def twoSleeping : Sched :=
  { hostSched with
    next := Function.update hostSched.next 3 (some 2)
    thread := fun t => { hostSched.thread t with threadState := .sleeping, wakeTime := if t = 2 then 1 else 5 }
    list := Function.update hostSched.list .sleepQueue ⟨some 3, some 2, 2⟩ }

theorem schedTick_law_twoSleeping :
    ∃ σ', twoSleeping.schedTick 2 = some σ' ∧ TwoQueues [3] [2] σ' ∧ (σ'.thread 2).threadState = .ready := by
  have hqueues : TwoQueues [3, 2] [] twoSleeping := ⟨⟨⟨rfl, rfl, rfl⟩, rfl⟩, ⟨rfl, rfl⟩, rfl, rfl, by simp⟩
  obtain ⟨σ', hrun, hnow, hend, hready⟩ := schedTick_law hqueues (by decide) (le_refl 2)
  rw [hnow] at hend hready
  exact ⟨σ', hrun, hend, hready 2 (by decide) (by decide)⟩

end Sched

end Flopperating
