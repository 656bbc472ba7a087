/-
# A list of threads is a sequence

The six operations of the scheduler on one list, in any order: `sched_enqueue` and
`sched_thread_list_add` put a thread behind the others, `sched_dequeue` takes the first one out,
`sched_remove` a given one, wherever it is, and `sched_unlink_thread` and
`sched_remove_from_sleep_queue` one whose predecessor the caller knows.

Head, tail, links and count of a list represent a sequence of threads (`IsSequence`), and a run of
operations returns what the same run on sequences returns and ends in a list that represents the
sequence it ends in (`threadQueue_refines`).  The condition on a run is what the callers see to: a
thread that is added is not in the list, and a predecessor that is given is the real one.

The count is of 32 bits.  It never wraps, because a thread is an address that is not `NULL`, and a
list does not hold one twice.
-/

import Flopperating.Task.ThreadLists

namespace Flopperating

open LinkedList ThreadList

/-- `sched_remove`, with what it returns. -/
def schedRemoveCurr (fuel : ℕ) (target : Option ℕ) (s : Linked) : Option (Option ℕ × Linked) :=
  match target with
  | none => some (none, s)
  | some target => (search s.2 target fuel none s.1.head).map fun found =>
    match found with
    | none => (none, s)
    | some prev =>
      let (list, next) := unlink target prev s
      (some target, { list with count := u32 (s.1.count + (2 ^ 32 - 1)) }, next)

/-- The list it leaves is the one of `schedRemove`. -/
theorem schedRemoveCurr_snd (fuel target : ℕ) (s : Linked) :
    (schedRemoveCurr fuel (some target) s).map Prod.snd = schedRemove fuel target s := by
  rw [schedRemoveCurr, schedRemove, Option.map_map]
  congr 1
  funext found
  cases found <;> rfl

/-! ### Operations -/

/-- An operation on a list. -/
inductive QueueOp
  | enqueue (thread : ℕ)
  | threadListAdd (thread : ℕ)
  | dequeue
  | remove (target : Option ℕ)
  | unlinkThread (thread : ℕ) (prev : Option ℕ)
  | removeFromSleepQueue (thread : ℕ) (prev : Option ℕ)
  deriving DecidableEq

namespace QueueOp

/-- The operation of the scheduler: what it returns, and the list. -/
def run (fuel : ℕ) (op : QueueOp) (s : Linked) : Option (Option ℕ × Linked) :=
  match op with
  | .enqueue thread => (schedEnqueue thread s).map fun s => (none, s)
  | .threadListAdd thread => (schedThreadListAdd thread s).map fun s => (none, s)
  | .dequeue => some (schedDequeue s)
  | .remove target => schedRemoveCurr fuel target s
  | .unlinkThread thread prev => some (none, schedUnlinkThread thread prev s)
  | .removeFromSleepQueue thread prev => some (none, schedRemoveFromSleepQueue thread prev s)

/-- The operations one after the other: what they return, and the list. -/
def runs (fuel : ℕ) : List QueueOp → Linked → Option (List (Option ℕ) × Linked)
  | [], s => some ([], s)
  | op :: ops, s => (op.run fuel s).bind fun o => (runs fuel ops o.2).map fun p => (o.1 :: p.1, p.2)

/-- The operation on a sequence: what it returns, and the sequence. -/
def apply (op : QueueOp) (l : List ℕ) : Option ℕ × List ℕ :=
  match op with
  | .enqueue thread | .threadListAdd thread => (none, l ++ [thread])
  | .dequeue => (l.head?, l.tail)
  | .remove none => (none, l)
  | .remove (some target) => (if target ∈ l then some target else none, l.erase target)
  | .unlinkThread thread _ | .removeFromSleepQueue thread _ => (none, l.erase thread)

/-- What the operations return on sequences. -/
def results : List QueueOp → List ℕ → List (Option ℕ)
  | [], _ => []
  | op :: ops, l => (op.apply l).1 :: results ops (op.apply l).2

/-- The sequence after the operations. -/
def contents (ops : List QueueOp) (l : List ℕ) : List ℕ := ops.foldl (fun l op => (op.apply l).2) l

/-- The thread that the operation adds. -/
def added : QueueOp → Option ℕ
  | .enqueue thread | .threadListAdd thread => some thread
  | _ => none

/-- What the callers see to: an added thread is an address and not in the list, a thread that is
unlinked is in it, and the predecessor is the one it has. -/
def Allowed (l : List ℕ) : QueueOp → Prop
  | .enqueue thread | .threadListAdd thread => 0 < thread ∧ thread < 2 ^ 32 ∧ thread ∉ l
  | .dequeue | .remove _ => True
  | .unlinkThread thread prev | .removeFromSleepQueue thread prev =>
    thread ∈ l ∧ prev = nodeBefore thread l

instance (l : List ℕ) : ∀ op, Decidable (Allowed l op)
  | .enqueue _ | .threadListAdd _ => inferInstanceAs (Decidable (_ ∧ _ ∧ _))
  | .dequeue | .remove _ => inferInstanceAs (Decidable True)
  | .unlinkThread _ _ | .removeFromSleepQueue _ _ => inferInstanceAs (Decidable (_ ∧ _))

/-- All operations are allowed where they are made. -/
def AllAllowed : List ℕ → List QueueOp → Prop
  | _, [] => True
  | l, op :: ops => op.Allowed l ∧ AllAllowed (op.apply l).2 ops

instance decidableAllAllowed : ∀ l ops, Decidable (AllAllowed l ops)
  | _, [] => inferInstanceAs (Decidable True)
  | l, op :: ops =>
    haveI := decidableAllAllowed (op.apply l).2 ops
    inferInstanceAs (Decidable (_ ∧ _))

end QueueOp

namespace ThreadList

/-- The list represents the sequence `l`.  The threads `seen` that are not in it any more lead
nowhere. -/
structure IsSequence (seen l : List ℕ) (s : Linked) : Prop extends Shaped l s where
  count : s.1.count = l.length
  threads : ∀ t ∈ l, 0 < t ∧ t < 2 ^ 32
  seen_of_mem : ∀ t ∈ l, t ∈ seen
  cleared : ∀ t ∈ seen, t ∉ l → s.2 t = none

variable {s : Linked} {seen a b l : List ℕ} {t fuel : ℕ} {target : Option ℕ}

/-- A list without threads. -/
theorem isSequence_empty (next : ℕ → Option ℕ) : IsSequence [] [] (⟨none, none, 0⟩, next) where
  chain := rfl
  tail := rfl
  count := rfl
  threads _ h := absurd h List.not_mem_nil
  seen_of_mem _ h := h
  cleared _ h := absurd h List.not_mem_nil

/-- There are fewer threads in a list than addresses. -/
theorem length_lt_of_threads (hnd : l.Nodup) (hthreads : ∀ t ∈ l, 0 < t ∧ t < 2 ^ 32) : l.length < 2 ^ 32 := by
  have hcons : (0 :: l).Nodup := List.nodup_cons.2 ⟨fun h0 => (hthreads 0 h0).1.false, hnd⟩
  have hsub : 0 :: l ⊆ List.range (2 ^ 32) := by
    intro t ht
    rw [List.mem_range]
    rcases List.mem_cons.1 ht with rfl | ht
    · exact Nat.two_pow_pos 32
    · exact (hthreads t ht).2
  have hlen := (hcons.subperm hsub).length_le
  rw [List.length_range] at hlen
  exact hlen

theorem IsSequence.length_lt (h : IsSequence seen l s) : l.length < 2 ^ 32 :=
  length_lt_of_threads h.nodup h.threads

/-- `count--` where there is a thread. -/
theorem u32_count_pred {n : ℕ} (hpos : 0 < n) (hlt : n < 2 ^ 32) : u32 (n + (2 ^ 32 - 1)) = n - 1 := by
  rw [u32]
  omega

/-! ### One operation -/

/-- A thread goes behind the others. -/
theorem IsSequence.append (h : IsSequence seen l s) (hpos : 0 < t) (hlt : t < 2 ^ 32) (ht : t ∉ l) :
    ∃ s', ThreadList.append t s = some s' ∧ IsSequence (seen ++ [t]) (l ++ [t]) s' := by
  have hshaped := h.toShaped.append ht
  have hthreads : ∀ x ∈ l ++ [t], 0 < x ∧ x < 2 ^ 32 := by
    intro x hx
    rcases List.mem_append.1 hx with hx | hx
    · exact h.threads x hx
    · rw [List.mem_singleton.1 hx]
      exact ⟨hpos, hlt⟩
  refine ⟨_, append_eq h.chain.head_eq h.tail, hshaped, ?_, hthreads, ?_, ?_⟩
  · change u32 (s.1.count + 1) = (l ++ [t]).length
    have hlen := length_lt_of_threads hshaped.nodup hthreads
    rw [List.length_append, List.length_singleton] at hlen ⊢
    rw [h.count, u32_of_lt hlen]
  · intro x hx
    exact (List.mem_append.1 hx).elim (fun hx => List.mem_append_left _ (h.seen_of_mem x hx))
      (List.mem_append_right _)
  · intro x hx hout
    have hxl : x ∉ l := fun hx => hout (List.mem_append_left _ hx)
    have hxt : x ≠ t := fun hx => hout (List.mem_append_right _ (List.mem_singleton.2 hx))
    have hseen : x ∈ seen := (List.mem_append.1 hx).resolve_right fun hx => hxt (List.mem_singleton.1 hx)
    change appendLinks t l.getLast? s.2 x = none
    rw [appendLinks_of_ne hxt fun hlast => hxl (List.mem_of_getLast? hlast)]
    exact h.cleared x hseen hxl

/-- A thread goes out of the list, behind the one it has in front. -/
theorem IsSequence.unlink (h : IsSequence seen (a ++ t :: b) s) :
    IsSequence seen (a ++ b) (ThreadList.unlink t a.getLast? s) := by
  have hsub : ∀ x ∈ a ++ b, x ∈ a ++ t :: b := fun x hx =>
    (List.sublist_cons_self t b).append_left a |>.subset hx
  refine ⟨h.toShaped.unlink, ?_, fun x hx => h.threads x (hsub x hx),
    fun x hx => h.seen_of_mem x (hsub x hx), fun x hx hout => ?_⟩
  · have hcount : (ThreadList.unlink t a.getLast? s).1.count = s.1.count - 1 := by
      rcases a.getLast? with - | prev <;> rfl
    rw [hcount, h.count, List.length_append, List.length_append, List.length_cons]
    omega
  · rw [unlink_links]
    by_cases hxt : x = t
    · rw [hxt]
      rcases a.getLast? with - | prev <;> exact Function.update_self ..
    · have hxl : x ∉ a ++ t :: b := by
        rw [List.mem_append, List.mem_cons] at *
        tauto
      rw [unlinkLinks_of_ne hxt fun hlast => hxl (List.mem_append_left _ (List.mem_of_getLast? hlast))]
      exact h.cleared x hx hxl

/-- The same where the predecessor is looked for. -/
theorem IsSequence.unlink_of_mem (h : IsSequence seen l s) (ht : t ∈ l) :
    IsSequence seen (l.erase t) (ThreadList.unlink t (nodeBefore t l) s) := by
  obtain ⟨a, b, rfl⟩ := List.append_of_mem ht
  have hta : t ∉ a := fun hta => (List.nodup_cons.1 (List.nodup_middle.1 h.nodup)).1 (List.mem_append_left _ hta)
  rw [List.erase_append_right _ hta, List.erase_cons_head, nodeBefore_split hta]
  exact h.unlink

/-- The first thread goes out of the list. -/
theorem IsSequence.dequeue (h : IsSequence seen l s) :
    (schedDequeue s).1 = l.head? ∧ IsSequence seen l.tail (schedDequeue s).2 := by
  have hhead := h.chain.head_eq
  cases l with
  | nil =>
    have hnone : schedDequeue s = (none, s) := by rw [schedDequeue, hhead]; rfl
    rw [hnone]
    exact ⟨rfl, h⟩
  | cons t l =>
    have hunlink : IsSequence seen l (ThreadList.unlink t none s) := IsSequence.unlink (a := []) h
    -- the tail is the thread itself exactly where nothing comes after it
    have htail : (if s.2 t = none then none else s.1.tail) = if s.1.tail = some t then none else s.1.tail := by
      rw [Chain.head_eq h.chain.2, h.tail]
      cases l with
      | nil => simp
      | cons u l =>
        have hlast : (t :: u :: l).getLast? ≠ some t := by
          rw [List.getLast?_cons_cons]
          exact fun hlast => (List.nodup_cons.1 h.nodup).1 (List.mem_of_getLast? hlast)
        rw [if_neg (by simp), if_neg hlast]
    have hcount : u32 (s.1.count + (2 ^ 32 - 1)) = s.1.count - 1 := by
      have hlen := h.length_lt
      rw [← h.count] at hlen
      refine u32_count_pred ?_ hlen
      rw [h.count]
      exact Nat.succ_pos _
    have hsome : schedDequeue s = (some t, ThreadList.unlink t none s) := by
      rw [schedDequeue, hhead]
      simp only [List.head?_cons, htail, hcount]
      rfl
    rw [hsome]
    exact ⟨rfl, hunlink⟩

/-- A thread that is in the list goes out of it, and is returned. -/
theorem IsSequence.remove_of_mem (h : IsSequence seen l s) (ht : t ∈ l) (hfuel : 2 ^ 32 ≤ fuel) :
    ∃ s', schedRemoveCurr fuel (some t) s = some (some t, s') ∧ IsSequence seen (l.erase t) s' := by
  have hunlink := h.unlink_of_mem ht
  have hpos := List.length_pos_of_mem ht
  obtain ⟨a, b, rfl⟩ := List.append_of_mem ht
  have hta : t ∉ a := fun hta => (List.nodup_cons.1 (List.nodup_middle.1 h.nodup)).1 (List.mem_append_left _ hta)
  have hlen : a.length < fuel := by
    have := h.length_lt
    rw [List.length_append, List.length_cons] at this
    omega
  rw [nodeBefore_split hta] at hunlink
  have hcount : u32 (s.1.count + (2 ^ 32 - 1)) = (ThreadList.unlink t a.getLast? s).1.count := by
    have hpred : (ThreadList.unlink t a.getLast? s).1.count = s.1.count - 1 := by
      rcases a.getLast? with - | prev <;> rfl
    rw [hpred]
    exact u32_count_pred (h.count ▸ hpos) (h.count ▸ h.length_lt)
  refine ⟨ThreadList.unlink t a.getLast? s, ?_, hunlink⟩
  rw [schedRemoveCurr, search_split h.chain hta hlen, Option.or_none, hcount]
  rfl

/-- A thread that is not in it is not found, and nothing changes. -/
theorem IsSequence.remove_of_notMem (h : IsSequence seen l s) (ht : ∀ t, target = some t → t ∉ l)
    (hfuel : 2 ^ 32 ≤ fuel) : schedRemoveCurr fuel target s = some (none, s) := by
  cases target with
  | none => rfl
  | some t =>
    rw [schedRemoveCurr, search_of_notMem h.chain (ht t rfl) (h.length_lt.le.trans hfuel)]
    rfl

end ThreadList

/-! ### Runs -/

namespace QueueOp

variable {s : Linked} {seen l : List ℕ} {fuel : ℕ} {op : QueueOp} {ops : List QueueOp}

/-- **One operation** returns what it returns on the sequence, and keeps the list a representation. -/
theorem run_isSequence (h : IsSequence seen l s) (hok : op.Allowed l) (hfuel : 2 ^ 32 ≤ fuel) :
    ∃ s', op.run fuel s = some ((op.apply l).1, s') ∧ IsSequence (seen ++ op.added.toList) (op.apply l).2 s' := by
  cases op with
  | enqueue t | threadListAdd t =>
    obtain ⟨s', hrun, hs'⟩ := h.append hok.1 hok.2.1 hok.2.2
    exact ⟨s', congrArg (Option.map fun s => (none, s)) hrun, hs'⟩
  | dequeue =>
    obtain ⟨hfst, hsnd⟩ := h.dequeue
    refine ⟨(schedDequeue s).2, ?_, (List.append_nil seen).symm ▸ hsnd⟩
    rw [apply, ← hfst]
    rfl
  | remove target =>
    have hadded : seen ++ (QueueOp.remove target).added.toList = seen := List.append_nil seen
    rw [hadded]
    cases target with
    | none => exact ⟨s, rfl, h⟩
    | some t =>
      by_cases ht : t ∈ l
      · obtain ⟨s', hrun, hs'⟩ := h.remove_of_mem ht hfuel
        rw [apply, if_pos ht]
        exact ⟨s', hrun, hs'⟩
      · rw [apply, if_neg ht, List.erase_of_not_mem ht]
        have hrun : schedRemoveCurr fuel (some t) s = some (none, s) := by
          refine h.remove_of_notMem (fun u hu => ?_) hfuel
          rw [← Option.some.inj hu]
          exact ht
        exact ⟨s, hrun, h⟩
  | unlinkThread t prev | removeFromSleepQueue t prev =>
    obtain ⟨ht, rfl⟩ := hok
    exact ⟨_, rfl, (List.append_nil seen).symm ▸ h.unlink_of_mem ht⟩

/-- **A run** returns what it returns on sequences, and ends in a list that represents where it ends. -/
theorem runs_isSequence (h : IsSequence seen l s) (hall : AllAllowed l ops) (hfuel : 2 ^ 32 ≤ fuel) :
    ∃ s', runs fuel ops s = some (results ops l, s') ∧
      IsSequence (seen ++ ops.filterMap added) (contents ops l) s' := by
  induction ops generalizing seen l s with
  | nil => exact ⟨s, rfl, (List.append_nil seen).symm ▸ h⟩
  | cons op ops ih =>
    obtain ⟨hok, hall⟩ := hall
    obtain ⟨t, hrun, ht⟩ := run_isSequence h hok hfuel
    obtain ⟨s', hruns, hs'⟩ := ih ht hall
    refine ⟨s', ?_, ?_⟩
    · rw [runs, hrun, Option.bind_some, hruns]
      rfl
    · have hadded : (op :: ops).filterMap added = op.added.toList ++ ops.filterMap added := by
        cases hop : op.added with
        | none => exact List.filterMap_cons_none hop
        | some t => exact List.filterMap_cons_some hop
      rw [hadded, ← List.append_assoc]
      exact hs'

end QueueOp

open QueueOp

variable {s : Linked} {seen l : List ℕ} {fuel : ℕ} {ops : List QueueOp}

/-- **Thread queues refine sequences**: after any run of the six operations the list represents the
sequence of the same run, which holds no thread twice; the operations returned what they return
there, every thread that was in the list and is not any more leads nowhere, and `sched_remove` of a
thread that is not in it returns `NULL` and changes nothing. -/
theorem threadQueue_refines (h : IsSequence seen l s) (hall : AllAllowed l ops) (hfuel : 2 ^ 32 ≤ fuel) :
    ∃ s', runs fuel ops s = some (results ops l, s') ∧ (contents ops l).Nodup ∧
      s'.1.head = (contents ops l).head? ∧ s'.1.tail = (contents ops l).getLast? ∧
      s'.1.count = (contents ops l).length ∧ (∀ t ∈ contents ops l, s'.2 t = nodeAfter t (contents ops l)) ∧
      (∀ t ∈ seen ++ ops.filterMap added, t ∉ contents ops l → s'.2 t = none) ∧
      ((schedDequeue s').1 = none ↔ contents ops l = []) ∧
      ∀ target : Option ℕ, (∀ t, target = some t → t ∉ contents ops l) →
        schedRemoveCurr fuel target s' = some (none, s') := by
  obtain ⟨s', hrun, hs'⟩ := runs_isSequence h hall hfuel
  refine ⟨s', hrun, hs'.nodup, hs'.chain.head_eq, hs'.tail, hs'.count, fun t ht => hs'.chain.next_eq ht,
    hs'.cleared, ?_, fun target htarget => hs'.remove_of_notMem htarget hfuel⟩
  rw [hs'.dequeue.1, List.head?_eq_none_iff]

/-- The last of two threads is removed before a third is added: it goes behind the first. -/
theorem threadQueue_refines_afterLast : ∃ s' : Linked,
    runs (2 ^ 32) [.enqueue 1, .enqueue 2, .remove (some 2), .threadListAdd 3, .dequeue, .dequeue, .dequeue]
      (⟨none, none, 0⟩, fun _ => none) = some ([none, none, some 2, none, some 1, some 3, none], s') ∧
    s'.1.tail = none ∧ s'.2 2 = none := by
  have hall : AllAllowed [] [.enqueue 1, .enqueue 2, .remove (some 2), .threadListAdd 3, .dequeue, .dequeue,
      .dequeue] := by
    decide
  obtain ⟨s', hrun, -, -, htail, -, -, hcleared, -⟩ :=
    threadQueue_refines (isSequence_empty fun _ => none) hall le_rfl
  exact ⟨s', hrun, htail, hcleared 2 (by decide) (by decide)⟩

end Flopperating
