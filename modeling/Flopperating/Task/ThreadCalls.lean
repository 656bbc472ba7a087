/-
# The integrity of the lists of threads

A thread is in the list of its process, in `sched.user_threads` and, most of the time, in a queue,
with one `next` for all three.  What each call does with the lists is a list of operations
(`threadOps`); the lists keep their shape, their counts and their threads in every run in which each
link that is written is the one that every list with this thread needs (`lists_in_order`).  Two calls
never are of that kind: `proc_init_process_create_thread` adds its thread to the list of the process a
second time (`not_fitsAll_initProcess`), and `proc_terminate_all_threads` leaves the count of a list
that it empties.
-/

import Flopperating.Task.SchedSpace
import Flopperating.Task.ThreadOps

namespace Flopperating

open LinkedList ThreadList Transition

/-- The calls that do something with lists of threads.  A call that makes a thread is told which
one, or `none` where there is no memory for it. -/
inductive ThreadCall
  | createUserThread (process priority : ℕ) (thread : Option ℕ)
  | initProcessCreateThread (process priority : ℕ) (thread : Option ℕ)
  | createKernelThread (priority : ℕ) (thread : Option ℕ)
  | enqueue (name : ListName) (t : ℕ)
  | sched (e : Sched.SchedCall)
  | terminateAllThreads (process : ℕ)

namespace ThreadCall

/-- The thread that a call makes. -/
def created : ThreadCall → Option ℕ
  | createUserThread _ _ thread | initProcessCreateThread _ _ thread | createKernelThread _ thread =>
    thread
  | enqueue .. | sched _ | terminateAllThreads _ => none

end ThreadCall

/-- The operation is on a queue. -/
def ThreadOp.OnQueue : ThreadOp → Prop
  | add name _ | remove name _ => Sched.IsQueue name
  | create .. | clear _ => False

namespace Sched

variable {σ σ' τ : Sched} {fuel t p : ℕ} {e : ThreadCall} {G : Members}

/-- One call. -/
def threadCall (fuel : ℕ) (e : ThreadCall) (σ : Sched) : Option Sched :=
  match e with
  | .createUserThread process priority thread =>
    (σ.schedCreateUserThread process priority thread).map Prod.snd
  | .initProcessCreateThread process priority thread =>
    (σ.procInitProcessCreateThread process priority thread).map Prod.snd
  | .createKernelThread priority thread => σ.schedCreateKernelThread priority thread
  | .enqueue name t => σ.onList? name (schedEnqueue t)
  | .sched e => σ.call fuel e
  | .terminateAllThreads process => σ.procTerminateAllThreads fuel process

/-- The queues that a thread leaves when its process ends. -/
def leaveOps (G : Members) (t : ℕ) : List ThreadOp :=
  ([.readyQueue, .sleepQueue].filter fun L => t ∈ G L).map fun L => .remove L t

/-- What a call does with the lists. -/
def threadOps (fuel : ℕ) (e : ThreadCall) (σ : Sched) (G : Members) : List ThreadOp :=
  match e with
  | .createUserThread p _ thread => thread.toList.map (.create p)
  | .initProcessCreateThread p _ thread =>
    thread.toList.flatMap fun t => [.create p t, .add (.threads p) t]
  | .createKernelThread _ thread => thread.toList.map (.add .kernelThreads)
  | .enqueue name t => [.add name t]
  | .sched e => σ.callOps fuel e G
  | .terminateAllThreads p => (G (.threads p)).flatMap (leaveOps G) ++ [.clear p]

/-- One call, and the threads that the lists should hold after it. -/
def threadStep (fuel : ℕ) (e : ThreadCall) (s : Sched × Members) : Option (Sched × Members) :=
  (s.1.threadCall fuel e).map fun σ => (σ, s.2.applyAll (s.1.threadOps fuel e s.2))

/-- All lists count. -/
abbrev Every (_ : ListName) : Prop := True

/-- A new thread is in no list, only the queues are enqueued in, and all that the call does with the
lists fits. -/
structure Orderly (fuel : ℕ) (s : Sched × Members) (e : ThreadCall) : Prop where
  fresh : ∀ t ∈ e.created, ∀ L, t ∉ s.2 L
  queue : ∀ name t, e = .enqueue name t → IsQueue name
  fits : FitsAll Every True s.2 (s.1.threadOps fuel e s.2)

/-- The list of a process holds its own threads: those of `sched.user_threads` that belong to it. -/
def Owned (G : Members) (σ : Sched) : Prop :=
  ∀ p t, t ∈ G (.threads p) ↔ t ∈ G .userThreads ∧ (σ.thread t).process = some p

/-! ### What a call does -/


theorem applyAll_of_onQueue {ops : List ThreadOp} (h : ∀ op ∈ ops, op.OnQueue) {L : ListName}
    (hL : ¬ IsQueue L) : G.applyAll ops L = G L := by
  induction ops generalizing G with
  | nil => rfl
  | cons op ops ih =>
    have hrest := ih (G := G.apply op) fun op hop => h op (List.mem_cons_of_mem _ hop)
    have hop := h op List.mem_cons_self
    refine hrest.trans ?_
    cases op with
    | add name t => exact Function.update_of_ne (fun hLn => hL (by rw [hLn]; exact hop)) _ _
    | remove name t => exact Function.update_of_ne (fun hLn => hL (by rw [hLn]; exact hop)) _ _
    | create p t => exact hop.elim
    | clear p => exact hop.elim

theorem callOps_onQueue (e : SchedCall) : ∀ op ∈ σ.callOps fuel e G, op.OnQueue := by
  have hyield : ∀ c, ∀ op ∈ σ.yieldOps c, op.OnQueue := by
    intro c op hop
    unfold yieldOps at hop
    split at hop
    · exact List.mem_singleton.1 hop ▸ .inl rfl
    · exact absurd hop List.not_mem_nil
  have henqueue : ∀ op ∈ σ.enqueueOps e, op.OnQueue := by
    intro op hop
    unfold enqueueOps at hop
    split at hop
    · exact absurd hop List.not_mem_nil
    · split at hop
      · exact hyield _ op hop
      · exact hyield _ op hop
      · split at hop
        · exact absurd hop List.not_mem_nil
        · rcases List.mem_cons.1 hop with rfl | hop
          · exact .inr rfl
          · exact hyield _ op hop
      · exact absurd hop List.not_mem_nil
  have hchoose : ∀ op ∈ σ.enqueueOps e ++ (σ.selected fuel e).toList.map (.remove .readyQueue),
      op.OnQueue := by
    intro op hop
    rcases List.mem_append.1 hop with hop | hop
    · exact henqueue op hop
    · obtain ⟨t, -, rfl⟩ := List.mem_map.1 hop
      exact .inl rfl
  intro op hop
  cases e with
  | unblock t => exact List.mem_singleton.1 hop ▸ .inl rfl
  | tick =>
    obtain ⟨t, -, hop⟩ := List.mem_flatMap.1 hop
    rcases List.mem_cons.1 hop with rfl | hop
    · exact .inr rfl
    · exact List.mem_singleton.1 hop ▸ .inl rfl
  | _ => exact hchoose op hop

/-- A call of the scheduler moves no thread to another process. -/
theorem call_process {e : SchedCall} (h : σ.call fuel e = some σ') (t : ℕ) :
    (σ'.thread t).process = (σ.thread t).process := by
  cases call_cases h with
  | nothing _ => rfl
  | schedule _ hs hτ =>
    obtain ⟨⟨o, ρ⟩, hselect, hon⟩ := Option.bind_eq_some_iff.1 hτ
    have hsame := ((sameSpace_scheduling hs).trans (schedSelectNext_cases hselect).sameSpace).trans
      (sameSpace_schedSelectIdleIfNeeded o ρ)
    unfold schedScheduleOn at hon
    dsimp only at hon
    split at hon
    · obtain rfl := Option.some.inj hon
      exact hsame.process t
    · have hprepare := hsame.trans (sameSpace_setThread (t := (ρ.schedSelectIdleIfNeeded o).1)
        (v := { (ρ.schedSelectIdleIfNeeded o).2.thread (ρ.schedSelectIdleIfNeeded o).1 with
          timeSinceLastRun := 0 }) rfl)
      unfold schedDetermineAndSwitch at hon
      dsimp only at hon
      split at hon
      · obtain ⟨r, -, rfl⟩ := Option.map_eq_some_iff.1 hon
        exact hprepare.process t
      · obtain rfl := Option.some.inj hon
        exact hprepare.process t
  | unblock hunblock => exact (sameSpace_schedUnblock hunblock).process t
  | tick htick =>
    have hticks : SameSpace σ { σ with ticks := u64 (σ.ticks + 1) } :=
      ⟨rfl, rfl, rfl, rfl, rfl, fun _ => rfl⟩
    exact (hticks.trans (sameSpace_schedTickLoop htick)).process t
  | vmmSwitch r => rfl

/-- **Adding the thread of the initial process** never fits: it is already in the list. -/
theorem not_fitsAll_initProcess {tracked : ListName → Prop} {counted : Prop} {priority : ℕ} :
    ¬ FitsAll tracked counted G (σ.threadOps fuel (.initProcessCreateThread p priority (some t)) G) := by
  rintro ⟨-, ⟨hallowed, -⟩, -⟩
  refine hallowed ?_
  rw [Members.apply, Function.update_of_ne (by simp), Function.update_self]
  exact List.mem_append_right _ List.mem_cons_self

/-- **Ending a process** only fits when it has no thread: the count of its list stays. -/
theorem terminate_of_fitsAll {tracked : ListName → Prop}
    (h : FitsAll tracked True G (σ.threadOps fuel (.terminateAllThreads p) G)) :
    G (.threads p) = [] ∧ σ.threadOps fuel (.terminateAllThreads p) G = [.clear p] := by
  have hleave : ∀ op ∈ (G (.threads p)).flatMap (leaveOps G), op.OnQueue := by
    intro op hop
    obtain ⟨t, -, hop⟩ := List.mem_flatMap.1 hop
    obtain ⟨L, hL, rfl⟩ := List.mem_map.1 hop
    have hL := List.mem_of_mem_filter hL
    simpa [ThreadOp.OnQueue, IsQueue] using hL
  obtain ⟨-, ⟨-, hroom, -⟩, -⟩ := fitsAll_append.1 h
  have hsame := applyAll_of_onQueue (G := G) (L := .threads p) hleave (by simp [IsQueue])
  have hempty : G (.threads p) = [] := hsame ▸ hroom trivial
  refine ⟨hempty, ?_⟩
  rw [threadOps, hempty]
  rfl

theorem applyAll_clear (h : G (.threads p) = []) : G.applyAll [.clear p] = G := by
  show Function.update G (.threads p) [] = G
  rw [← h, Function.update_eq_self]

theorem terminateLoop_thread {n : ℕ} {o : Option ℕ} (h : terminateLoop fuel n o σ = some σ') :
    σ'.thread = σ.thread := by
  induction n generalizing σ o with
  | zero =>
    cases o with
    | none => exact congrArg thread (Option.some.inj h).symm
    | some t => exact absurd h (by simp [terminateLoop])
  | succ n ih =>
    cases o with
    | none => exact congrArg thread (Option.some.inj h).symm
    | some t =>
      obtain ⟨τ, hτ, h⟩ := Option.bind_eq_some_iff.1 h
      obtain ⟨ρ, hρ, h⟩ := Option.bind_eq_some_iff.1 h
      obtain ⟨s, -, rfl⟩ := onList?_eq_some hτ
      obtain ⟨s', -, rfl⟩ := onList?_eq_some hρ
      have hrest := ih h
      exact hrest

/-- **One call** keeps all lists in order. -/
theorem threadCall_inOrder (h : InOrder Every True G σ) (hok : Orderly fuel (σ, G) e)
    (hrun : σ.threadCall fuel e = some σ') :
    InOrder Every True (G.applyAll (σ.threadOps fuel e G)) σ' := by
  have hfits : FitsAll Every True G (σ.threadOps fuel e G) := hok.fits
  cases e with
  | createUserThread p priority thread =>
    obtain ⟨o, hcreate, rfl⟩ := Option.map_eq_some_iff.1 hrun
    cases thread with
    | none =>
      obtain rfl := Option.some.inj hcreate
      exact h
    | some t =>
      obtain ⟨τ, hτ, hrest⟩ := Option.bind_eq_some_iff.1 hcreate
      obtain ⟨ρ, hρ, rfl⟩ := Option.map_eq_some_iff.1 hrest
      have hset : InOrder Every True G (σ.setThread t (schedInternalInitThread priority (some p))) :=
        h.congr rfl rfl
      exact hset.create trivial trivial hfits.1 hτ hρ
  | initProcessCreateThread p priority thread =>
    obtain ⟨o, hcreate, rfl⟩ := Option.map_eq_some_iff.1 hrun
    cases thread with
    | none =>
      obtain rfl := Option.some.inj hcreate
      exact h
    | some t => exact absurd hfits not_fitsAll_initProcess
  | createKernelThread priority thread =>
    cases thread with
    | none => exact absurd hrun (by simp [threadCall, schedCreateKernelThread])
    | some t =>
      have hset : InOrder Every True G (σ.setThread t
          { schedInternalInitThread priority none with cls := .realtime }) := h.congr rfl rfl
      exact hset.add trivial hrun hfits.1
  | enqueue name t => exact h.add trivial hrun hfits.1
  | sched e => exact call_inOrder trivial trivial h hrun hfits
  | terminateAllThreads p =>
    obtain ⟨hempty, hops⟩ := terminate_of_fitsAll hfits
    have hlist := h.shaped (.threads p) trivial
    rw [hempty] at hlist
    have hhead : (σ.list (.threads p)).head = none := hlist.chain
    have htail : (σ.list (.threads p)).tail = none := hlist.tail
    obtain ⟨τ, hloop, rfl⟩ := Option.map_eq_some_iff.1 hrun
    rw [hhead] at hloop
    obtain rfl : σ = τ := by cases fuel <;> exact Option.some.inj hloop
    rw [hops, applyAll_clear hempty]
    have hlists : Function.update σ.list (.threads p) ⟨none, none, (σ.list (.threads p)).count⟩ =
        σ.list := by
      have hself : (⟨none, none, (σ.list (.threads p)).count⟩ : ThreadList) = σ.list (.threads p) := by
        rw [ThreadList.mk.injEq]
        exact ⟨hhead.symm, htail.symm, rfl⟩
      rw [hself, Function.update_eq_self]
    exact h.congr rfl hlists

theorem Owned.congr {G' : Members} (h : Owned G σ) (hthreads : ∀ p, G' (.threads p) = G (.threads p))
    (huser : G' .userThreads = G .userThreads)
    (hprocess : ∀ t ∈ G .userThreads, (σ'.thread t).process = (σ.thread t).process) : Owned G' σ' := by
  intro p t
  rw [hthreads, huser, h p t]
  exact and_congr_right fun ht => by rw [hprocess t ht]

/-- A new thread goes to its process. -/
theorem Owned.create (h : Owned G σ) (hfresh : ∀ L, t ∉ G L)
    (hthread : ∀ u, u ≠ t → σ'.thread u = σ.thread u) (hprocess : (σ'.thread t).process = some p) :
    Owned (G.apply (.create p t)) σ' := by
  intro q u
  have huser : u ∈ G.apply (.create p t) .userThreads ↔ u ∈ G .userThreads ∨ u = t := by
    rw [Members.apply, Function.update_self]
    simp
  have hlist : u ∈ G.apply (.create p t) (.threads q) ↔ u ∈ G (.threads q) ∨ q = p ∧ u = t := by
    rw [Members.apply, Function.update_of_ne (by simp)]
    by_cases hq : q = p
    · rw [hq, Function.update_self]
      simp
    · rw [Function.update_of_ne (by simpa using hq)]
      simp [hq]
  rw [huser, hlist]
  by_cases hu : u = t
  · subst hu
    have hout := hfresh (.threads q)
    simp only [hout, false_or, and_true, or_true, true_and, hprocess, Option.some.injEq]
    exact eq_comm
  · rw [hthread u hu]
    simp only [hu, and_false, or_false]
    exact h q u

/-- **One call** leaves each process its own threads. -/
theorem threadCall_owned (h : Owned G σ) (hok : Orderly fuel (σ, G) e)
    (hrun : σ.threadCall fuel e = some σ') : Owned (G.applyAll (σ.threadOps fuel e G)) σ' := by
  have hfits : FitsAll Every True G (σ.threadOps fuel e G) := hok.fits
  have hfresh : ∀ t ∈ e.created, ∀ L, t ∉ G L := hok.fresh
  cases e with
  | createUserThread p priority thread =>
    obtain ⟨o, hcreate, rfl⟩ := Option.map_eq_some_iff.1 hrun
    cases thread with
    | none =>
      obtain rfl := Option.some.inj hcreate
      exact h
    | some t =>
      obtain ⟨τ, hτ, hrest⟩ := Option.bind_eq_some_iff.1 hcreate
      obtain ⟨ρ, hρ, rfl⟩ := Option.map_eq_some_iff.1 hrest
      obtain ⟨s, -, rfl⟩ := onList?_eq_some hτ
      obtain ⟨s', -, rfl⟩ := onList?_eq_some hρ
      refine h.create (hfresh t rfl) (fun u hu => setThread_thread_of_ne hu) ?_
      exact congrArg Thread.process setThread_thread_self
  | initProcessCreateThread p priority thread =>
    obtain ⟨o, hcreate, rfl⟩ := Option.map_eq_some_iff.1 hrun
    cases thread with
    | none =>
      obtain rfl := Option.some.inj hcreate
      exact h
    | some t => exact absurd hfits not_fitsAll_initProcess
  | createKernelThread priority thread =>
    cases thread with
    | none => exact absurd hrun (by simp [threadCall, schedCreateKernelThread])
    | some t =>
      obtain ⟨s, -, rfl⟩ := onList?_eq_some hrun
      have hG : ∀ L, L ≠ .kernelThreads → G.apply (.add .kernelThreads t) L = G L :=
        fun L hL => Function.update_of_ne hL _ _
      show Owned (G.apply (.add .kernelThreads t)) _
      refine h.congr (fun p => hG _ (by simp)) (hG _ (by simp)) fun u hu => ?_
      have hut : u ≠ t := fun hut => hfresh t rfl .userThreads (hut ▸ hu)
      exact congrArg Thread.process (setThread_thread_of_ne hut)
  | enqueue name t =>
    have hqueue : ∀ op ∈ σ.threadOps fuel (.enqueue name t) G, op.OnQueue :=
      fun op hop => List.mem_singleton.1 hop ▸ hok.queue name t rfl
    obtain ⟨s, -, rfl⟩ := onList?_eq_some hrun
    exact h.congr (fun p => applyAll_of_onQueue hqueue (by simp [IsQueue]))
      (applyAll_of_onQueue hqueue (by simp [IsQueue])) fun _ _ => rfl
  | sched e =>
    exact h.congr (fun p => applyAll_of_onQueue (callOps_onQueue e) (by simp [IsQueue]))
      (applyAll_of_onQueue (callOps_onQueue e) (by simp [IsQueue])) fun t _ => call_process hrun t
  | terminateAllThreads p =>
    obtain ⟨hempty, hops⟩ := terminate_of_fitsAll hfits
    obtain ⟨τ, hloop, rfl⟩ := Option.map_eq_some_iff.1 hrun
    have hthread := terminateLoop_thread hloop
    rw [hops, applyAll_clear hempty]
    exact h.congr (fun _ => rfl) rfl fun t _ => congrArg (fun th => (th t).process) hthread

/-! ### Runs -/

/-- **The lists of threads** keep their shape, their counts and their threads, and each process its
own, in every run of orderly calls. -/
theorem lists_in_order {G₀ : Members} {σ₀ : Sched} {evs : List ThreadCall}
    (h₀ : InOrder Every True G₀ σ₀) (hown₀ : Owned G₀ σ₀)
    (hall : EveryStep (threadStep fuel) (Orderly fuel) (σ₀, G₀) evs)
    (hrun : evs.foldlM (fun s e => threadStep fuel e s) (σ₀, G₀) = some (σ, G)) :
    InOrder Every True G σ ∧ Owned G σ := by
  refine hall.keeps (P := fun s => InOrder Every True s.2 s.1 ∧ Owned s.2 s.1) hrun ⟨h₀, hown₀⟩ ?_
  rintro ⟨σ, G⟩ e s' hok ⟨h, hown⟩ hstep
  obtain ⟨σ', hcall, rfl⟩ := Option.map_eq_some_iff.1 hstep
  exact ⟨threadCall_inOrder h hok hcall, threadCall_owned hown hok hcall⟩

/-! ### One process -/

/-- The threads `l` of process `p`, none of them in a queue. -/
def ofProcess (p : ℕ) (l : List ℕ) : Members := fun L =>
  if L = .userThreads ∨ L = .threads p then l else []

theorem ofProcess_create (p t : ℕ) (l : List ℕ) :
    (ofProcess p l).apply (.create p t) = ofProcess p (l ++ [t]) := by
  funext L
  rw [Members.apply, Function.update_apply, Function.update_apply]
  by_cases hu : L = .userThreads
  · simp [ofProcess, hu]
  · by_cases hp : L = .threads p
    · simp [ofProcess, hp]
    · simp [ofProcess, hu, hp]

/-- **The threads of one process** may come in any number: its list and `sched.user_threads` need
the same links. -/
theorem fits_ofProcess {l : List ℕ} (hnd : l.Nodup) (ht : t ∉ l) (hlen : l.length + 1 < 2 ^ 32) :
    (ThreadOp.create p t).Fits Every True (ofProcess p l) := by
  have hp : ofProcess p l (.threads p) = l := if_pos (.inr rfl)
  have hu : ofProcess p l .userThreads = l := if_pos (.inl rfl)
  refine ⟨⟨hp.symm ▸ ht, hu.symm ▸ ht⟩, fun _ => ⟨hp.symm ▸ hlen, hu.symm ▸ hlen⟩,
    fun w hw L _ hmem => ?_⟩
  rw [ThreadOp.writes, hp, hu] at hw
  rw [ofProcess_create, ofProcess] at hmem ⊢
  split at hmem
  · next hL =>
    rw [if_pos hL]
    rcases List.mem_cons.1 hw with rfl | hw
    · exact nodeAfter_snoc ht
    · obtain ⟨hlast, heq⟩ := mem_writesTail.1 ((List.mem_append.1 hw).elim id id)
      rw [heq]
      exact nodeAfter_last hnd hlast
  · exact absurd hmem List.not_mem_nil

/-- Two threads of one process. -/
theorem lists_in_order_ofProcess :
    ∃ σ, [ThreadCall.createUserThread 7 2 (some 2), .createUserThread 7 2 (some 3)].foldlM
        (fun s e => threadStep 2 e s) (hostSched, ofProcess 7 []) = some (σ, ofProcess 7 [2, 3]) ∧
      InOrder Every True (ofProcess 7 [2, 3]) σ ∧ Owned (ofProcess 7 [2, 3]) σ := by
  have hnone : ∀ L, ofProcess 7 [] L = [] := fun L => ite_self []
  have h₀ : InOrder Every True (ofProcess 7 []) hostSched := by
    refine ⟨fun L _ => ?_, fun _ L _ => ?_⟩ <;> rw [hnone L]
    · exact ⟨rfl, rfl⟩
    · rfl
  have hown₀ : Owned (ofProcess 7 []) hostSched := fun p t => by simp [hnone]
  have hstep : ∀ {σ : Sched} {s : Sched × Members} {l : List ℕ} {t : ℕ},
      threadStep 2 (.createUserThread 7 2 (some t)) (σ, ofProcess 7 l) = some s →
      ∃ σ', s = (σ', ofProcess 7 (l ++ [t])) := by
    intro σ s l t hs
    obtain ⟨σ', -, rfl⟩ := Option.map_eq_some_iff.1 hs
    exact ⟨σ', congrArg (Prod.mk σ') (ofProcess_create 7 t l)⟩
  have hok : ∀ {σ : Sched} {l : List ℕ} {t : ℕ}, l.Nodup → t ∉ l → l.length + 1 < 2 ^ 32 →
      Orderly 2 (σ, ofProcess 7 l) (.createUserThread 7 2 (some t)) := by
    intro σ l t hnd ht hlen
    refine ⟨fun u hu L => ?_, by simp, fits_ofProcess hnd ht hlen, trivial⟩
    obtain rfl : t = u := Option.some.inj hu
    show t ∉ ofProcess 7 l L
    rw [ofProcess]
    split
    · exact ht
    · exact List.not_mem_nil
  obtain ⟨s, hrun⟩ := Option.isSome_iff_exists.1 (show
    ([ThreadCall.createUserThread 7 2 (some 2), .createUserThread 7 2 (some 3)].foldlM
      (fun s e => threadStep 2 e s) (hostSched, ofProcess 7 [])).isSome = true by decide)
  obtain ⟨s₁, hs₁, hrest⟩ := foldlM_cons_eq_some.1 hrun
  obtain ⟨s₂, hs₂, hend⟩ := foldlM_cons_eq_some.1 hrest
  obtain ⟨σ₁, rfl⟩ := hstep hs₁
  obtain ⟨σ₂, rfl⟩ := hstep hs₂
  obtain rfl := Option.some.inj hend
  have hall : EveryStep (threadStep 2) (Orderly 2) (hostSched, ofProcess 7 [])
      [.createUserThread 7 2 (some 2), .createUserThread 7 2 (some 3)] := by
    refine ⟨hok List.nodup_nil (by simp) (by decide), fun s hs => ?_⟩
    obtain ⟨σ', rfl⟩ := hstep hs
    exact ⟨hok (by simp) (by simp) (by decide), fun _ _ => trivial⟩
  exact ⟨σ₂, hrun, lists_in_order h₀ hown₀ hall hrun⟩

/-- The first thread of a process is added to its list twice, and follows itself there. -/
theorem not_lists_in_order :
    ¬ ∀ (fuel : ℕ) (G₀ G : Members) (σ₀ σ : Sched) (evs : List ThreadCall), InOrder Every True G₀ σ₀ →
      Owned G₀ σ₀ → evs.foldlM (fun s e => threadStep fuel e s) (σ₀, G₀) = some (σ, G) →
      ∀ L, ∃ l, Shaped l (σ.list L, σ.next) ∧ (σ.list L).count = l.length := by
  intro h
  have h₀ : InOrder Every True (fun _ => []) hostSched := ⟨fun _ _ => ⟨rfl, rfl⟩, fun _ _ _ => rfl⟩
  obtain ⟨⟨σ, G⟩, hrun, hloop⟩ : ∃ s, [ThreadCall.initProcessCreateThread 7 2 (some 2)].foldlM
      (fun s e => threadStep 2 e s) (hostSched, fun _ => []) = some s ∧
      (s.1.next 2, (s.1.list (.threads 7)).head) = (some 2, some 2) :=
    Option.map_eq_some_iff.1 (show Option.map (fun s : Sched × Members =>
      (s.1.next 2, (s.1.list (.threads 7)).head)) _ = some (some 2, some 2) by decide)
  obtain ⟨hnext, hhead⟩ := Prod.mk.inj hloop
  obtain ⟨l, hl, -⟩ := h 2 _ G hostSched σ _ h₀ (fun p t => by simp) hrun (.threads 7)
  have hchain : Chain σ.next (some 2) l := hhead ▸ hl.chain
  cases l with
  | nil => exact absurd hchain (by simp)
  | cons u l =>
    obtain rfl : u = 2 := (Option.some.inj hchain.1).symm
    have hagain : Chain σ.next (some 2) l := hnext ▸ hchain.2
    have hlen := congrArg List.length (hagain.unique hchain)
    simp at hlen

end Sched

end Flopperating
