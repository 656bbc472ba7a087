/-
# Requests to the drive are served in order

The calls of `ata_submit` and `ata_irq_handler`, each atomic under `ata_lock`, in any order, and
between them the writes of those who own the request objects.  A request is started in two places:
by `ata_submit` when the queue was empty, and by the interrupt handler when something waits behind
the request it has just finished.

The queue of the code is the list of what waits (`Ata.Shape`), and the record of a run is a trace
of the server of `Flopperating.Data.FifoServer` (`Ata.Inv`).  What a run does is then what such a
trace says: `ata_serves`.

The owners keep to two rules.  A request object that waits is not submitted again, and its link is
not written; its other fields may be.
-/

import Flopperating.Data.LinkedList
import Flopperating.Data.Transition
import Flopperating.Drivers.AtaTransfer
import Mathlib.Order.Interval.Finset.Nat

namespace Flopperating

open FifoServer LinkedList Transition

namespace Ata

variable {σ σ' : Ata} {q : List ℕ} {req r : ℕ} {w : AtaStore} {callback : List AtaStore} {st : ℤ}

/-! ### The queue as a list -/

/-- The queue is the list `q` of request objects. -/
structure Shape (σ : Ata) (q : List ℕ) : Prop where
  chain : Chain σ.next σ.queue.head q
  tail : σ.queue.tail = q.getLast?
  length : σ.queue.length = q.length
  valid : ∀ r ∈ q, 0 < r ∧ r < 2 ^ 32

theorem Shape.congr (h : Shape σ q) (hqueue : σ'.queue = σ.queue) (hnext : σ'.next = σ.next) :
    Shape σ' q where
  chain := by rw [hnext, hqueue]; exact h.chain
  tail := by rw [hqueue]; exact h.tail
  length := by rw [hqueue]; exact h.length
  valid := h.valid

/-- There are fewer objects than addresses. -/
theorem length_lt_of_valid (hnd : q.Nodup) (hvalid : ∀ r ∈ q, 0 < r ∧ r < 2 ^ 32) : q.length < 2 ^ 32 := by
  have hsub : q.toFinset ⊆ Finset.Ico 1 (2 ^ 32) := fun r hr => by
    have := hvalid r (List.mem_toFinset.1 hr)
    exact Finset.mem_Ico.2 ⟨this.1, this.2⟩
  have hcard := Finset.card_le_card hsub
  rw [List.toFinset_card_of_nodup hnd, Nat.card_Ico] at hcard
  omega

theorem Shape.enqueue (h : Shape σ q) (hreq : req ∉ q) (hvalid : 0 < req ∧ req < 2 ^ 32) :
    Shape (ataQueueEnqueueUnlocked req σ) (q ++ [req]) := by
  have hchain : Chain (Function.update σ.next req none) σ.queue.head q := h.chain.update hreq
  have hvalid : ∀ r ∈ q ++ [req], 0 < r ∧ r < 2 ^ 32 := fun r hr => by
    rcases List.mem_append.1 hr with hr | hr
    · exact h.valid r hr
    · rwa [List.mem_singleton.1 hr]
  have hlen : (q ++ [req]).length < 2 ^ 32 :=
    length_lt_of_valid (nodup_snoc.2 ⟨h.chain.nodup, hreq⟩) hvalid
  rw [List.length_append, List.length_singleton] at hlen
  have hcount : u32 (σ.queue.length + 1) = (q ++ [req]).length := by
    rw [h.length, u32_of_lt hlen, List.length_append, List.length_singleton]
  rcases List.eq_nil_or_concat q with rfl | ⟨l, t, rfl⟩
  · have htail : σ.queue.tail = none := h.tail
    rw [ataQueueEnqueueUnlocked, htail]
    exact ⟨⟨rfl, Function.update_self ..⟩, rfl, hcount, hvalid⟩
  · rw [List.concat_eq_append] at *
    have htail : σ.queue.tail = some t := by rw [h.tail, List.getLast?_concat]
    rw [ataQueueEnqueueUnlocked, htail]
    exact ⟨hchain.snoc hreq (Function.update_self ..), (List.getLast?_concat ..).symm, hcount, hvalid⟩

theorem Shape.dequeue (h : Shape σ (r :: q)) : Shape (ataQueueDequeueUnlocked σ) q := by
  have hhead : σ.queue.head = some r := h.chain.1
  have hnd := List.nodup_cons.1 h.chain.nodup
  have hlen := length_lt_of_valid h.chain.nodup h.valid
  have hrest : Chain σ.next (σ.next r) q := h.chain.2
  rw [ataQueueDequeueUnlocked, hhead]
  refine ⟨hrest.update hnd.1, ?_, ?_, fun x hx => h.valid x (List.mem_cons_of_mem _ hx)⟩
  · change (if σ.next r = none then none else σ.queue.tail) = q.getLast?
    rw [hrest.head_eq, h.tail]
    cases q with
    | nil => rfl
    | cons x q => rw [List.getLast?_cons_cons]; rfl
  · change u32 (σ.queue.length + 2 ^ 32 - 1) = q.length
    rw [List.length_cons] at hlen
    rw [h.length, List.length_cons]
    unfold u32
    omega

/-- A write that leaves the links of `q`. -/
def Spares (q : List ℕ) : AtaStore → Prop
  | .fields _ _ => True
  | .link req _ => req ∉ q

instance decidableSpares (q : List ℕ) : DecidablePred (Spares q)
  | .fields _ _ => isTrue trivial
  | .link req _ => inferInstanceAs (Decidable (req ∉ q))

theorem Shape.store (h : Shape σ q) (hw : Spares q w) : Shape (σ.store w) q := by
  cases w with
  | fields req r => exact h.congr rfl rfl
  | link req p => exact ⟨h.chain.update hw, h.tail, h.length, h.valid⟩

theorem Shape.storeAll (h : Shape σ q) (hw : ∀ w ∈ callback, Spares q w) :
    Shape (callback.foldl Ata.store σ) q := by
  induction callback generalizing σ with
  | nil => exact h
  | cons w callback ih =>
    exact ih (h.store (hw w List.mem_cons_self)) fun v hv => hw v (List.mem_cons_of_mem _ hv)

/-! ### What the functions leave -/

@[simp] theorem enqueue_trace : (ataQueueEnqueueUnlocked req σ).trace = σ.trace := by
  unfold ataQueueEnqueueUnlocked
  cases σ.queue.tail <;> rfl

@[simp] theorem dequeue_trace : (ataQueueDequeueUnlocked σ).trace = σ.trace := by
  unfold ataQueueDequeueUnlocked
  cases σ.queue.head <;> rfl

@[simp] theorem dequeue_requests : (ataQueueDequeueUnlocked σ).requests = σ.requests := by
  unfold ataQueueDequeueUnlocked
  cases σ.queue.head <;> rfl

@[simp] theorem store_queue : (σ.store w).queue = σ.queue := by cases w <;> rfl

@[simp] theorem store_trace : (σ.store w).trace = σ.trace := by cases w <;> rfl

theorem storeAll_queue : (callback.foldl Ata.store σ).queue = σ.queue := by
  induction callback generalizing σ with
  | nil => rfl
  | cons w callback ih => exact ih.trans store_queue

theorem storeAll_trace : (callback.foldl Ata.store σ).trace = σ.trace := by
  induction callback generalizing σ with
  | nil => rfl
  | cons w callback ih => exact ih.trans store_trace

theorem complete_queue : (ataComplete req st callback σ).queue = σ.queue := by
  unfold ataComplete
  cases (σ.requests req).completion with
  | none => rfl
  | some c => exact storeAll_queue

theorem complete_trace : (ataComplete req st callback σ).trace =
    σ.trace ++ ((σ.requests req).completion.map (.reply req st)).toList := by
  unfold ataComplete
  cases (σ.requests req).completion with
  | none => exact (List.append_nil _).symm
  | some c => exact storeAll_trace

theorem Shape.complete (h : Shape σ q) (hw : ∀ w ∈ callback, Spares q w) :
    Shape (ataComplete req st callback σ) q := by
  unfold ataComplete
  cases (σ.requests req).completion with
  | none => exact h
  | some c => exact Shape.storeAll (h.congr rfl rfl) hw

theorem startNext_trace : (ataStartNext σ).trace = σ.trace ++ (σ.queue.head.map .start).toList := by
  unfold ataStartNext
  cases σ.queue.head with
  | none => exact (List.append_nil _).symm
  | some next => rfl

theorem Shape.startNext (h : Shape σ q) : Shape (ataStartNext σ) q := by
  unfold ataStartNext
  cases σ.queue.head with
  | none => exact h
  | some next => exact h.congr rfl rfl

/-! ### The two calls -/

/-- The queue is `q`, and the run so far was one of the server with `q` waiting. -/
structure Inv (σ : Ata) (q : List ℕ) : Prop where
  shape : Shape σ q
  serves : Serves q σ.trace

theorem Inv.submit (h : Inv σ q) (hreq : req ∉ q) (hvalid : 0 < req ∧ req < 2 ^ 32) :
    Inv (ataSubmit req σ) (q ++ [req]) := by
  have harrive : Shape (σ.record (.arrive req)) q := h.shape.congr rfl rfl
  have hshape := harrive.enqueue hreq hvalid
  have htrace : (ataQueueEnqueueUnlocked req (σ.record (.arrive req))).trace = σ.trace ++ [.arrive req] :=
    enqueue_trace
  have hhead : σ.queue.head = q.head? := h.shape.chain.head_eq
  unfold ataSubmit
  cases q with
  | nil =>
    have hempty : σ.queue.head = none := hhead
    rw [if_pos hempty]
    refine ⟨hshape.congr rfl rfl, ?_⟩
    change Serves [req] ((ataQueueEnqueueUnlocked req (σ.record (.arrive req))).trace ++ [.start req])
    rw [htrace, List.append_assoc]
    exact h.serves.first req
  | cons x q =>
    have hfull : σ.queue.head ≠ none := by rw [hhead]; exact Option.some_ne_none x
    rw [if_neg hfull]
    refine ⟨hshape, ?_⟩
    rw [htrace]
    exact h.serves.behind req

/-- An interrupt while nothing waits. -/
theorem irq_idle (drive : AtaDrive) (fuel : ℕ) (callback : List AtaStore) (h : σ.queue.head = none) :
    ataIrqHandler drive fuel callback σ =
      some { σ with io := (inbStatus drive σ.io).2, trace := σ.trace ++ [.tick] } := by
  unfold ataIrqHandler
  simp only [record, h]

/-- An interrupt while `r` is in service, and what the record says of it. -/
theorem Shape.irq (h : Shape σ (r :: q)) (drive : AtaDrive) (fuel : ℕ) (callback : List AtaStore) :
    ∃ st σ', ataIrqHandler drive fuel callback σ = some σ' ∧
      σ'.trace = σ.trace ++ .tick :: answer st (σ.requests r).completion (r :: q) ∧
      ((∀ w ∈ callback, Spares q w) → Shape σ' q) := by
  have hhead : σ.queue.head = some r := h.chain.1
  obtain ⟨⟨st, io⟩, hfinish⟩ : ∃ out, ataFinishRequest drive fuel (σ.requests r)
      (inbStatus drive σ.io).2 = some out := ⟨_, ataFinishRequest_eq ..⟩
  let σ₁ : Ata := { σ with io := io, trace := σ.trace ++ [.tick] ++ [.finish r st] }
  have hfinished : Shape σ₁ (r :: q) := h.congr rfl rfl
  have hshape := hfinished.dequeue
  refine ⟨st, ataStartNext (ataComplete r st callback (ataQueueDequeueUnlocked σ₁)), ?_, ?_, fun hw =>
    (hshape.complete hw).startNext⟩
  · unfold ataIrqHandler
    simp only [record, hhead, hfinish, Option.map_some]
    rfl
  · rw [startNext_trace, complete_trace, complete_queue, hshape.chain.head_eq, dequeue_trace,
      dequeue_requests]
    change σ.trace ++ [.tick] ++ [.finish r st] ++ ((σ.requests r).completion.map (.reply r st)).toList ++
      (q.head?.map .start).toList = _
    simp only [answer, List.append_assoc, List.cons_append, List.nil_append]

/-! ### Runs -/

/-- What can happen between two states. -/
inductive Call
  | submit (req : ℕ)
  | irq (fuel : ℕ) (callback : List AtaStore)
  | store (w : AtaStore)

def call (drive : AtaDrive) : Call → Ata → Option Ata
  | .submit req, σ => some (ataSubmit req σ)
  | .irq fuel callback, σ => ataIrqHandler drive fuel callback σ
  | .store w, σ => some (σ.store w)

/-- The rules the owners of request objects keep to. -/
def Allowed (σ : Ata) : Call → Prop
  | .submit req => (0 < req ∧ req < 2 ^ 32) ∧ req ∉ waiting σ.trace
  | .irq _ callback => ∀ w ∈ callback, Spares (waiting σ.trace).tail w
  | .store w => Spares (waiting σ.trace) w

instance decidableAllowed (σ : Ata) : DecidablePred (Allowed σ)
  | .submit req => inferInstanceAs (Decidable ((0 < req ∧ req < 2 ^ 32) ∧ req ∉ waiting σ.trace))
  | .irq _ callback => inferInstanceAs (Decidable (∀ w ∈ callback, Spares (waiting σ.trace).tail w))
  | .store w => decidableSpares _ w

/-- The state after `ata_queue_init`. -/
def Booted (σ : Ata) : Prop := ∃ σ₀ : Ata, σ₀.trace = [] ∧ σ = ataQueueInit σ₀

/-- The states of the runs with a drive. -/
abbrev Reached (drive : AtaDrive) (σ : Ata) : Prop :=
  Reach Booted (fun σ c σ' => Allowed σ c ∧ call drive c σ = some σ') σ

theorem inv_of_booted (h : Booted σ) : Inv σ [] := by
  obtain ⟨σ₀, htrace, rfl⟩ := h
  refine ⟨⟨rfl, rfl, rfl, fun r hr => absurd hr List.not_mem_nil⟩, ?_⟩
  change Serves [] σ₀.trace
  rw [htrace]
  exact .nil

/-- **One call keeps the invariant.** -/
theorem Inv.call {drive : AtaDrive} {c : Call} (h : Inv σ q) (hok : Allowed σ c)
    (hrun : call drive c σ = some σ') : ∃ q', Inv σ' q' := by
  have hwaiting := h.serves.waiting_eq
  cases c with
  | submit req =>
    obtain rfl := Option.some.inj hrun
    rw [Allowed, hwaiting] at hok
    exact ⟨_, h.submit hok.2 hok.1⟩
  | irq fuel callback =>
    rw [Allowed, hwaiting] at hok
    cases q with
    | nil =>
      obtain rfl := Option.some.inj ((irq_idle drive fuel callback h.shape.chain).symm.trans hrun)
      exact ⟨[], h.shape.congr rfl rfl, h.serves.tick 0 none⟩
    | cons r q =>
      obtain ⟨st, σ'', hirq, htrace, hkeep⟩ := h.shape.irq drive fuel callback
      obtain rfl := Option.some.inj (hirq.symm.trans hrun)
      refine ⟨q, hkeep hok, ?_⟩
      rw [htrace]
      exact h.serves.tick st _
  | store w =>
    obtain rfl := Option.some.inj hrun
    rw [Allowed, hwaiting] at hok
    refine ⟨q, h.shape.store hok, ?_⟩
    rw [store_trace]
    exact h.serves

theorem Reached.inv {drive : AtaDrive} (h : Reached drive σ) : ∃ q, Inv σ q :=
  Reach.invariant (P := fun σ => ∃ q, Inv σ q) h (fun _ hs => ⟨[], inv_of_booted hs⟩) fun _ _ _ _ ⟨_, hq⟩ hstep => hq.call hstep.1 hstep.2

/-- What the record of a run says of the order of service. -/
structure InOrder (T : List AtaEvent) : Prop where
  started : starts T <+: arrivals T
  finished : finishes T <+: starts T
  alone : ∀ T₁ r T₂, T = T₁ ++ .start r :: T₂ → starts T₁ = finishes T₁

theorem inOrder_of_serves {T : List AtaEvent} (h : Serves q T) : InOrder T where
  started := by
    rw [h.starts_eq, h.arrivals_eq]
    cases q with
    | nil => exact List.prefix_rfl
    | cons x q => exact (List.prefix_append_right_inj _).2 ⟨q, rfl⟩
  finished := by
    rw [h.starts_eq]
    exact List.prefix_append _ _
  alone := h.alone

/-- **Requests are served in order, exactly once.**  In every state that calls lead to, requests
were started in the order they arrived, each when all before it were finished, and finished in
that order; the queue is the list of those that arrived and were not finished, `length` counts
them, and the first of them is the one that has been started and not finished.  An interrupt
returns; it does nothing when the queue is empty, and otherwise finishes the first request, calls
its callback if it has one, and starts the request behind it. -/
theorem serves_in_order {drive : AtaDrive} (h : Reached drive σ) :
    InOrder σ.trace ∧ Chain σ.next σ.queue.head (waiting σ.trace) ∧
      σ.queue.length = (waiting σ.trace).length ∧
      starts σ.trace = finishes σ.trace ++ σ.queue.head.toList ∧
      ∀ fuel callback, ∃ σ', ataIrqHandler drive fuel callback σ = some σ' ∧
        (σ.queue.head = none →
          σ' = { σ with io := (inbStatus drive σ.io).2, trace := σ.trace ++ [.tick] }) ∧
        ∀ r, σ.queue.head = some r → ∃ st, σ'.trace = σ.trace ++ .tick :: .finish r st ::
          (((σ.requests r).completion.map (.reply r st)).toList ++
            ((waiting σ.trace).tail.head?.map .start).toList) := by
  obtain ⟨q, hshape, hserves⟩ := Reached.inv h
  rw [hserves.waiting_eq]
  refine ⟨inOrder_of_serves hserves, hshape.chain, hshape.length, ?_, fun fuel callback => ?_⟩
  · rw [hserves.starts_eq, hshape.chain.head_eq]
  · cases q with
    | nil =>
      have hnone : σ.queue.head = none := hshape.chain
      refine ⟨_, irq_idle drive fuel callback hnone, fun _ => rfl, fun r hr => ?_⟩
      exact absurd (hnone.symm.trans hr) (by simp)
    | cons x q =>
      have hsome : σ.queue.head = some x := hshape.chain.1
      obtain ⟨st, σ', hirq, htrace, -⟩ := hshape.irq drive fuel callback
      refine ⟨σ', hirq, fun hnone => absurd (hsome.symm.trans hnone) (by simp), fun r hr => ?_⟩
      obtain rfl : x = r := Option.some.inj (hsome.symm.trans hr)
      exact ⟨st, htrace⟩

/-- No request has been made; all objects ask for a sector, and have a callback. -/
def readRequests : Ata :=
  ataQueueInit ⟨⟨none, none, 0⟩, fun _ => ⟨.read, 0, 0, 1, 4096, some 7⟩, fun _ => none, ⟨[], fun _ => 0⟩, []⟩

/-- Two requests, of which the first is submitted again before the second is finished. -/
def overlapping : List Call := [.submit 64, .submit 128, .irq 1 [], .submit 64, .irq 1 []]

theorem serves_in_order_overlapping : ∃ σ, (overlapping.foldlM (fun σ c =>
    if Allowed σ c then call AtaRequest.quietDrive c σ else none) readRequests) = some σ ∧
      starts σ.trace = [64, 128, 64] ∧ InOrder σ.trace ∧ σ.queue.length = (waiting σ.trace).length := by
  obtain ⟨σ, hrun, hstarts⟩ : ∃ σ, (overlapping.foldlM (fun σ c =>
      if Allowed σ c then call AtaRequest.quietDrive c σ else none) readRequests) = some σ ∧
        starts σ.trace = [64, 128, 64] :=
    Option.map_eq_some_iff.1
      (show Option.map (fun σ : Ata => starts σ.trace) _ = some [64, 128, 64] by decide +kernel)
  have h := serves_in_order (Reach.of_guarded ⟨_, rfl, rfl⟩ hrun)
  exact ⟨σ, hrun, hstarts, h.1, h.2.2.1⟩

end Ata

end Flopperating
