/-
# A server that takes one request at a time

Requests arrive, ticks come from outside, and the server answers with three kinds of events: a
request is started, it is finished with some outcome, and whoever waits for it gets a reply.  A
trace is the list of all of these, oldest first.

`Serves q T` says that `T` is a trace of a first-in first-out server that has `q` waiting at its
end: an arrival is started at once when nothing waits, and a tick finishes the first of the
waiting requests, replies, and starts the one behind it.  The lemmas read the order of service off
such a trace.
-/

import Mathlib.Data.List.Basic
import Mathlib.Tactic.TypeStar

namespace FifoServer

variable {α β γ : Type*}

/-- What a trace records. -/
inductive Event (α β γ : Type*)
  | arrive (a : α)
  | tick
  | start (a : α)
  | finish (a : α) (b : β)
  | reply (a : α) (b : β) (c : γ)
  deriving DecidableEq

/-- The requests that arrived. -/
def arrivals (T : List (Event α β γ)) : List α := T.filterMap fun e => match e with
  | .arrive a => some a
  | _ => none

/-- The requests that were started. -/
def starts (T : List (Event α β γ)) : List α := T.filterMap fun e => match e with
  | .start a => some a
  | _ => none

/-- The requests that were finished. -/
def finishes (T : List (Event α β γ)) : List α := T.filterMap fun e => match e with
  | .finish a _ => some a
  | _ => none

/-- The requests that arrived and were not finished, when they are finished in order. -/
def waiting (T : List (Event α β γ)) : List α := (arrivals T).drop (finishes T).length

/-- What the server does at a tick: the outcome is `b`, and `c` gets the reply. -/
def answer (b : β) (c : Option γ) : List α → List (Event α β γ)
  | [] => []
  | a :: q => .finish a b :: ((c.map (.reply a b)).toList ++ (q.head?.map .start).toList)

/-- The traces of the server, with what waits at the end. -/
inductive Serves : List α → List (Event α β γ) → Prop
  | nil : Serves [] []
  | first {T} (a : α) : Serves [] T → Serves [a] (T ++ [.arrive a, .start a])
  | behind {x q T} (a : α) : Serves (x :: q) T → Serves (x :: q ++ [a]) (T ++ [.arrive a])
  | tick {q T} (b : β) (c : Option γ) : Serves q T → Serves q.tail (T ++ .tick :: answer b c q)

variable {T T' : List (Event α β γ)} {q : List α} {a : α} {b : β} {c : Option γ}

@[simp] theorem arrivals_append : arrivals (T ++ T') = arrivals T ++ arrivals T' :=
  List.filterMap_append

@[simp] theorem starts_append : starts (T ++ T') = starts T ++ starts T' := List.filterMap_append

@[simp] theorem finishes_append : finishes (T ++ T') = finishes T ++ finishes T' :=
  List.filterMap_append

theorem accounts_reply : arrivals (c.map (Event.reply a b)).toList = [] ∧
    starts (c.map (Event.reply a b)).toList = [] ∧ finishes (c.map (Event.reply a b)).toList = [] := by
  cases c <;> exact ⟨rfl, rfl, rfl⟩

/-- A tick finishes the first of the waiting requests and starts the second. -/
theorem accounts_answer : arrivals (answer b c q) = [] ∧ starts (answer b c q) = q.tail.head?.toList ∧
    finishes (answer b c q) = q.head?.toList := by
  obtain _ | ⟨x, _ | ⟨y, q⟩⟩ := q
  · exact ⟨rfl, rfl, rfl⟩
  · cases c <;> exact ⟨rfl, rfl, rfl⟩
  · cases c <;> exact ⟨rfl, rfl, rfl⟩

/-- Every request is started after all that were started before it have been finished. -/
def Alone (T : List (Event α β γ)) : Prop :=
  ∀ T₁ a T₂, T = T₁ ++ .start a :: T₂ → starts T₁ = finishes T₁

theorem Alone.snoc {e : Event α β γ} (h : Alone T) (he : ∀ a, e = .start a → starts T = finishes T) :
    Alone (T ++ [e]) := by
  intro T₁ a T₂ heq
  rcases List.eq_nil_or_concat T₂ with rfl | ⟨T₃, x, rfl⟩
  · obtain ⟨rfl, hlast⟩ := List.append_inj' heq rfl
    exact he a (List.cons.inj hlast).1
  · rw [List.concat_eq_append, ← List.cons_append, ← List.append_assoc] at heq
    exact h T₁ a T₃ (List.append_inj' heq rfl).1

/-- Events that are no starts. -/
theorem Alone.append (h : Alone T) (hT' : starts T' = []) : Alone (T ++ T') := by
  induction T' generalizing T with
  | nil => rwa [List.append_nil]
  | cons e T' ih =>
    rw [← List.singleton_append, starts_append, List.append_eq_nil_iff] at hT'
    rw [← List.singleton_append, ← List.append_assoc]
    refine ih (h.snoc fun a he => ?_) hT'.2
    rw [he] at hT'
    exact absurd hT'.1 (by simp [starts])

/-! ### What a trace of the server says -/

/-- **First in, first out**: what was finished is what arrived, but for what waits. -/
theorem Serves.arrivals_eq (h : Serves q T) : arrivals T = finishes T ++ q := by
  induction h with
  | nil => rfl
  | first a _ ih =>
    rw [arrivals_append, finishes_append, ih, List.append_nil]
    exact congrArg (· ++ [a]) (List.append_nil _).symm
  | @behind x q T a _ ih =>
    rw [arrivals_append, finishes_append, ih, List.append_assoc]
    exact congrArg (· ++ (x :: q ++ [a])) (List.append_nil _).symm
  | @tick q T b c _ ih =>
    obtain ⟨harrive, -, hfinish⟩ := accounts_answer (b := b) (c := c) (q := q)
    have harrive : arrivals (.tick :: answer b c q) = [] := harrive
    have hfinish : finishes (.tick :: answer b c q) = q.head?.toList := hfinish
    rw [arrivals_append, finishes_append, ih, harrive, hfinish, List.append_nil, List.append_assoc]
    cases q <;> rfl

theorem Serves.waiting_eq (h : Serves q T) : waiting T = q := by
  rw [waiting, h.arrivals_eq, List.drop_left]

/-- **The first of the waiting requests is the one in service.** -/
theorem Serves.starts_eq (h : Serves q T) : starts T = finishes T ++ q.head?.toList := by
  induction h with
  | nil => rfl
  | first a _ ih =>
    rw [starts_append, finishes_append, ih, List.head?_nil, Option.toList_none, List.append_nil]
    exact congrArg (· ++ [a]) (List.append_nil _).symm
  | @behind x q T a _ ih =>
    rw [starts_append, finishes_append, ih, List.append_assoc, List.append_assoc]
    rfl
  | @tick q T b c _ ih =>
    obtain ⟨-, hstart, hfinish⟩ := accounts_answer (b := b) (c := c) (q := q)
    have hstart : starts (.tick :: answer b c q) = q.tail.head?.toList := hstart
    have hfinish : finishes (.tick :: answer b c q) = q.head?.toList := hfinish
    rw [starts_append, finishes_append, ih, hstart, hfinish]

/-- **One at a time.** -/
theorem Serves.alone (h : Serves q T) : Alone T := by
  induction h with
  | nil =>
    intro T₁ a T₂ heq
    exact absurd heq (by simp)
  | @first T a hT ih =>
    have hsame : starts (T ++ [.arrive a]) = finishes (T ++ [.arrive a]) := by
      rw [starts_append, finishes_append, hT.starts_eq, List.head?_nil, Option.toList_none, List.append_nil]
      rfl
    rw [← List.singleton_append, ← List.append_assoc]
    exact (ih.append rfl).snoc fun _ _ => hsame
  | behind a _ ih => exact ih.append rfl
  | @tick q T b c hT ih =>
    cases q with
    | nil => exact ih.append rfl
    | cons x q =>
      have hreply := accounts_reply (a := x) (b := b) (c := c)
      -- up to the start of the next request there is none, and the last one is finished
      have hquiet : starts (.tick :: .finish x b :: (c.map (Event.reply x b)).toList) = [] := hreply.2.1
      have hfinish : finishes (.tick :: .finish x b :: (c.map (Event.reply x b)).toList) = [x] := by
        change x :: finishes (c.map (Event.reply x b)).toList = [x]
        rw [hreply.2.2]
      have hsame : starts (T ++ .tick :: .finish x b :: (c.map (Event.reply x b)).toList) =
          finishes (T ++ .tick :: .finish x b :: (c.map (Event.reply x b)).toList) := by
        rw [starts_append, finishes_append, hquiet, hfinish, hT.starts_eq, List.append_nil]
        rfl
      have hall := ih.append hquiet
      cases q with
      | nil => simpa [answer] using hall
      | cons y q =>
        have hnext := hall.snoc (e := .start y) fun _ _ => hsame
        simpa [answer] using hnext

end FifoServer
