/-
# Runs of a transition system

A system is a set of starting states and a step relation labelled by the
operation performed.  `Reach init step s` says that `s` is reached by some
finite run, of any length and with any operations in any order.  An invariant
is proved once, for the starting states and for one step
(`Reach.invariant`); a restriction on the operations of a run is a stronger
step relation (`Reach.mono`).  When the step is a function, a run is a list of operations
(`Reach.of_foldlM`, `Reach.of_guarded`), and its steps can be spoken of: whether one of them, or
each, has a property of its state and operation, and how many have (`SomeStep`, `EveryStep`,
`tally`).  `keeps_or_someStep` is about a property that only such a step can end, `tally_le` about a
count that a potential pays for.
-/

import Mathlib.Algebra.Order.Ring.Nat
import Mathlib.Tactic.TypeStar

namespace Transition

variable {σ : Type*} {α : Type*} {init init' : σ → Prop} {step step' : σ → α → σ → Prop}

/-- The states reached by finite runs. -/
inductive Reach (init : σ → Prop) (step : σ → α → σ → Prop) : σ → Prop
  | init {s : σ} : init s → Reach init step s
  | step {s s' : σ} (a : α) : Reach init step s → step s a s' → Reach init step s'

/-- **Induction over a run**: what holds at the start and survives every step
holds wherever a run leads.  The step may use that its source is reached. -/
theorem Reach.invariant {P : σ → Prop} {s : σ} (h : Reach init step s) (h₀ : ∀ s, init s → P s)
    (h₁ : ∀ s a s', Reach init step s → P s → step s a s' → P s') : P s := by
  induction h with
  | init hs => exact h₀ _ hs
  | step a hs hstep ih => exact h₁ _ a _ hs ih hstep

/-- More starting states and more steps reach more. -/
theorem Reach.mono {s : σ} (h : Reach init step s) (h₀ : ∀ s, init s → init' s)
    (h₁ : ∀ s a s', step s a s' → step' s a s') : Reach init' step' s :=
  h.invariant (fun _ hs => .init (h₀ _ hs)) fun _ a _ _ ih hs => .step a ih (h₁ _ _ _ hs)

/-- A sequence of operations that runs through reaches a state. -/
theorem Reach.of_foldlM {run : α → σ → Option σ} {s s' : σ} {ops : List α}
    (h : Reach init (fun s a s' => run a s = some s') s)
    (hrun : ops.foldlM (fun s a => run a s) s = some s') :
    Reach init (fun s a s' => run a s = some s') s' := by
  induction ops generalizing s with
  | nil =>
    obtain rfl : s = s' := Option.some.inj hrun
    exact h
  | cons a ops ih =>
    rw [List.foldlM_cons] at hrun
    obtain ⟨t, ht, hrun⟩ := Option.bind_eq_some_iff.1 hrun
    exact ih (h.step a ht) hrun

/-- A sequence of operations that runs through, each allowed where it is made. -/
theorem Reach.of_guarded {run : α → σ → Option σ} {ok : σ → α → Prop} {_ : ∀ s a, Decidable (ok s a)}
    {s s' : σ} {ops : List α} (h : init s)
    (hrun : ops.foldlM (fun s a => if ok s a then run a s else none) s = some s') :
    Reach init (fun s a s' => ok s a ∧ run a s = some s') s' := by
  refine Reach.mono (Reach.of_foldlM (.init h) hrun) (fun _ hs => hs) fun s a s' hstep => ?_
  split at hstep
  · next hok => exact ⟨hok, hstep⟩
  · exact absurd hstep (by simp)

section Steps

variable {run : α → σ → Option σ} {P : σ → Prop} {Q R C : σ → α → Prop} {s s' : σ} {ops : List α}

/-- Some step of the run of `ops` from `s` is one of `Q`. -/
def SomeStep (run : α → σ → Option σ) (Q : σ → α → Prop) : σ → List α → Prop
  | _, [] => False
  | s, a :: ops => Q s a ∨ ∃ t, run a s = some t ∧ SomeStep run Q t ops

/-- Every step of the run of `ops` from `s` is one of `C`. -/
def EveryStep (run : α → σ → Option σ) (C : σ → α → Prop) : σ → List α → Prop
  | _, [] => True
  | s, a :: ops => C s a ∧ ∀ t, run a s = some t → EveryStep run C t ops

/-- The number of steps of the run of `ops` from `s` that are of `Q`. -/
def tally (run : α → σ → Option σ) (Q : σ → α → Prop) [∀ s a, Decidable (Q s a)] :
    σ → List α → ℕ
  | _, [] => 0
  | s, a :: ops => (if Q s a then 1 else 0) + ((run a s).map fun t => tally run Q t ops).getD 0

instance decidableSomeStep [∀ s a, Decidable (Q s a)] :
    ∀ s ops, Decidable (SomeStep run Q s ops)
  | _, [] => isFalse id
  | s, a :: ops =>
    match h : run a s with
    | none => decidable_of_iff (Q s a) ⟨.inl, fun hs => hs.resolve_right (by simp [h])⟩
    | some t =>
      haveI := decidableSomeStep t ops
      decidable_of_iff (Q s a ∨ SomeStep run Q t ops) (by simp [SomeStep, h])

instance decidableEveryStep [∀ s a, Decidable (C s a)] :
    ∀ s ops, Decidable (EveryStep run C s ops)
  | _, [] => isTrue trivial
  | s, a :: ops =>
    match h : run a s with
    | none => decidable_of_iff (C s a) (by simp [EveryStep, h])
    | some t =>
      haveI := decidableEveryStep t ops
      decidable_of_iff (C s a ∧ EveryStep run C t ops) (by simp [EveryStep, h])

/-- What is kept makes the steps of `C` steps of `Q`. -/
theorem EveryStep.imp (h : EveryStep run C s ops) (hs : P s)
    (hstep : ∀ s a, C s a → P s → Q s a ∧ ∀ t, run a s = some t → P t) : EveryStep run Q s ops := by
  induction ops generalizing s with
  | nil => trivial
  | cons a ops ih =>
    obtain ⟨hQ, hkeep⟩ := hstep s a h.1 hs
    exact ⟨hQ, fun t ht => ih (h.2 t ht) (hkeep t ht)⟩

/-- Two runs one after the other. -/
theorem foldlM_append_eq_some {l₁ l₂ : List α} :
    (l₁ ++ l₂).foldlM (fun s a => run a s) s = some s' ↔
      ∃ t, l₁.foldlM (fun s a => run a s) s = some t ∧ l₂.foldlM (fun s a => run a s) t = some s' := by
  rw [List.foldlM_append]
  exact Option.bind_eq_some_iff

/-- A run of an operation and a rest. -/
theorem foldlM_cons_eq_some {a : α} :
    (a :: ops).foldlM (fun s a => run a s) s = some s' ↔
      ∃ t, run a s = some t ∧ ops.foldlM (fun s a => run a s) t = some s' := by
  rw [List.foldlM_cons]
  exact Option.bind_eq_some_iff

/-- **What every allowed step keeps, an allowed run keeps.** -/
theorem EveryStep.keeps (hall : EveryStep run C s ops)
    (hrun : ops.foldlM (fun s a => run a s) s = some s') (hs : P s)
    (hstep : ∀ s a s', C s a → P s → run a s = some s' → P s') : P s' := by
  induction ops generalizing s with
  | nil =>
    obtain rfl : s = s' := Option.some.inj hrun
    exact hs
  | cons a ops ih =>
    obtain ⟨t, ht, hrun⟩ := foldlM_cons_eq_some.1 hrun
    exact ih (hall.2 t ht) hrun (hstep _ _ _ hall.1 hs ht)

/-- **An exact condition on the steps of any run**, also of one that does not run through: a step
from a state of `P` is of `R` exactly when it is of `C`, and then only leads to states of `P`. -/
theorem everyStep_congr (hs : P s)
    (hstep : ∀ s a, P s → (R s a ↔ C s a) ∧ (C s a → ∀ t, run a s = some t → P t)) :
    EveryStep run R s ops ↔ EveryStep run C s ops := by
  induction ops generalizing s with
  | nil => exact Iff.rfl
  | cons a ops ih =>
    obtain ⟨hiff, hkeep⟩ := hstep s a hs
    constructor
    · rintro ⟨hR, hrest⟩
      have hC := hiff.1 hR
      exact ⟨hC, fun t ht => (ih (hkeep hC t ht)).1 (hrest t ht)⟩
    · rintro ⟨hC, hrest⟩
      exact ⟨hiff.2 hC, fun t ht => (ih (hkeep hC t ht)).2 (hrest t ht)⟩

/-- **An exact condition on steps**: where a step from a state of `P` is of `R` exactly when it is
of `C`, and then leads to one of `P`, all steps of a run are of `R` exactly when all are of `C`. -/
theorem everyStep_congr_of (hrun : ops.foldlM (fun s a => run a s) s = some s') (hs : P s)
    (hstep : ∀ s a s', P s → run a s = some s' → (R s a ↔ C s a) ∧ (C s a → P s')) :
    EveryStep run R s ops ↔ EveryStep run C s ops := by
  induction ops generalizing s with
  | nil => exact Iff.rfl
  | cons a ops ih =>
    obtain ⟨t, ht, hrun⟩ := foldlM_cons_eq_some.1 hrun
    obtain ⟨hiff, hkeep⟩ := hstep s a t hs ht
    constructor
    · rintro ⟨hR, hrest⟩
      have hC := hiff.1 hR
      refine ⟨hC, fun u hu => ?_⟩
      obtain rfl : t = u := Option.some.inj (ht.symm.trans hu)
      exact (ih hrun (hkeep hC)).1 (hrest t ht)
    · rintro ⟨hC, hrest⟩
      refine ⟨hiff.2 hC, fun u hu => ?_⟩
      obtain rfl : t = u := Option.some.inj (ht.symm.trans hu)
      exact (ih hrun (hkeep hC)).2 (hrest t ht)

/-- **An exact condition**: where a step from a state of `P` leads to one of `R` exactly when it is
of `C`, and then to one of `P`, all states of a run are of `R` exactly when all its steps are of
`C`. -/
theorem everyStep_iff_of {R : σ → Prop} (hrun : ops.foldlM (fun s a => run a s) s = some s') (hs : P s)
    (hstep : ∀ s a s', P s → run a s = some s' → (R s' ↔ C s a) ∧ (C s a → P s')) :
    EveryStep run (fun s a => ∀ t, run a s = some t → R t) s ops ↔ EveryStep run C s ops := by
  refine everyStep_congr_of hrun hs fun s a t hs ht => ⟨Iff.trans ?_ (hstep s a t hs ht).1,
    (hstep s a t hs ht).2⟩
  constructor
  · exact fun hall => hall t ht
  · intro hR u hu
    obtain rfl : t = u := Option.some.inj (ht.symm.trans hu)
    exact hR

/-- The same for `P` itself. -/
theorem everyStep_iff (hrun : ops.foldlM (fun s a => run a s) s = some s') (hs : P s)
    (hstep : ∀ s a s', P s → run a s = some s' → (P s' ↔ C s a)) :
    EveryStep run (fun s a => ∀ t, run a s = some t → P t) s ops ↔ EveryStep run C s ops :=
  everyStep_iff_of hrun hs fun s a s' hs h => ⟨hstep s a s' hs h, (hstep s a s' hs h).2⟩

/-- **What holds and can only end by a step of `Q`** still holds, unless there was one. -/
theorem keeps_or_someStep (hall : EveryStep run C s ops)
    (hrun : ops.foldlM (fun s a => run a s) s = some s') (hs : P s)
    (hstep : ∀ s a s', C s a → P s → run a s = some s' → P s' ∨ Q s a) :
    P s' ∨ SomeStep run Q s ops := by
  induction ops generalizing s with
  | nil =>
    obtain rfl : s = s' := Option.some.inj hrun
    exact .inl hs
  | cons a ops ih =>
    obtain ⟨t, ht, hrun⟩ := foldlM_cons_eq_some.1 hrun
    rcases hstep _ _ _ hall.1 hs ht with hP | hQ
    · exact (ih (hall.2 t ht) hrun hP).imp_right fun h => .inr ⟨t, ht, h⟩
    · exact .inr (.inl hQ)

/-- **What is kept and rules a step of `Q` out**: there is none. -/
theorem EveryStep.not_someStep (hall : EveryStep run C s ops)
    (hrun : ops.foldlM (fun s a => run a s) s = some s') (hs : P s)
    (hstep : ∀ s a s', C s a → P s → run a s = some s' → ¬ Q s a ∧ P s') : ¬ SomeStep run Q s ops := by
  induction ops generalizing s with
  | nil => exact id
  | cons a ops ih =>
    obtain ⟨t, ht, hrun⟩ := foldlM_cons_eq_some.1 hrun
    obtain ⟨hQ, hP⟩ := hstep s a t hall.1 hs ht
    rintro (hQ' | ⟨u, hu, hrest⟩)
    · exact hQ hQ'
    · obtain rfl : t = u := Option.some.inj (ht.symm.trans hu)
      exact ih (hall.2 t ht) hrun hP hrest

theorem everyStep_and (h : EveryStep run C s ops) (h' : EveryStep run Q s ops) :
    EveryStep run (fun s a => C s a ∧ Q s a) s ops := by
  induction ops generalizing s with
  | nil => trivial
  | cons a ops ih => exact ⟨⟨h.1, h'.1⟩, fun t ht => ih (h.2 t ht) (h'.2 t ht)⟩

/-- The steps of two runs one after the other. -/
theorem EveryStep.append {l₁ l₂ : List α} (h : EveryStep run C s (l₁ ++ l₂))
    (hrun : l₁.foldlM (fun s a => run a s) s = some s') :
    EveryStep run C s l₁ ∧ EveryStep run C s' l₂ := by
  induction l₁ generalizing s with
  | nil =>
    obtain rfl : s = s' := Option.some.inj hrun
    exact ⟨trivial, h⟩
  | cons a l ih =>
    obtain ⟨t, ht, hrun⟩ := foldlM_cons_eq_some.1 hrun
    obtain ⟨hfirst, hrest⟩ := ih (h.2 t ht) hrun
    refine ⟨⟨h.1, fun u hu => ?_⟩, hrest⟩
    obtain rfl : t = u := Option.some.inj (ht.symm.trans hu)
    exact hfirst

theorem everyStep_append {l₁ l₂ : List α} (h₁ : EveryStep run C s l₁)
    (h₂ : ∀ t, l₁.foldlM (fun s a => run a s) s = some t → EveryStep run C t l₂) :
    EveryStep run C s (l₁ ++ l₂) := by
  induction l₁ generalizing s with
  | nil => exact h₂ s rfl
  | cons a l ih =>
    exact ⟨h₁.1, fun t ht => ih (h₁.2 t ht) fun u hu => h₂ u (foldlM_cons_eq_some.2 ⟨t, ht, hu⟩)⟩

theorem everyStep_true (run : α → σ → Option σ) (s : σ) (ops : List α) :
    EveryStep run (fun _ _ => True) s ops := by
  induction ops generalizing s with
  | nil => trivial
  | cons a ops ih => exact ⟨trivial, fun t _ => ih t⟩

/-- **A count paid for by another**: where each step of `Q` uses up what a step of `R` gives,
there are no more of the former than of the latter and what was there at the start. -/
theorem tally_le [∀ s a, Decidable (Q s a)] [∀ s a, Decidable (R s a)] (credit : σ → ℕ)
    (hall : EveryStep run C s ops) (hrun : ops.foldlM (fun s a => run a s) s = some s')
    (hstep : ∀ s a s', C s a → run a s = some s' →
      credit s' + (if Q s a then 1 else 0) ≤ credit s + if R s a then 1 else 0) :
    credit s' + tally run Q s ops ≤ credit s + tally run R s ops := by
  induction ops generalizing s with
  | nil =>
    obtain rfl : s = s' := Option.some.inj hrun
    exact le_rfl
  | cons a ops ih =>
    obtain ⟨t, ht, hrun⟩ := foldlM_cons_eq_some.1 hrun
    have hrest := ih (hall.2 t ht) hrun
    have hone := hstep _ _ _ hall.1 ht
    simp only [tally, ht, Option.map_some, Option.getD_some]
    omega

end Steps

end Transition
