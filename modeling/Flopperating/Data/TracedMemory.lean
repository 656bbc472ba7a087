/-
# Memory that keeps what was accessed

A memory with the list of the addresses that have been loaded from or stored to.  The loops load
or store at the addresses `addr i`, `addr (i + 1)`, …; of each there is a lemma that says which
addresses it accesses.  Of a program with such a memory and a state of its own `Accesses`
says that all it accesses is in a set; there is a rule for each way of making one.
-/

import Mathlib.Logic.Function.Basic
import Mathlib.Data.Nat.Basic

/-- The value at each address, and the addresses that were accessed, the last one first. -/
structure TracedMemory (α β : Type*) where
  value : α → β
  touched : List α

namespace TracedMemory

variable {α β : Type*} {m : TracedMemory α β} {addr : ℕ → α} {i n : ℕ} {a : α}

def load (a : α) (m : TracedMemory α β) : β × TracedMemory α β :=
  (m.value a, { m with touched := a :: m.touched })

def store [DecidableEq α] (a : α) (v : β) (m : TracedMemory α β) : TracedMemory α β :=
  ⟨Function.update m.value a v, a :: m.touched⟩

/-- Store values one after the other, from the `i`-th address on. -/
def storeFrom [DecidableEq α] (addr : ℕ → α) : ℕ → List β → TracedMemory α β → TracedMemory α β
  | _, [], m => m
  | i, v :: vs, m => storeFrom addr (i + 1) vs (m.store (addr i) v)

/-- Load `n` values one after the other, from the `i`-th address on. -/
def loadFrom (addr : ℕ → α) : ℕ → ℕ → TracedMemory α β → List β × TracedMemory α β
  | _, 0, m => ([], m)
  | i, n + 1, m =>
    let (v, m) := m.load (addr i)
    let (vs, m) := loadFrom addr (i + 1) n m
    (v :: vs, m)

/-- Load values from the `i`-th address on, up to the first with `p` and for at most `n` rounds:
how many there are before it. -/
def loadUntil (p : β → Bool) (addr : ℕ → α) : ℕ → ℕ → TracedMemory α β → Option ℕ × TracedMemory α β
  | _, 0, m => (none, m)
  | i, n + 1, m =>
    let (v, m) := m.load (addr i)
    if p v then (some 0, m)
    else
      let (k, m) := loadUntil p addr (i + 1) n m
      (k.map (· + 1), m)

theorem mem_touched_storeFrom [DecidableEq α] {vs : List β} :
    a ∈ (storeFrom addr i vs m).touched ↔ a ∈ m.touched ∨ ∃ k < vs.length, a = addr (i + k) := by
  induction vs generalizing i m with
  | nil => simp [storeFrom]
  | cons v vs ih =>
    rw [storeFrom, ih, List.length_cons, Nat.exists_lt_succ_left, store, List.mem_cons, or_comm (a := a = addr i),
      or_assoc]
    simp only [Nat.add_zero, Nat.add_assoc, Nat.add_comm 1]

theorem storeFrom_append [DecidableEq α] {vs ws : List β} :
    storeFrom addr i (vs ++ ws) m = storeFrom addr (i + vs.length) ws (storeFrom addr i vs m) := by
  induction vs generalizing i m with
  | nil => rfl
  | cons v vs ih => rw [List.cons_append, storeFrom, storeFrom, ih, List.length_cons, Nat.add_right_comm, Nat.add_assoc]

/-- Every other value is kept. -/
theorem value_storeFrom_of_ne [DecidableEq α] {vs : List β} (h : ∀ k < vs.length, a ≠ addr (i + k)) :
    (storeFrom addr i vs m).value a = m.value a := by
  induction vs generalizing i m with
  | nil => rfl
  | cons v vs ih =>
    rw [storeFrom, ih fun k hk => ?_]
    · exact Function.update_of_ne (h 0 (Nat.succ_pos _)) _ _
    · rw [Nat.add_right_comm, Nat.add_assoc]
      exact h (k + 1) (Nat.succ_lt_succ hk)

/-- The values are where they were stored, when no two of the addresses are the same. -/
theorem value_storeFrom [DecidableEq α] {vs : List β} (haddr : Function.Injective addr) {k : ℕ} (hk : k < vs.length) :
    (storeFrom addr i vs m).value (addr (i + k)) = vs[k] := by
  induction vs generalizing i k m with
  | nil => exact absurd hk (Nat.not_lt_zero k)
  | cons v vs ih =>
    rw [storeFrom]
    cases k with
    | zero => exact (value_storeFrom_of_ne fun j _ heq => by have := haddr heq; omega).trans (Function.update_self ..)
    | succ k =>
      rw [← Nat.add_assoc, Nat.add_right_comm]
      exact ih (Nat.lt_of_succ_lt_succ hk)

@[simp] theorem length_loadFrom : (loadFrom addr i n m).1.length = n := by
  induction n generalizing i m with
  | zero => rfl
  | succ n ih => exact congrArg (· + 1) ih

@[simp] theorem value_loadFrom : (loadFrom addr i n m).2.value = m.value := by
  induction n generalizing i m with
  | zero => rfl
  | succ n ih => exact ih

/-- The first with `p` is found, and what is looked at are the values up to it. -/
theorem loadUntil_eq {p : β → Bool} {k : ℕ} (hk : k < n) (hstop : p (m.value (addr (i + k))) = true)
    (hbefore : ∀ j < k, p (m.value (addr (i + j))) = false) :
    ∃ m', loadUntil p addr i n m = (some k, m') ∧ m'.value = m.value ∧
      ∀ a ∈ m'.touched, a ∈ m.touched ∨ ∃ j ≤ k, a = addr (i + j) := by
  induction n generalizing i k m with
  | zero => exact absurd hk (Nat.not_lt_zero k)
  | succ n ih =>
    have hload : ∀ a ∈ (m.load (addr i)).2.touched, a ∈ m.touched ∨ ∃ j ≤ k, a = addr (i + j) := by
      intro a ha
      rcases List.mem_cons.1 ha with rfl | ha
      · exact .inr ⟨0, Nat.zero_le k, rfl⟩
      · exact .inl ha
    cases k with
    | zero => exact ⟨(m.load (addr i)).2, if_pos hstop, rfl, hload⟩
    | succ k =>
      have hfirst : ¬ p (m.value (addr i)) = true := by
        have := hbefore 0 (Nat.succ_pos k)
        rw [Nat.add_zero] at this
        rw [this]
        exact Bool.false_ne_true
      obtain ⟨m', hrun, hvalue, htouched⟩ := ih (i := i + 1) (m := (m.load (addr i)).2) (Nat.lt_of_succ_lt_succ hk)
        (by rw [Nat.add_right_comm]; exact hstop)
        (fun j hj => by rw [Nat.add_right_comm]; exact hbefore (j + 1) (Nat.succ_lt_succ hj))
      refine ⟨m', ?_, hvalue, fun a ha => ?_⟩
      · show (if p (m.value (addr i)) = true then _ else _ : Option ℕ × TracedMemory α β) = _
        rw [if_neg hfirst]
        show ((loadUntil p addr (i + 1) n (m.load (addr i)).2).1.map (· + 1),
          (loadUntil p addr (i + 1) n (m.load (addr i)).2).2) = _
        rw [hrun]
        rfl
      · rcases htouched a ha with ha | ⟨j, hj, rfl⟩
        · exact hload a ha
        · exact .inr ⟨j + 1, Nat.succ_le_succ hj, congrArg addr (Nat.add_right_comm i 1 j)⟩

end TracedMemory

/-! ### Programs -/

/-- A program with a memory and a state. -/
abbrev TracedM (α β σ : Type) := StateM (TracedMemory α β × σ)

namespace TracedM

variable {α β σ γ δ : Type} {P : α → Prop} {x : TracedM α β σ γ}

def load (a : α) : TracedM α β σ β := fun s => ((s.1.load a).1, (s.1.load a).2, s.2)

/-- Store what `f` makes of the value. -/
def modify [DecidableEq α] (a : α) (f : β → β) : TracedM α β σ Unit := fun s => ((), s.1.store a (f (s.1.value a)), s.2)

/-- A step of the state alone. -/
def lift (f : σ → γ × σ) : TracedM α β σ γ := fun s => ((f s.2).1, s.1, (f s.2).2)

theorem bind_apply {f : γ → TracedM α β σ δ} {s : TracedMemory α β × σ} : (x >>= f) s = f (x s).1 (x s).2 := rfl

theorem load_bind {a : α} {f : β → TracedM α β σ γ} {s : TracedMemory α β × σ} :
    (load a >>= f) s = f (s.1.value a) ((s.1.load a).2, s.2) := rfl

theorem lift_bind {g : σ → δ × σ} {f : δ → TracedM α β σ γ} {s : TracedMemory α β × σ} :
    (lift g >>= f) s = f (g s.2).1 (s.1, (g s.2).2) := rfl

/-- What the program accesses is in the set. -/
def Accesses (P : α → Prop) (x : TracedM α β σ γ) : Prop := ∀ s, ∀ a ∈ (x s).2.1.touched, a ∈ s.1.touched ∨ P a

theorem accesses_pure (c : γ) : Accesses P (pure c : TracedM α β σ γ) := fun _ _ ha => .inl ha

/-- What comes second may use what is known of the result of what comes first. -/
theorem accesses_bind_of {f : γ → TracedM α β σ δ} {Q : γ → Prop} (hx : Accesses P x) (hQ : ∀ s, Q (x s).1)
    (hf : ∀ c, Q c → Accesses P (f c)) : Accesses P (x >>= f) := by
  intro s a ha
  have ha : a ∈ (f (x s).1 (x s).2).2.1.touched := ha
  exact (hf _ (hQ s) _ a ha).elim (hx s a) .inr

theorem accesses_bind {f : γ → TracedM α β σ δ} (hx : Accesses P x) (hf : ∀ c, Accesses P (f c)) :
    Accesses P (x >>= f) := accesses_bind_of (Q := fun _ => True) hx (fun _ => trivial) fun c _ => hf c

theorem accesses_ite {c : Prop} [Decidable c] {y : TracedM α β σ γ} (hx : c → Accesses P x) (hy : ¬ c → Accesses P y) :
    Accesses P (if c then x else y) := by
  split
  · exact hx ‹_›
  · exact hy ‹_›

theorem accesses_load {a : α} (h : P a) : Accesses P (load a : TracedM α β σ β) := by
  intro s b hb
  rcases List.mem_cons.1 hb with rfl | hb
  · exact .inr h
  · exact .inl hb

/-- What is loaded first has been accessed, when what comes then forgets nothing. -/
theorem mem_touched_load_bind {a : α} {f : β → TracedM α β σ γ} {s : TracedMemory α β × σ}
    (hf : ∀ b s, ∀ c ∈ s.1.touched, c ∈ (f b s).2.1.touched) : a ∈ ((load a >>= f) s).2.1.touched :=
  hf _ ((s.1.load a).2, s.2) a List.mem_cons_self

theorem accesses_modify [DecidableEq α] {a : α} {f : β → β} (h : P a) : Accesses P (modify a f : TracedM α β σ Unit) := by
  intro s b hb
  rcases List.mem_cons.1 hb with rfl | hb
  · exact .inr h
  · exact .inl hb

theorem accesses_lift (f : σ → γ × σ) : Accesses P (lift f : TracedM α β σ γ) := fun _ _ ha => .inl ha

theorem accesses_map {f : γ → δ} (hx : Accesses P x) : Accesses P (f <$> x) := hx

end TracedM
