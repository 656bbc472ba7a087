/-
# Priority inheritance

What `turnstile_block` and `turnstile_unblock` make of effective priorities, along runs in which a
lock's owner is the thread that last received it.  A thread should run with at least the priority of
those that wait for what it has, and with its own where nobody does (`Inherits`).

`turnstile_block` sees to it along the chain of `priority_inheritance_owner`, which
`turnstile_unblock` does not keep up: the threads that wait on keep the old owner there.  And
`turnstile_unblock` drops the priority of the thread that gives a lock away to its base, whatever
else it has: `priority_inheritance_max_donation` looks at the lock that this thread is blocked on,
and it is not blocked.  `Supported` says of a call that it meets none of this.
-/

import Mathlib.Logic.Relation
import Flopperating.Task.TurnstileApart

namespace Flopperating

open Transition

/-- The turnstiles, and who has received which lock last. -/
structure InheritanceRun where
  turnstiles : Turnstiles
  holder : ℕ → Option ℕ

inductive InheritanceEvent
  /-- `t` gets a lock that nobody has. -/
  | take (t lockAddr : ℕ)
  /-- `t` calls `turnstile_block` on a lock of another. -/
  | block (t lockAddr : ℕ)
  /-- `t` calls `turnstile_unblock` on a lock of its own. -/
  | unblock (t lockAddr : ℕ)

/-- The lock of the event. -/
def InheritanceEvent.lockAddr : InheritanceEvent → ℕ
  | .take _ lockAddr | .block _ lockAddr | .unblock _ lockAddr => lockAddr

namespace InheritanceRun

variable {σ σ' : InheritanceRun} {fuel t u lockAddr : ℕ} {e : InheritanceEvent} {s : Set ℕ}

def effective (u : ℕ) (σ : InheritanceRun) : ℕ := (σ.turnstiles.thread u).effective

def base (u : ℕ) (σ : InheritanceRun) : ℕ := (σ.turnstiles.thread u).base

def blockedOn (u : ℕ) (σ : InheritanceRun) : Option ℕ := σ.turnstiles.blockedOn u

/-- `t` receives the lock, or nobody does. -/
def setHolder (lockAddr : ℕ) (t : Option ℕ) (σ : InheritanceRun) : InheritanceRun :=
  { σ with holder := Function.update σ.holder lockAddr t }

/-- One event. -/
def step (fuel : ℕ) (e : InheritanceEvent) (σ : InheritanceRun) : Option InheritanceRun :=
  match e with
  | .take t lockAddr => if σ.blockedOn t ≠ none then none else some (σ.setHolder lockAddr (some t))
  | .block t lockAddr =>
    if σ.blockedOn t ≠ none then none
    else (σ.turnstiles.turnstileBlock fuel lockAddr t (σ.holder lockAddr)).map fun τ =>
      { σ with turnstiles := τ }
  | .unblock t lockAddr =>
    if σ.blockedOn t ≠ none then none
    else (σ.turnstiles.turnstileUnblock fuel t lockAddr).map fun o =>
      { σ with turnstiles := o.2 }.setHolder lockAddr o.1

/-- `u` waits for a lock of `v`. -/
def WaitsFor (σ : InheritanceRun) (u v : ℕ) : Prop :=
  ∃ lockAddr, σ.blockedOn u = some lockAddr ∧ σ.holder lockAddr = some v

/-- The events of the runs that are spoken of: a free lock is taken, a thread blocks on the lock of
another that does not wait for it in turn, and unblocks its own. -/
def Orderly (s : Set ℕ) (σ : InheritanceRun) (e : InheritanceEvent) : Prop :=
  e.lockAddr ∈ s ∧ match e with
    | .take _ lockAddr => σ.holder lockAddr = none
    | .block t lockAddr =>
      ∃ o, σ.holder lockAddr = some o ∧ ¬ Relation.ReflTransGen σ.WaitsFor o t
    | .unblock t lockAddr => σ.holder lockAddr = some t

/-- Nobody has a lock, and all priorities are the threads' own. -/
def Init (σ : InheritanceRun) : Prop :=
  σ.turnstiles.Init ∧ (∀ lockAddr, σ.holder lockAddr = none) ∧ ∀ t, σ.effective t = σ.base t

/-- **What inheritance is for.** -/
structure Inherits (σ : InheritanceRun) : Prop where
  base_le : ∀ t, σ.base t ≤ σ.effective t
  /-- A thread runs with at least the priority of one that waits for it. -/
  waits : ∀ u v, σ.WaitsFor u v → σ.effective u ≤ σ.effective v
  /-- A thread that nobody waits for runs with its own. -/
  rest : ∀ v, (∀ u, ¬ σ.WaitsFor u v) → σ.effective v = σ.base v

/-- The step of the loop of `priority_inheritance_raise` from one thread to another. -/
def Raises (σ : Turnstiles) (pri u v : ℕ) : Prop :=
  (σ.thread u).effective < pri ∧ (σ.thread u).priorityInheritanceOwner = some v

/-- For `turnstile_block`: where a thread that the loop raises is itself blocked, its
`priority_inheritance_owner` has the lock, or the loop stops after it and who has the lock is
not below.  For `turnstile_unblock` with a waiter: who waits for another lock of the caller is not
above the caller's own priority, and who waits for this one not above the first waiter. -/
def Supported (σ : InheritanceRun) : InheritanceEvent → Prop
  | .take _ _ => True
  | .block t lockAddr => ∀ o ∈ σ.holder lockAddr, ∀ u,
      Relation.ReflTransGen (Raises σ.turnstiles (σ.effective t)) o u →
      σ.effective u < σ.effective t → ∀ lock ∈ σ.blockedOn u,
        (σ.turnstiles.thread u).priorityInheritanceOwner = σ.holder lock ∨
          (∀ v ∈ σ.holder lock, σ.effective t ≤ σ.effective v) ∧
          ∀ v ∈ (σ.turnstiles.thread u).priorityInheritanceOwner, σ.effective t ≤ σ.effective v
  | .unblock t lockAddr =>
    ∀ w ∈ (σ.turnstiles.waitersAt (turnstileHashIndex lockAddr)).head?, ∀ u,
      (σ.blockedOn u = some lockAddr → σ.effective u ≤ σ.effective w) ∧
      ∀ lock, lock ≠ lockAddr → σ.holder lock = some t → σ.blockedOn u = some lock →
        σ.effective u ≤ σ.base t

/-! ### The loop of `priority_inheritance_raise` -/

section Raise

variable {τ τ' : Turnstiles} {pri o : ℕ} {owner : Option ℕ}

/-- What the loop from `o` makes of priorities. -/
structure Donates (pri o : ℕ) (τ τ' : Turnstiles) : Prop where
  raised : ∀ u, (τ'.thread u).effective = (τ.thread u).effective ∨
    (τ.thread u).effective < pri ∧ (τ'.thread u).effective = pri ∧
      Relation.ReflTransGen (Raises τ pri) o u
  /-- From one thread that it raises it goes on to the next. -/
  passes : ∀ u v, (τ'.thread u).effective ≠ (τ.thread u).effective →
    (τ.thread u).priorityInheritanceOwner = some v → pri ≤ (τ'.thread v).effective
  reaches : pri ≤ (τ'.thread o).effective

theorem Donates.le (h : Donates pri o τ τ') (u : ℕ) :
    (τ.thread u).effective ≤ (τ'.thread u).effective := by
  rcases h.raised u with heq | ⟨hlt, heq, -⟩
  · exact heq.ge
  · exact hlt.le.trans heq.ge

theorem donates_of_le (h : pri ≤ (τ.thread o).effective) : Donates pri o τ τ where
  raised _ := .inl rfl
  passes _ _ hne := absurd rfl hne
  reaches := h

theorem raises_setEffective {a u v : ℕ} (h : Raises (τ.setEffective a pri) pri u v) :
    Raises τ pri u v := by
  obtain ⟨hlt, howner⟩ := h
  rw [Turnstiles.setEffective_apply] at hlt howner
  dsimp only at hlt
  split at hlt
  · exact absurd hlt (lt_irrefl pri)
  · exact ⟨hlt, howner⟩

/-- One round of the loop, and the rest. -/
theorem Donates.cons {o' : ℕ} (hlt : (τ.thread o).effective < pri)
    (hnext : (τ.thread o).priorityInheritanceOwner = some o')
    (h : Donates pri o' (τ.setEffective o pri) τ') : Donates pri o τ τ' := by
  have hself : pri ≤ (τ'.thread o).effective := by
    refine le_trans ?_ (h.le o)
    rw [Turnstiles.setEffective_apply]
    simp
  refine ⟨fun u => ?_, fun u v hne howner => ?_, hself⟩
  · have hraised := h.raised u
    rw [Turnstiles.setEffective_apply] at hraised
    dsimp only at hraised
    by_cases hu : u = o
    · subst hu
      rw [if_pos rfl] at hraised
      rcases hraised with heq | ⟨-, heq, -⟩
      · exact .inr ⟨hlt, heq, .refl⟩
      · exact .inr ⟨hlt, heq, .refl⟩
    · rw [if_neg hu] at hraised
      refine hraised.imp_right fun ⟨hlow, heq, hpath⟩ => ⟨hlow, heq, ?_⟩
      exact .head ⟨hlt, hnext⟩ (Relation.ReflTransGen.mono (fun _ _ => raises_setEffective) _ _ hpath)
  · by_cases hu : u = o
    · subst hu
      obtain rfl : o' = v := Option.some.inj (hnext.symm.trans howner)
      exact h.reaches
    · refine h.passes u v ?_ ?_
      · rw [Turnstiles.setEffective_apply]
        dsimp only
        rwa [if_neg hu]
      · rw [Turnstiles.setEffective_apply]
        exact howner

theorem donates_last (hlt : (τ.thread o).effective < pri)
    (hnext : (τ.thread o).priorityInheritanceOwner = none) :
    Donates pri o τ (τ.setEffective o pri) := by
  have hself : ((τ.setEffective o pri).thread o).effective = pri := by
    rw [Turnstiles.setEffective_apply]
    simp
  have hother : ∀ u, u ≠ o → ((τ.setEffective o pri).thread u).effective = (τ.thread u).effective := by
    intro u hu
    rw [Turnstiles.setEffective_apply]
    simp [hu]
  refine ⟨fun u => ?_, fun u v hne howner => ?_, hself.ge⟩
  · by_cases hu : u = o
    · subst hu
      exact .inr ⟨hlt, hself, .refl⟩
    · exact .inl (hother u hu)
  · by_cases hu : u = o
    · subst hu
      exact absurd (hnext.symm.trans howner) (by simp)
    · exact absurd (hother u hu) hne

theorem raise_donates (h : τ.priorityInheritanceRaise fuel (some o) pri = some τ') :
    Donates pri o τ τ' := by
  induction fuel generalizing o τ with
  | zero => exact absurd h (by simp [Turnstiles.priorityInheritanceRaise])
  | succ n ih =>
    rw [Turnstiles.priorityInheritanceRaise] at h
    split at h
    · next hlt =>
      cases hnext : (τ.thread o).priorityInheritanceOwner with
      | some o' =>
        rw [hnext] at h
        exact (ih h).cons hlt hnext
      | none =>
        have hlast : some (τ.setEffective o pri) = some τ' := by
          rw [hnext] at h
          cases n <;> exact h
        obtain rfl := Option.some.inj hlast
        exact donates_last hlt hnext
    · next hle =>
      obtain rfl := Option.some.inj h
      exact donates_of_le (not_lt.1 hle)

/-- What `turnstile_block` makes of priorities. -/
theorem block_donates (h : τ.turnstileBlock fuel lockAddr t (some o) = some τ') :
    Donates (τ.thread t).effective o τ τ' := by
  obtain ⟨ρ, hρ, rfl⟩ := Option.map_eq_some_iff.1 h
  let ε := τ.turnstileEnter lockAddr t (some o)
  have hthread : ε.thread = Function.update τ.thread t
      { τ.thread t with priorityInheritanceOwner := some o, blockedLock := lockAddr } :=
    Turnstiles.enter_thread
  have heff : ∀ u, (ε.thread u).effective = (τ.thread u).effective := by
    intro u
    rw [hthread, Function.update_apply]
    split
    · next hu => rw [hu]
    · rfl
  have howner : ∀ u, u ≠ t →
      (ε.thread u).priorityInheritanceOwner = (τ.thread u).priorityInheritanceOwner := by
    intro u hu
    rw [hthread, Function.update_of_ne hu]
  have hρ' : Donates (τ.thread t).effective o ε ρ := by
    unfold Turnstiles.turnstileDonate at hρ
    dsimp only at hρ
    split at hρ
    · have hraise := raise_donates hρ
      rwa [show ((τ.turnstileEnter lockAddr t (some o)).thread t).effective =
        (τ.thread t).effective from heff t] at hraise
    · next hle =>
      obtain rfl := Option.some.inj hρ
      refine donates_of_le ?_
      rw [← heff t]
      exact not_lt.1 hle
  have hlast : ∀ u, (((ρ.setThread t { ρ.thread t with threadState := .blocked }).setBlockedOn t
      (some lockAddr)).thread u).effective = (ρ.thread u).effective := by
    intro u
    change (Function.update ρ.thread t _ u).effective = _
    rw [Function.update_apply]
    split
    · next hu => rw [hu]
    · rfl
  refine ⟨fun u => ?_, fun u v hne hnext => ?_, ?_⟩
  · rw [hlast, ← heff u]
    refine (hρ'.raised u).imp_right fun ⟨hlt, heq, hpath⟩ => ⟨hlt, heq, ?_⟩
    -- `t` itself is not below its own priority
    refine Relation.ReflTransGen.mono (fun a b hab => ?_) _ _ hpath
    obtain ⟨hlow, hnext⟩ := hab
    rw [heff a] at hlow
    refine ⟨hlow, ?_⟩
    rw [← howner a (by rintro rfl; exact absurd hlow (lt_irrefl _))]
    exact hnext
  · rw [hlast] at hne ⊢
    rw [← heff u] at hne
    refine hρ'.passes u v hne ?_
    rw [howner u, hnext]
    rintro rfl
    rcases hρ'.raised u with heq | ⟨hlt, -, -⟩
    · exact hne heq
    · exact absurd (heff u ▸ hlt) (lt_irrefl _)
  · rw [hlast]
    exact hρ'.reaches

end Raise

/-! ### Runs -/

/-- What holds between two events. -/
structure Inv (s : Set ℕ) (σ : InheritanceRun) : Prop where
  turnstiles : σ.turnstiles.Inv
  waitsIn : σ.turnstiles.WaitsIn s
  /-- Nobody waits for a lock that nobody has. -/
  held : ∀ u lock, σ.blockedOn u = some lock → σ.holder lock ≠ none
  inherits : σ.Inherits

theorem setHolder_self {o : Option ℕ} : (σ.setHolder lockAddr o).holder lockAddr = o :=
  Function.update_self ..

theorem Inv.take (h : σ.Inv s) (hfree : σ.holder lockAddr = none) :
    (σ.setHolder lockAddr (some t)).Inv s := by
  have hnobody : ∀ u lock, σ.blockedOn u = some lock → lock ≠ lockAddr := by
    rintro u lock hu rfl
    exact h.held u lock hu hfree
  have hwaits : ∀ u v, (σ.setHolder lockAddr (some t)).WaitsFor u v ↔ σ.WaitsFor u v := by
    refine fun u v => exists_congr fun lock => and_congr_right fun hu => ?_
    have hsame : (σ.setHolder lockAddr (some t)).holder lock = σ.holder lock :=
      Function.update_of_ne (hnobody u lock hu) ..
    rw [hsame]
  refine ⟨h.turnstiles, h.waitsIn, fun u lock hu => ?_, h.inherits.base_le, fun u v huv => ?_,
    fun v hv => ?_⟩
  · refine fun hnone => h.held u lock hu ?_
    exact (Function.update_of_ne (hnobody u lock hu) ..).symm.trans hnone
  · exact h.inherits.waits u v ((hwaits u v).1 huv)
  · exact h.inherits.rest v fun u huv => hv u ((hwaits u v).2 huv)

theorem Inv.block {τ : Turnstiles} {o : ℕ} (h : σ.Inv s) (hmem : lockAddr ∈ s)
    (ht : σ.blockedOn t = none) (hholder : σ.holder lockAddr = some o)
    (hsup : σ.Supported (.block t lockAddr))
    (hblock : σ.turnstiles.turnstileBlock fuel lockAddr t (some o) = some τ) :
    Inv s { σ with turnstiles := τ } := by
  have hb := h.turnstiles.blocks hblock
  have hd : Donates (σ.effective t) o σ.turnstiles τ := block_donates hblock
  have hsup' := hsup o hholder
  have hbase : ∀ u, (τ.thread u).base = σ.base u := by
    intro u
    by_cases hu : u = t
    · obtain ⟨pri, hpri⟩ := hb.self
      rw [hu, hpri]
      rfl
    · obtain ⟨pri, hpri⟩ := hb.others u hu
      rw [hpri]
      rfl
  have hother : ∀ u, u ≠ t → τ.blockedOn u = σ.blockedOn u := by
    intro u hu
    rw [hb.blockedOn, Function.update_of_ne hu]
    rfl
  have hself : τ.blockedOn t = some lockAddr := by
    rw [hb.blockedOn, Function.update_self]
  have hrunning : ∀ u lock, σ.blockedOn u = some lock → u ≠ t := by
    rintro u lock hu rfl
    exact absurd (hu.symm.trans ht) (by simp)
  have hwaits : ∀ u v, σ.WaitsFor u v → WaitsFor { σ with turnstiles := τ } u v := by
    rintro u v ⟨lock, hu, hv⟩
    exact ⟨lock, (hother u (hrunning u lock hu)).trans hu, hv⟩
  -- a thread that is raised and waits for `v` leaves `v` high enough
  have hpass : ∀ u v, σ.effective u < σ.effective t → (τ.thread u).effective = σ.effective t →
      Relation.ReflTransGen (Raises σ.turnstiles (σ.effective t)) o u → σ.WaitsFor u v →
        σ.effective t ≤ (τ.thread v).effective := by
    rintro u v hlt heq hpath ⟨lock, hu, hv⟩
    rcases hsup' u hpath hlt lock hu with howner | ⟨hhigh, -⟩
    · exact hd.passes u v (by rw [heq]; exact hlt.ne') (howner.trans hv)
    · exact (hhigh v hv).trans (hd.le v)
  refine ⟨h.turnstiles.block ht hb, fun u lock hu => ?_, fun u lock hu => ?_, fun u => ?_,
    fun u v huv => ?_, fun v hv => ?_⟩
  · by_cases hut : u = t
    · subst hut
      obtain rfl : lockAddr = lock := Option.some.inj (hself.symm.trans hu)
      exact hmem
    · exact h.waitsIn u lock ((hother u hut).symm.trans hu)
  · by_cases hut : u = t
    · subst hut
      obtain rfl : lockAddr = lock := Option.some.inj (hself.symm.trans hu)
      exact fun hnone => absurd (hholder.symm.trans hnone) (by simp)
    · exact h.held u lock ((hother u hut).symm.trans hu)
  · change (τ.thread u).base ≤ (τ.thread u).effective
    rw [hbase]
    exact (h.inherits.base_le u).trans (hd.le u)
  · obtain ⟨lock, hu, hv⟩ := huv
    change (τ.thread u).effective ≤ (τ.thread v).effective
    by_cases hut : u = t
    · subst hut
      obtain rfl : lockAddr = lock := Option.some.inj (hself.symm.trans hu)
      obtain rfl : o = v := Option.some.inj (hholder.symm.trans hv)
      rcases hd.raised u with heq | ⟨hlt, -, -⟩
      · rw [heq]
        exact hd.reaches
      · exact absurd hlt (lt_irrefl _)
    · have hold : σ.WaitsFor u v := ⟨lock, (hother u hut).symm.trans hu, hv⟩
      rcases hd.raised u with heq | ⟨hlt, heq, hpath⟩
      · rw [heq]
        exact (h.inherits.waits u v hold).trans (hd.le v)
      · rw [heq]
        exact hpass u v hlt heq hpath hold
  · change (τ.thread v).effective = (τ.thread v).base
    rw [hbase]
    rcases hd.raised v with heq | ⟨hlt, -, hpath⟩
    · rw [heq]
      exact h.inherits.rest v fun u huv => hv u (hwaits u v huv)
    · -- a thread that is raised is waited for
      exfalso
      rcases Relation.ReflTransGen.cases_tail hpath with rfl | ⟨a, hpath, hlow, hnext⟩
      · exact hv t ⟨lockAddr, hself, hholder⟩
      · obtain ⟨lock, hlock⟩ : ∃ lock, σ.blockedOn a = some lock := by
          refine Option.ne_none_iff_exists'.1 fun hnone => ?_
          exact absurd ((h.turnstiles.running a hnone).1.symm.trans hnext) (by simp)
        rcases hsup' a hpath hlow lock hlock with howner | ⟨-, hhigh⟩
        · exact hv a (hwaits a v ⟨lock, hlock, howner.symm.trans hnext⟩)
        · exact absurd (hhigh v hnext) (not_le.2 hlt)

theorem Inv.idle {τ : Turnstiles} (h : σ.Inv s) (hi : Turnstiles.Idles lockAddr σ.turnstiles τ) :
    ({ σ with turnstiles := τ }.setHolder lockAddr none).Inv s := by
  have hnobody : ∀ u lock, σ.blockedOn u = some lock → lock ≠ lockAddr := by
    rintro u lock hu rfl
    exact absurd (hi.empty ▸ h.turnstiles.waits u lock hu) (by simp)
  have hblocked : ∀ u, τ.blockedOn u = σ.blockedOn u := fun u => congrFun hi.blockedOn u
  have hwaits : ∀ u v, ({ σ with turnstiles := τ }.setHolder lockAddr none).WaitsFor u v ↔
      σ.WaitsFor u v := by
    refine fun u v => exists_congr fun lock => ?_
    change τ.blockedOn u = some lock ∧ Function.update σ.holder lockAddr none lock = some v ↔ _
    rw [hblocked]
    refine and_congr_right fun hu => ?_
    rw [Function.update_of_ne (hnobody u lock hu)]
  refine ⟨h.turnstiles.idle hi, fun u lock hu => h.waitsIn u lock ((hblocked u).symm.trans hu),
    fun u lock hu => ?_, fun u => ?_, fun u v huv => ?_, fun v hv => ?_⟩
  · have hu : σ.blockedOn u = some lock := (hblocked u).symm.trans hu
    refine fun hnone => h.held u lock hu ?_
    exact (Function.update_of_ne (hnobody u lock hu) ..).symm.trans hnone
  · change (τ.thread u).base ≤ (τ.thread u).effective
    rw [hi.thread]
    exact h.inherits.base_le u
  · change (τ.thread u).effective ≤ (τ.thread v).effective
    rw [hi.thread]
    exact h.inherits.waits u v ((hwaits u v).1 huv)
  · change (τ.thread v).effective = (τ.thread v).base
    rw [hi.thread]
    exact h.inherits.rest v fun u huv => hv u ((hwaits u v).2 huv)

theorem Inv.wake {τ : Turnstiles} {w : ℕ} {waiters : List ℕ} (h : σ.Inv s) (hs : Turnstiles.Distinct s)
    (hmem : lockAddr ∈ s) (ht : σ.blockedOn t = none) (hholder : σ.holder lockAddr = some t)
    (hsup : σ.Supported (.unblock t lockAddr))
    (hw : Turnstiles.Wakes lockAddr t w waiters σ.turnstiles τ) :
    ({ σ with turnstiles := τ }.setHolder lockAddr (some w)).Inv s := by
  have hsup' := hsup w (by rw [hw.first]; rfl)
  have hwlock : σ.blockedOn w = some lockAddr :=
    h.turnstiles.blockedOn_of_mem hs h.waitsIn hmem (hw.first ▸ List.mem_cons_self)
  have hother : ∀ u, u ≠ w → τ.blockedOn u = σ.blockedOn u := by
    intro u hu
    rw [hw.blockedOn, Function.update_of_ne hu]
    rfl
  have hawake : ∀ u lock, τ.blockedOn u = some lock → u ≠ w ∧ σ.blockedOn u = some lock := by
    intro u lock hu
    have hne : u ≠ w := by
      rintro rfl
      rw [hw.blockedOn, Function.update_self] at hu
      exact absurd hu (by simp)
    exact ⟨hne, (hother u hne).symm.trans hu⟩
  have hheld : ∀ lock, lock ≠ lockAddr →
      ({ σ with turnstiles := τ }.setHolder lockAddr (some w)).holder lock = σ.holder lock :=
    fun lock hlock => Function.update_of_ne hlock ..
  have hbase : ∀ u, (τ.thread u).base = σ.base u := by
    intro u
    rw [hw.thread]
    split
    · next hu => rw [hu]; rfl
    · split
      · next hu => rw [hu]; rfl
      · rfl
  have hcaller : (τ.thread t).effective = σ.base t := by
    rw [hw.thread, if_neg hw.ne.symm, if_pos rfl]
    rfl
  have heff : ∀ u, u ≠ t → (τ.thread u).effective = σ.effective u := by
    intro u hu
    rw [hw.thread]
    split
    · next huw => rw [huw]; rfl
    · rfl
  have hrunning : ∀ u lock, σ.blockedOn u = some lock → u ≠ t := by
    rintro u lock hu rfl
    exact absurd (hu.symm.trans ht) (by simp)
  refine ⟨h.turnstiles.wake hw, fun u lock hu => h.waitsIn u lock (hawake u lock hu).2,
    fun u lock hu => ?_, fun u => ?_, fun u v huv => ?_, fun v hv => ?_⟩
  · by_cases hlock : lock = lockAddr
    · subst hlock
      exact fun hnone => absurd (setHolder_self.symm.trans hnone) (by simp)
    · rw [hheld lock hlock]
      exact h.held u lock (hawake u lock hu).2
  · change (τ.thread u).base ≤ (τ.thread u).effective
    rw [hbase]
    by_cases hu : u = t
    · rw [hu, hcaller]
    · rw [heff u hu]
      exact h.inherits.base_le u
  · obtain ⟨lock, hu, hv⟩ := huv
    obtain ⟨-, hold⟩ := hawake u lock hu
    change (τ.thread u).effective ≤ (τ.thread v).effective
    rw [heff u (hrunning u lock hold)]
    by_cases hlock : lock = lockAddr
    · subst hlock
      obtain rfl : w = v := Option.some.inj (setHolder_self.symm.trans hv)
      rw [heff w hw.ne]
      exact (hsup' u).1 hold
    · rw [hheld lock hlock] at hv
      by_cases hvt : v = t
      · rw [hvt, hcaller]
        exact (hsup' u).2 lock hlock (hvt ▸ hv) hold
      · rw [heff v hvt]
        exact h.inherits.waits u v ⟨lock, hold, hv⟩
  · change (τ.thread v).effective = (τ.thread v).base
    rw [hbase]
    by_cases hvt : v = t
    · rw [hvt, hcaller]
    · rw [heff v hvt]
      refine h.inherits.rest v ?_
      rintro u ⟨lock, hu, hlock⟩
      have hne : lock ≠ lockAddr := by
        rintro rfl
        exact hvt (Option.some.inj (hlock.symm.trans hholder))
      have huw : u ≠ w := by
        rintro rfl
        exact hne (Option.some.inj (hu.symm.trans hwlock))
      exact hv u ⟨lock, (hother u huw).trans hu, (hheld lock hne).trans hlock⟩

theorem Inv.step (h : σ.Inv s) (hs : Turnstiles.Distinct s) (horderly : Orderly s σ e)
    (hsup : σ.Supported e) (hstep : InheritanceRun.step fuel e σ = some σ') : σ'.Inv s := by
  obtain ⟨hmem, horderly⟩ := horderly
  cases e with
  | take t lock =>
    rw [InheritanceRun.step] at hstep
    split at hstep
    · exact absurd hstep (by simp)
    · obtain rfl := Option.some.inj hstep
      exact h.take horderly
  | block t lock =>
    obtain ⟨o, hholder, -⟩ := horderly
    rw [InheritanceRun.step, hholder] at hstep
    split at hstep
    · exact absurd hstep (by simp)
    · next ht =>
      obtain ⟨τ, hblock, rfl⟩ := Option.map_eq_some_iff.1 hstep
      exact h.block hmem (not_not.1 ht) hholder hsup hblock
  | unblock t lock =>
    rw [InheritanceRun.step] at hstep
    split at hstep
    · exact absurd hstep (by simp)
    · next ht =>
      obtain ⟨⟨next, τ⟩, hun, rfl⟩ := Option.map_eq_some_iff.1 hstep
      rcases h.turnstiles.unblock_cases (not_not.1 ht) hun with ⟨rfl, hidle⟩ | ⟨w, waiters, rfl, hwake⟩
      · exact h.idle hidle
      · exact h.wake hs hmem (not_not.1 ht) horderly hsup hwake

theorem Init.inv (h : σ.Init) : σ.Inv s where
  turnstiles := h.1.inv
  waitsIn u lock hu := absurd ((h.1.2.1 u).symm.trans hu) (by simp)
  held u lock hu := absurd ((h.1.2.1 u).symm.trans hu) (by simp)
  inherits := by
    refine ⟨fun t => (h.2.2 t).ge, ?_, fun v _ => h.2.2 v⟩
    rintro u v ⟨lock, hu, -⟩
    exact absurd ((h.1.2.1 u).symm.trans hu) (by simp)

/-- **Inheritance along supported runs.**  Whatever locks without a common turnstile are taken,
waited for and unblocked, and in whatever order, as long as the calls are `Supported`. -/
theorem inherits_of_supported (hs : Turnstiles.Distinct s) (h : Reach Init (fun σ e σ' =>
    (Orderly s σ e ∧ σ.Supported e) ∧ step fuel e σ = some σ') σ) : σ.Inherits := by
  have hinv : σ.Inv s := h.invariant (P := Inv s) (fun _ hσ => hσ.inv)
    fun _ _ _ _ hσ ⟨⟨horderly, hsup⟩, hstep⟩ => hσ.step hs horderly hsup hstep
  exact hinv.inherits

/-- Nobody has a lock; thread `t` has priority `t`. -/
def freeLocks : InheritanceRun := ⟨Turnstiles.idleHost, fun _ => none⟩

theorem freeLocks_init : freeLocks.Init := ⟨Turnstiles.idleHost_init, fun _ => rfl, fun _ => rfl⟩

/-- An event of a run in which threads wait for running ones only. -/
def Flat (locks : List ℕ) (σ : InheritanceRun) (e : InheritanceEvent) : Prop :=
  e.lockAddr ∈ locks ∧ match e with
    | .take _ lockAddr => σ.holder lockAddr = none
    | .block t lockAddr => ∃ o ∈ σ.holder lockAddr, o ≠ t ∧ σ.blockedOn o = none
    | .unblock t lockAddr => σ.holder lockAddr = some t

instance {locks : List ℕ} : Decidable (Flat locks σ e) :=
  match e with
  | .take _ lockAddr => inferInstanceAs (Decidable (lockAddr ∈ locks ∧ σ.holder lockAddr = none))
  | .block t lockAddr => inferInstanceAs (Decidable (lockAddr ∈ locks ∧
      ∃ o ∈ σ.holder lockAddr, o ≠ t ∧ σ.blockedOn o = none))
  | .unblock t lockAddr => inferInstanceAs (Decidable (lockAddr ∈ locks ∧ σ.holder lockAddr = some t))

theorem Flat.orderly {locks : List ℕ} (h : Flat locks σ e) : Orderly {l | l ∈ locks} σ e := by
  obtain ⟨hmem, h⟩ := h
  refine ⟨hmem, ?_⟩
  cases e with
  | take t lock => exact h
  | block t lock =>
    obtain ⟨o, ho, hne, hrun⟩ := h
    refine ⟨o, ho, fun hpath => ?_⟩
    rcases Relation.ReflTransGen.cases_head hpath with heq | ⟨v, ⟨lock, hlock, -⟩, -⟩
    · exact hne heq
    · exact absurd (hlock.symm.trans hrun) (by simp)
  | unblock t lock => exact h

/-- To wait for a running thread is supported. -/
theorem Flat.supported_block {locks : List ℕ} (h : Flat locks σ (.block t lockAddr))
    (hinv : σ.turnstiles.Inv) : σ.Supported (.block t lockAddr) := by
  obtain ⟨-, o, ho, -, hrun⟩ := h
  intro o' ho' u hpath _ lock hlock
  obtain rfl : o = o' := Option.some.inj (ho.symm.trans ho')
  rcases Relation.ReflTransGen.cases_head hpath with rfl | ⟨v, ⟨-, hnext⟩, -⟩
  · exact absurd (hrun.symm.trans hlock) (by simp)
  · exact absurd ((hinv.running o hrun).1.symm.trans hnext) (by simp)

/-- Thread `3` waits for what thread `1` has, and `1` runs with its priority. -/
theorem inherits_one : ∃ σ, step 4 (.block 3 0x1000) (freeLocks.setHolder 0x1000 (some 1)) = some σ ∧
    σ.effective 1 = 3 ∧ σ.Inherits := by
  obtain ⟨σ, hstep, heff⟩ : ∃ σ,
      step 4 (.block 3 0x1000) (freeLocks.setHolder 0x1000 (some 1)) = some σ ∧ σ.effective 1 = 3 :=
    Option.map_eq_some_iff.1 (show Option.map (effective 1) _ = some 3 by decide)
  have hdistinct : Turnstiles.Distinct {l | l ∈ [0x1000]} := by
    intro l hl l' hl' _
    rw [List.mem_singleton.1 hl, List.mem_singleton.1 hl']
  have hflat : Flat [0x1000] (freeLocks.setHolder 0x1000 (some 1)) (.block 3 0x1000) := by decide
  have hfirst : Flat [0x1000] freeLocks (.take 1 0x1000) := by decide
  refine ⟨σ, hstep, heff, inherits_of_supported hdistinct (.step (.block 3 0x1000)
    (.step (.take 1 0x1000) (.init freeLocks_init) ⟨⟨hfirst.orderly, trivial⟩, rfl⟩)
      ⟨⟨hflat.orderly, hflat.supported_block freeLocks_init.1.inv⟩, hstep⟩)⟩

/-- Thread `1` has two locks that `3` and `5` wait for, and unblocks one. -/
def twoLocksRun : List InheritanceEvent :=
  [.take 1 0x1000, .take 1 0x1008, .block 3 0x1000, .block 5 0x1008, .unblock 1 0x1008]

/-- It drops to its own priority, with `3` waiting. -/
theorem not_inherits_twoLocks : ∃ (s : Set ℕ) (σ : InheritanceRun), Turnstiles.Distinct s ∧
    Reach Init (fun σ e σ' => Orderly s σ e ∧ step 4 e σ = some σ') σ ∧ ¬ σ.Inherits := by
  obtain ⟨σ, hrun, hstate⟩ : ∃ σ, (twoLocksRun.foldlM (fun σ e =>
      if Flat [0x1000, 0x1008] σ e then step 4 e σ else none) freeLocks) = some σ ∧
        (σ.effective 1, σ.effective 3, σ.blockedOn 3, σ.holder 0x1000) = (1, 3, some 0x1000, some 1) :=
    Option.map_eq_some_iff.1 (show Option.map (fun σ : InheritanceRun =>
      (σ.effective 1, σ.effective 3, σ.blockedOn 3, σ.holder 0x1000)) _ =
        some (1, 3, some 0x1000, some 1) by decide)
  simp only [Prod.mk.injEq] at hstate
  obtain ⟨h₁, h₃, hblocked, hholder⟩ := hstate
  refine ⟨{l | l ∈ [0x1000, 0x1008]}, σ, ?_, ?_, fun hinherits => ?_⟩
  · have hall : ∀ l ∈ [0x1000, 0x1008], ∀ l' ∈ [0x1000, 0x1008],
        turnstileHashIndex l = turnstileHashIndex l' → l = l' := by decide
    exact hall
  · exact (Reach.of_guarded freeLocks_init hrun).mono (fun _ hσ => hσ)
      fun _ _ _ hstep => ⟨hstep.1.orderly, hstep.2⟩
  · have hle := hinherits.waits 3 1 ⟨0x1000, hblocked, hholder⟩
    rw [h₁, h₃] at hle
    exact absurd hle (by decide)

end InheritanceRun

end Flopperating
