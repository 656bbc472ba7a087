/-
# Locks with one turnstile

Two locks whose addresses hash to the same bucket share its list of waiters.  `turnstile_unblock` on
one of them wakes whoever comes first in the list, and `turnstile_has_waiters` on one of them tells of
the waiters of both.  So they keep their locks apart as long as the first waiter, or one of them,
happens to be one for the lock asked about (`Apart`), as it is where the addresses do not collide
(`apart_of_distinct`).
-/

import Flopperating.Task.Turnstile

namespace Flopperating

open Transition

namespace Turnstiles

variable {σ σ' : Turnstiles} {fuel t u lockAddr : ℕ} {e : TurnstileCall}

/-- What a call says and does, by what it is about: `turnstile_unblock` wakes and returns a thread
that is blocked on its lock, and no other, unless there is none; `turnstile_has_waiters` tells
whether there is one. -/
def KeepsApart (fuel : ℕ) (σ : Turnstiles) : TurnstileCall → Prop
  | .block _ _ _ => True
  | .unblock t lockAddr => ∀ next σ', σ.turnstileUnblock fuel t lockAddr = some (next, σ') →
      (∀ u, next = some u → σ.blockedOn u = some lockAddr ∧ (σ'.thread u).threadState = .ready ∧
        σ'.blockedOn u = none) ∧
      (next = none ↔ ∀ u, σ.blockedOn u ≠ some lockAddr) ∧
      ∀ u, next ≠ some u → (σ'.thread u).threadState = (σ.thread u).threadState ∧
        σ'.blockedOn u = σ.blockedOn u
  | .hasWaiters _ lockAddr =>
    (σ.turnstileHasWaiters lockAddr).1 = true ↔ ∃ u, σ.blockedOn u = some lockAddr

/-- Where the turnstile of the lock has waiters, the first is blocked on that lock, for
`turnstile_unblock`, or one of them is, for `turnstile_has_waiters`. -/
def Apart (σ : Turnstiles) : TurnstileCall → Prop
  | .block _ _ _ => True
  | .unblock _ lockAddr => ∀ u ∈ (σ.waitersAt (turnstileHashIndex lockAddr)).head?,
      σ.blockedOn u = some lockAddr
  | .hasWaiters _ lockAddr => σ.waitersAt (turnstileHashIndex lockAddr) ≠ [] →
      ∃ u ∈ σ.waitersAt (turnstileHashIndex lockAddr), σ.blockedOn u = some lockAddr

theorem Inv.unblock_apart_iff {next : Option ℕ} (h : σ.Inv) (ht : σ.blockedOn t = none)
    (hun : σ.turnstileUnblock fuel t lockAddr = some (next, σ')) :
    σ.KeepsApart fuel (.unblock t lockAddr) ↔ σ.Apart (.unblock t lockAddr) := by
  have hone : σ.KeepsApart fuel (.unblock t lockAddr) ↔
      (∀ u, next = some u → σ.blockedOn u = some lockAddr ∧ (σ'.thread u).threadState = .ready ∧
        σ'.blockedOn u = none) ∧
      (next = none ↔ ∀ u, σ.blockedOn u ≠ some lockAddr) ∧
      ∀ u, next ≠ some u → (σ'.thread u).threadState = (σ.thread u).threadState ∧
        σ'.blockedOn u = σ.blockedOn u := by
    constructor
    · exact fun hall => hall next σ' hun
    · intro hall next' τ hτ
      obtain ⟨rfl, rfl⟩ := Prod.mk.inj (Option.some.inj (hun.symm.trans hτ))
      exact hall
  rw [hone]
  rcases h.unblock_cases ht hun with ⟨rfl, hidle⟩ | ⟨w, waiters, rfl, hwake⟩
  · have hnobody : ∀ u, σ.blockedOn u ≠ some lockAddr := by
      intro u hu
      exact absurd (hidle.empty ▸ h.waits u lockAddr hu) (by simp)
    have hapart : σ.Apart (.unblock t lockAddr) := by
      intro u hu
      rw [hidle.empty] at hu
      exact absurd hu (by simp)
    refine iff_of_true ⟨nofun, iff_of_true rfl hnobody, fun u _ => ?_⟩ hapart
    rw [hidle.thread, hidle.blockedOn]
    exact ⟨rfl, rfl⟩
  · have hfirst : σ.Apart (.unblock t lockAddr) ↔ σ.blockedOn w = some lockAddr := by
      rw [Apart, hwake.first]
      simp
    rw [hfirst]
    constructor
    · exact fun hall => (hall.1 w rfl).1
    · intro hw
      refine ⟨fun u hu => ?_, iff_of_false nofun fun hall => hall w hw, fun u hu => ?_⟩
      · obtain rfl : w = u := Option.some.inj hu
        refine ⟨hw, ?_, ?_⟩
        · rw [hwake.thread, if_pos rfl]
        · rw [hwake.blockedOn, Function.update_self]
      · have hne : u ≠ w := fun heq => hu (congrArg some heq.symm)
        refine ⟨?_, ?_⟩
        · rw [hwake.thread, if_neg hne]
          split
          · next hut => rw [hut]
          · rfl
        · rw [hwake.blockedOn, Function.update_of_ne hne]

theorem Inv.hasWaiters_apart_iff (h : σ.Inv) :
    σ.KeepsApart fuel (.hasWaiters t lockAddr) ↔ σ.Apart (.hasWaiters t lockAddr) := by
  have hwaiters : (σ.turnstileHasWaiters lockAddr).1 =
      !(σ.waitersAt (turnstileHashIndex lockAddr)).isEmpty :=
    congrArg (fun l : List ℕ => !l.isEmpty) (h.getLocked_waitersAt _)
  have htrue : (σ.turnstileHasWaiters lockAddr).1 = true ↔
      σ.waitersAt (turnstileHashIndex lockAddr) ≠ [] := by
    rw [hwaiters]
    simp
  rw [KeepsApart, Apart, htrue]
  constructor
  · intro hiff hne
    obtain ⟨u, hu⟩ := hiff.1 hne
    exact ⟨u, h.waits u lockAddr hu, hu⟩
  · intro hapart
    constructor
    · intro hne
      obtain ⟨u, -, hu⟩ := hapart hne
      exact ⟨u, hu⟩
    · rintro ⟨u, hu⟩
      exact List.ne_nil_of_mem (h.waits u lockAddr hu)

/-- **Turnstiles keep locks apart** along a run if and only if each `turnstile_unblock` finds a
thread blocked on its own lock first in the turnstile, and each `turnstile_has_waiters` finds one,
where there is any waiter in it. -/
theorem keepsApart_iff {calls : List TurnstileCall} (hinit : σ.Init)
    (hrun : calls.foldlM (fun s e => step fuel e s) σ = some σ') :
    EveryStep (step fuel) (KeepsApart fuel) σ calls ↔ EveryStep (step fuel) Apart σ calls := by
  refine everyStep_congr_of (P := Inv) hrun hinit.inv fun s e s' hs hstep => ⟨?_, fun _ => hs.step hstep⟩
  unfold Turnstiles.step at hstep
  split at hstep
  · exact absurd hstep (by simp)
  · next ht =>
    cases e with
    | block t lock owner => exact Iff.rfl
    | unblock t lock =>
      obtain ⟨⟨next, τ⟩, hun, -⟩ := Option.map_eq_some_iff.1 hstep
      exact hs.unblock_apart_iff (not_not.1 ht) hun
    | hasWaiters t lock => exact hs.hasWaiters_apart_iff

instance : Decidable (σ.Apart e) :=
  match e with
  | .block _ _ _ => isTrue trivial
  | .unblock _ lockAddr => inferInstanceAs (Decidable
      (∀ u ∈ (σ.waitersAt (turnstileHashIndex lockAddr)).head?, σ.blockedOn u = some lockAddr))
  | .hasWaiters _ lockAddr => inferInstanceAs (Decidable
      (σ.waitersAt (turnstileHashIndex lockAddr) ≠ [] →
        ∃ u ∈ σ.waitersAt (turnstileHashIndex lockAddr), σ.blockedOn u = some lockAddr))

/-- Threads `1` and `3` wait for two locks with two turnstiles, and `2` wakes both. -/
def apartRun : List TurnstileCall :=
  [.block 1 0x1000 (some 2), .block 3 0x1008 (some 2), .hasWaiters 2 0x1000, .unblock 2 0x1000,
    .unblock 2 0x1008]

theorem keepsApart_apartRun : EveryStep (step 4) (KeepsApart 4) idleHost apartRun := by
  obtain ⟨σ, hrun, -⟩ : ∃ σ, apartRun.foldlM (fun s e => step 4 e s) idleHost = some σ ∧
      (σ.thread 1).threadState = .ready :=
    Option.map_eq_some_iff.1
      (show Option.map (fun σ : Turnstiles => (σ.thread 1).threadState) _ = some .ready by decide)
  exact (keepsApart_iff idleHost_init hrun).2 (by decide)

/-- Thread `1` waits for the lock at `0x1000`, and `2` unblocks the one at `0x1400`. -/
def collidingRun : List TurnstileCall := [.block 1 0x1000 (some 3), .unblock 2 0x1400]

/-- It wakes `1`. -/
theorem not_keepsApart_collidingRun : ¬ EveryStep (step 4) (KeepsApart 4) idleHost collidingRun := by
  rintro ⟨-, hrest⟩
  obtain ⟨hkeeps, -⟩ := hrest _ rfl
  obtain ⟨hwoken, -⟩ := hkeeps (some 1) _ rfl
  exact absurd (hwoken 1 rfl).1 (by decide)

/-! ### Locks with turnstiles of their own -/

/-- The locks of `s` hash to different turnstiles. -/
def Distinct (s : Set ℕ) : Prop :=
  ∀ l ∈ s, ∀ l' ∈ s, turnstileHashIndex l = turnstileHashIndex l' → l = l'

/-- The call is about a lock of `s`. -/
def About (s : Set ℕ) : TurnstileCall → Prop
  | .block _ lockAddr _ | .unblock _ lockAddr | .hasWaiters _ lockAddr => lockAddr ∈ s

/-- All threads wait for locks of `s`. -/
def WaitsIn (s : Set ℕ) (σ : Turnstiles) : Prop :=
  ∀ u lockAddr, σ.blockedOn u = some lockAddr → lockAddr ∈ s

theorem Inv.blockedOn_of_mem {s : Set ℕ} (h : σ.Inv) (hs : Distinct s) (hin : σ.WaitsIn s)
    (hlock : lockAddr ∈ s) (hu : u ∈ σ.waitersAt (turnstileHashIndex lockAddr)) :
    σ.blockedOn u = some lockAddr := by
  obtain ⟨lock, hblocked, heq⟩ := h.blocked _ u hu
  rw [hblocked, hs lock (hin u lock hblocked) lockAddr hlock heq]

theorem Inv.waitsIn_step {s : Set ℕ} (h : σ.Inv) (hin : σ.WaitsIn s) (habout : About s e)
    (hstep : Turnstiles.step fuel e σ = some σ') : σ'.WaitsIn s := by
  unfold Turnstiles.step at hstep
  split at hstep
  · exact absurd hstep (by simp)
  · next ht =>
    intro u lock hu
    cases e with
    | block t lock' owner =>
      rw [(h.blocks hstep).blockedOn, Function.update_apply] at hu
      split at hu
      · obtain rfl := Option.some.inj hu
        exact habout
      · exact hin u lock hu
    | unblock t lock' =>
      obtain ⟨⟨next, τ⟩, hun, rfl⟩ := Option.map_eq_some_iff.1 hstep
      rcases h.unblock_cases (not_not.1 ht) hun with ⟨-, hidle⟩ | ⟨w, waiters, -, hwake⟩
      · exact hin u lock (hidle.blockedOn ▸ hu)
      · rw [hwake.blockedOn, Function.update_apply] at hu
        split at hu
        · exact absurd hu (by simp)
        · exact hin u lock hu
    | hasWaiters t lock' =>
      obtain rfl := Option.some.inj hstep
      exact hin u lock (getLocked_blockedOn ▸ hu)

/-- **Locks whose addresses do not collide are kept apart.** -/
theorem apart_of_distinct {s : Set ℕ} {calls : List TurnstileCall} (hs : Distinct s) (hinv : σ.Inv)
    (hin : σ.WaitsIn s) (habout : ∀ e ∈ calls, About s e) :
    EveryStep (step fuel) Apart σ calls := by
  induction calls generalizing σ with
  | nil => trivial
  | cons e calls ih =>
    have hone := habout e List.mem_cons_self
    refine ⟨?_, fun τ hτ => ih (hinv.step hτ) (hinv.waitsIn_step hin hone hτ)
      fun e he => habout e (List.mem_cons_of_mem _ he)⟩
    cases e with
    | block t lock owner => trivial
    | unblock t lock => exact fun u hu => hinv.blockedOn_of_mem hs hin hone (List.mem_of_mem_head? hu)
    | hasWaiters t lock =>
      intro hne
      obtain ⟨u, hu⟩ := List.exists_mem_of_ne_nil _ hne
      exact ⟨u, hu, hinv.blockedOn_of_mem hs hin hone hu⟩

end Turnstiles

end Flopperating
