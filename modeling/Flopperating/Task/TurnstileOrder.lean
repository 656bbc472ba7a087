/-
# Who is woken first

`turnstile_waiters_insert` of `src/task/sync/turnstile.h` puts a thread behind all waiters that are
at least as urgent, and `turnstile_waiters_pop` takes the first.  So the queues are sorted, and
the most urgent thread is woken, the one that came first among equals (`wakes_urgent_run`).  But
`priority_inheritance_raise` changes the priority of threads that wait themselves, and leaves them
where they are in their queues: a thread may be raised past the ones before it
(`not_wakes_urgent`).
-/

import Flopperating.Task.PriorityInheritance
import Mathlib.Data.List.TakeWhile

namespace Flopperating

open Transition

namespace Turnstiles

variable {σ σ' τ : Turnstiles} {fuel t u w o lockAddr : ℕ} {owner : Option ℕ} {e : TurnstileCall} {l : List ℕ}
  {calls : List TurnstileCall}

/-! ### The rule -/

/-- `u` and `w` wait for the lock, and are as urgent. -/
def Level (lockAddr u w : ℕ) (σ : Turnstiles) : Prop :=
  σ.blockedOn u = some lockAddr ∧ σ.blockedOn w = some lockAddr ∧ (σ.thread u).effective = (σ.thread w).effective

/-- In the run of `calls` from `σ₀` to `σ`, `u` was waiting for the lock when `w` came to wait for
it, and the two have been as urgent at all times since. -/
def CameBefore (fuel : ℕ) (σ₀ : Turnstiles) (calls : List TurnstileCall) (σ : Turnstiles) (lockAddr u w : ℕ) : Prop :=
  ∃ a c owner α β, calls = a ++ .block w lockAddr owner :: c ∧ a.foldlM (fun s e => step fuel e s) σ₀ = some α ∧
    step fuel (.block w lockAddr owner) α = some β ∧ α.blockedOn u = some lockAddr ∧
    (α.thread u).effective = (α.thread w).effective ∧
    EveryStep (step fuel) (fun τ _ => τ.Level lockAddr u w) β c ∧ σ.Level lockAddr u w

/-- `turnstile_unblock` by `t` after the run wakes a most urgent waiter of its lock, if there is
one, and the first that came among equals. -/
def WakesUrgent (fuel : ℕ) (σ₀ : Turnstiles) (calls : List TurnstileCall) (σ : Turnstiles) (t lockAddr : ℕ) : Prop :=
  ∃ next σ', σ.turnstileUnblock fuel t lockAddr = some (next, σ') ∧
    (next = none ↔ ∀ u, σ.blockedOn u ≠ some lockAddr) ∧
    ∀ w ∈ next, σ.blockedOn w = some lockAddr ∧
      (∀ u, σ.blockedOn u = some lockAddr → (σ.thread u).effective ≤ (σ.thread w).effective) ∧
      ∀ u, ¬ CameBefore fuel σ₀ calls σ lockAddr u w

/-- `turnstile_block` by `t` with the owner `o` raises the priority of `u`. -/
def Raised (σ : Turnstiles) (t o u : ℕ) : Prop :=
  (σ.thread u).effective < (σ.thread t).effective ∧
    Relation.ReflTransGen (InheritanceRun.Raises σ (σ.thread t).effective) o u

/-- A waiter that is raised has only threads before it in its queue that are as urgent as it
becomes, or are raised too. -/
def KeepsOrder (σ : Turnstiles) : TurnstileCall → Prop
  | .block t _ owner => ∀ o ∈ owner, ∀ i, (σ.waitersAt i).Pairwise fun a b =>
      σ.Raised t o b → (σ.thread t).effective ≤ (σ.thread a).effective ∨ σ.Raised t o a
  | .unblock _ _ | .hasWaiters _ _ => True

/-! ### Sorted queues -/

/-- The waiters are in the order of their priorities, the most urgent first. -/
def Sorted (σ : Turnstiles) : Prop :=
  ∀ i, (σ.waitersAt i).Pairwise fun a b => (σ.thread b).effective ≤ (σ.thread a).effective

theorem mem_of_mem_parts :
    (∀ x ∈ l.takeWhile (fun w => (σ.thread t).effective ≤ (σ.thread w).effective), x ∈ l) ∧
      ∀ x ∈ l.dropWhile (fun w => (σ.thread t).effective ≤ (σ.thread w).effective), x ∈ l :=
  ⟨fun _ hx => (List.takeWhile_sublist _).mem hx, fun _ hx => (List.dropWhile_sublist _).mem hx⟩

/-- An order of the waiters holds with `t` among them when it holds between `t` and the ones that
it is put between. -/
theorem pairwise_waitersInsert {R : ℕ → ℕ → Prop} (h : l.Pairwise R)
    (hbefore : ∀ x ∈ l, (σ.thread t).effective ≤ (σ.thread x).effective → R x t)
    (hafter : ∀ x ∈ l.dropWhile (fun w => (σ.thread t).effective ≤ (σ.thread w).effective), R t x) :
    (turnstileWaitersInsert t σ l).Pairwise R := by
  have hsplit := h
  rw [← List.takeWhile_append_dropWhile (p := fun w => (σ.thread t).effective ≤ (σ.thread w).effective) (l := l),
    List.pairwise_append] at hsplit
  obtain ⟨hfirst, hlast, hacross⟩ := hsplit
  refine List.pairwise_append.2 ⟨hfirst, List.pairwise_cons.2 ⟨hafter, hlast⟩, fun x hx y hy => ?_⟩
  rcases List.mem_cons.1 hy with rfl | hy
  · exact hbefore x (mem_of_mem_parts.1 x hx) (by simpa using List.mem_takeWhile_imp hx)
  · exact hacross x hx y hy

/-- In a sorted queue, what `t` is put before is less urgent. -/
theorem lt_of_mem_dropWhile {x : ℕ} (h : l.Pairwise fun a b => (σ.thread b).effective ≤ (σ.thread a).effective)
    (hx : x ∈ l.dropWhile (fun w => (σ.thread t).effective ≤ (σ.thread w).effective)) :
    (σ.thread x).effective < (σ.thread t).effective := by
  induction l with
  | nil => exact absurd hx List.not_mem_nil
  | cons y l ih =>
    obtain ⟨hy, hl⟩ := List.pairwise_cons.1 h
    by_cases hle : (σ.thread t).effective ≤ (σ.thread y).effective
    · rw [List.dropWhile_cons_of_pos (by simpa using hle)] at hx
      exact ih hl hx
    · rw [List.dropWhile_cons_of_neg (by simpa using hle)] at hx
      have hlow : (σ.thread x).effective ≤ (σ.thread y).effective := by
        rcases List.mem_cons.1 hx with rfl | hx
        · exact le_rfl
        · exact hy x hx
      exact hlow.trans_lt (Nat.lt_of_not_le hle)

/-- And what is as urgent stays before it. -/
theorem sublist_waitersInsert (h : l.Pairwise fun a b => (σ.thread b).effective ≤ (σ.thread a).effective) (hu : u ∈ l)
    (hle : (σ.thread t).effective ≤ (σ.thread u).effective) : [u, t].Sublist (turnstileWaitersInsert t σ l) := by
  have hmem := hu
  rw [← List.takeWhile_append_dropWhile (p := fun w => (σ.thread t).effective ≤ (σ.thread w).effective) (l := l),
    List.mem_append] at hmem
  have hfirst : u ∈ l.takeWhile (fun w => (σ.thread t).effective ≤ (σ.thread w).effective) :=
    hmem.resolve_right fun hlast => absurd (lt_of_mem_dropWhile h hlast) (Nat.not_lt.2 hle)
  exact (List.singleton_sublist.2 hfirst).append (List.singleton_sublist.2 List.mem_cons_self)

/-- A waiter that comes leaves the order of the others. -/
theorem subset_waitersInsert (σ : Turnstiles) (t : ℕ) (l : List ℕ) : l.Sublist (turnstileWaitersInsert t σ l) := by
  have hparts := (List.Sublist.refl (l.takeWhile (fun w => (σ.thread t).effective ≤ (σ.thread w).effective))).append
    (List.sublist_cons_self t (l.dropWhile (fun w => (σ.thread t).effective ≤ (σ.thread w).effective)))
  rw [List.takeWhile_append_dropWhile] at hparts
  exact hparts

/-- What the loop raises becomes as urgent as the thread that blocks. -/
theorem Raised.le (h : σ.Raised t o u) (hd : InheritanceRun.Donates (σ.thread t).effective o σ σ') :
    (σ.thread t).effective ≤ (σ'.thread u).effective := by
  obtain ⟨-, hpath⟩ := h
  induction hpath with
  | refl => exact hd.reaches
  | tail _ hnext ih =>
    obtain ⟨hlt, howner⟩ := hnext
    exact hd.passes _ _ (Nat.ne_of_gt (hlt.trans_le ih)) howner

/-- Without an owner no priority changes. -/
theorem block_nobody (h : σ.turnstileBlock fuel lockAddr t none = some σ') (u : ℕ) :
    (σ'.thread u).effective = (σ.thread u).effective := by
  obtain ⟨ρ, hρ, rfl⟩ := Option.map_eq_some_iff.1 h
  obtain rfl : σ.turnstileEnter lockAddr t none = ρ := Option.some.inj hρ
  change (Function.update (σ.turnstileEnter lockAddr t none).thread t _ u).effective = _
  rw [enter_thread]
  by_cases hu : u = t
  · rw [hu, Function.update_self, Function.update_self]
  · rw [Function.update_of_ne hu, Function.update_of_ne hu]

/-- **`turnstile_block`** leaves sorted queues. -/
theorem Inv.sorted_block (h : σ.Inv) (hs : σ.Sorted) (hok : σ.KeepsOrder (.block t lockAddr owner))
    (hblock : σ.turnstileBlock fuel lockAddr t owner = some σ') : σ'.Sorted := by
  have hb := h.blocks hblock
  have hinsert : ∀ i, (turnstileWaitersInsert t σ (σ.waitersAt i)).Pairwise
      fun a b => (σ.thread b).effective ≤ (σ.thread a).effective := fun i =>
    pairwise_waitersInsert (hs i) (fun _ _ hle => hle) fun x hx => (lt_of_mem_dropWhile (hs i) hx).le
  have hqueue : ∀ i, (σ'.waitersAt i).Pairwise fun a b => (σ.thread b).effective ≤ (σ.thread a).effective := by
    intro i
    rw [hb.waiters]
    split
    · exact hinsert i
    · exact hs i
  cases owner with
  | none =>
    intro i
    refine (hqueue i).imp fun hle => ?_
    rwa [block_nobody hblock, block_nobody hblock]
  | some o =>
    have hd : InheritanceRun.Donates (σ.thread t).effective o σ σ' := InheritanceRun.block_donates hblock
    have hahead : ∀ i, (σ'.waitersAt i).Pairwise fun a b =>
        σ.Raised t o b → (σ.thread t).effective ≤ (σ.thread a).effective ∨ σ.Raised t o a := by
      intro i
      have hold := hok o rfl i
      rw [hb.waiters]
      split
      · exact pairwise_waitersInsert hold (fun x _ _ hself => absurd hself.1 (lt_irrefl _)) fun x _ _ => .inl le_rfl
      · exact hold
    intro i
    refine ((hqueue i).and (hahead i)).imp fun {a b} hab => ?_
    rcases hd.raised b with heq | ⟨hlt, heq, hpath⟩
    · rw [heq]
      exact hab.1.trans (hd.le a)
    · rw [heq]
      rcases hab.2 ⟨hlt, hpath⟩ with hle | hraised
      · exact hle.trans (hd.le a)
      · exact hraised.le hd

/-- `turnstile_unblock` changes the priority of its caller only. -/
theorem Wakes.effective {next : ℕ} {waiters : List ℕ} (hw : Wakes lockAddr t next waiters σ σ') (hu : u ≠ t) :
    (σ'.thread u).effective = (σ.thread u).effective := by
  rw [hw.thread]
  split
  · next hun => rw [hun]
  · rfl

/-- **One call** leaves sorted queues. -/
theorem Inv.sorted_step (h : σ.Inv) (hs : σ.Sorted) (hok : σ.KeepsOrder e)
    (hstep : Turnstiles.step fuel e σ = some σ') : σ'.Sorted := by
  unfold Turnstiles.step at hstep
  split at hstep
  · exact absurd hstep (by simp)
  · next ht =>
    cases e with
    | block t lock owner => exact h.sorted_block hs hok hstep
    | unblock t lock =>
      obtain ⟨⟨next, τ⟩, hun, rfl⟩ := Option.map_eq_some_iff.1 hstep
      rcases h.unblock_cases (not_not.1 ht) hun with ⟨-, hidle⟩ | ⟨w, waiters, -, hwake⟩
      · intro i
        rw [hidle.waiters, hidle.thread]
        exact hs i
      · intro i
        have hqueue : (τ.waitersAt i).Sublist (σ.waitersAt i) := by
          rw [hwake.waiters]
          split
          · next hi =>
            rw [hi, hwake.first]
            exact List.sublist_cons_self w waiters
          · exact .refl _
        have hkeep : ∀ u ∈ τ.waitersAt i, (τ.thread u).effective = (σ.thread u).effective := fun u hu =>
          hwake.effective (h.ne_of_mem (not_not.1 ht) (hqueue.mem hu))
        refine ((hs i).sublist hqueue).imp_of_mem fun {a b} ha hb hle => ?_
        rwa [hkeep a ha, hkeep b hb]
    | hasWaiters t lock =>
      obtain rfl := Option.some.inj hstep
      intro i
      change ((σ.turnstileGetLocked lock).waitersAt i).Pairwise fun a b =>
        ((σ.turnstileGetLocked lock).thread b).effective ≤ ((σ.turnstileGetLocked lock).thread a).effective
      rw [h.getLocked_waitersAt, getLocked_thread]
      exact hs i

/-! ### Two waiters -/

/-- The first thread of a queue goes, and two others stay in their order. -/
theorem pair_tail {x : ℕ} (h : [u, w].Sublist (x :: l)) (hx : x ≠ u) : [u, w].Sublist l := by
  cases h with
  | cons _ h => exact h
  | cons_cons _ _ => exact absurd rfl hx

/-- **Two threads that both wait on** stay in their order. -/
theorem Inv.pair_step (h : σ.Inv) (hin : [u, w].Sublist (σ.waitersAt (turnstileHashIndex lockAddr)))
    (hlevel' : σ'.Level lockAddr u w) (hstep : Turnstiles.step fuel e σ = some σ') :
    [u, w].Sublist (σ'.waitersAt (turnstileHashIndex lockAddr)) := by
  unfold Turnstiles.step at hstep
  split at hstep
  · exact absurd hstep (by simp)
  · next ht =>
    cases e with
    | block t lock owner =>
      rw [(h.blocks hstep).waiters]
      split
      · exact hin.trans (subset_waitersInsert σ t _)
      · exact hin
    | unblock t lock =>
      obtain ⟨⟨next, τ⟩, hun, rfl⟩ := Option.map_eq_some_iff.1 hstep
      rcases h.unblock_cases (not_not.1 ht) hun with ⟨-, hidle⟩ | ⟨x, waiters, -, hwake⟩
      · rw [hidle.waiters]
        exact hin
      · rw [hwake.waiters]
        split
        · next hi =>
          rw [hi, hwake.first] at hin
          refine pair_tail hin ?_
          rintro rfl
          have hawake := hlevel'.1
          rw [hwake.blockedOn, Function.update_self] at hawake
          cases hawake
        · exact hin
    | hasWaiters t lock =>
      obtain rfl := Option.some.inj hstep
      change [u, w].Sublist ((σ.turnstileGetLocked lock).waitersAt _)
      rw [h.getLocked_waitersAt]
      exact hin

/-- Who came before among equals is before in the queue. -/
theorem CameBefore.sublist {σ₀ : Turnstiles} (h : CameBefore fuel σ₀ calls σ lockAddr u w) (h₀ : σ₀.Inv) (hs₀ : σ₀.Sorted)
    (hrun : calls.foldlM (fun s e => Turnstiles.step fuel e s) σ₀ = some σ)
    (hall : EveryStep (Turnstiles.step fuel) KeepsOrder σ₀ calls) :
    [u, w].Sublist (σ.waitersAt (turnstileHashIndex lockAddr)) := by
  obtain ⟨a, c, owner, α, β, rfl, hα, hβ, hu, heq, hlevel, hend⟩ := h
  obtain ⟨hfirst, -⟩ := hall.append hα
  obtain ⟨hαinv, hαsorted⟩ := hfirst.keeps (P := fun τ => τ.Inv ∧ τ.Sorted) hα ⟨h₀, hs₀⟩ fun τ e τ' hok hτ hstep =>
    ⟨hτ.1.step hstep, hτ.1.sorted_step hτ.2 hok hstep⟩
  obtain ⟨τ, hτ, hrest⟩ := foldlM_append_eq_some.1 hrun
  obtain rfl : τ = α := Option.some.inj (hτ.symm.trans hα)
  obtain ⟨ρ, hρ, hrest⟩ := foldlM_cons_eq_some.1 hrest
  obtain rfl : ρ = β := Option.some.inj (hρ.symm.trans hβ)
  have hblock : τ.turnstileBlock fuel lockAddr w owner = some ρ := by
    unfold Turnstiles.step at hβ
    split at hβ
    · cases hβ
    · exact hβ
  have hstart : [u, w].Sublist (ρ.waitersAt (turnstileHashIndex lockAddr)) := by
    rw [(hαinv.blocks hblock).waiters, if_pos rfl]
    exact sublist_waitersInsert (hαsorted _) (hαinv.waits u lockAddr hu) heq.ge
  have hkeep := hlevel.keeps (P := fun τ => τ.Inv ∧
      (τ.Level lockAddr u w → [u, w].Sublist (τ.waitersAt (turnstileHashIndex lockAddr)))) hrest
    ⟨hαinv.step hβ, fun _ => hstart⟩ fun τ e τ' hτlevel hτ hstep =>
      ⟨hτ.1.step hstep, fun hlevel' => hτ.1.pair_step (hτ.2 hτlevel) hlevel' hstep⟩
  exact hkeep.2 hend

/-! ### Runs -/

theorem Init.sorted (h : σ.Init) : σ.Sorted := fun i => by
  rw [waitersAt, h.1]
  exact List.Pairwise.nil

/-- **The most urgent waiter is woken**, first come first among equals, as long as each waiter that
is raised has only threads before it that are as urgent then. -/
theorem wakes_urgent_run {s : Set ℕ} {σ₀ : Turnstiles} (hs : Distinct s) (h₀ : σ₀.Init)
    (hrun : calls.foldlM (fun s e => step (fuel + 1) e s) σ₀ = some σ)
    (hall : EveryStep (step (fuel + 1)) (fun τ e => About s e ∧ τ.KeepsOrder e) σ₀ calls) (hlock : lockAddr ∈ s)
    (ht : σ.blockedOn t = none) : WakesUrgent (fuel + 1) σ₀ calls σ t lockAddr := by
  have horder : EveryStep (step (fuel + 1)) KeepsOrder σ₀ calls :=
    hall.imp (P := fun _ => True) trivial fun _ _ h _ => ⟨h.2, fun _ _ => trivial⟩
  have hin₀ : σ₀.WaitsIn s := fun u lock hu => by
    rw [h₀.2.1] at hu
    cases hu
  obtain ⟨hinv, hin, hsorted⟩ := hall.keeps (P := fun τ => τ.Inv ∧ τ.WaitsIn s ∧ τ.Sorted) hrun
    ⟨h₀.inv, hin₀, h₀.sorted⟩ fun τ e τ' hok hτ hstep =>
      ⟨hτ.1.step hstep, hτ.1.waitsIn_step hτ.2.1 hok.1 hstep, hτ.1.sorted_step hτ.2.2 hok.2 hstep⟩
  have hends : (σ.turnstileUnblock (fuel + 1) t lockAddr).isSome := hinv.unblock_ends ht
  obtain ⟨⟨next, σ'⟩, hun⟩ := Option.isSome_iff_exists.1 hends
  refine ⟨next, σ', hun, ?_⟩
  rcases hinv.unblock_cases ht hun with ⟨rfl, hidle⟩ | ⟨w, waiters, rfl, hwake⟩
  · refine ⟨iff_of_true rfl fun u hu => ?_, nofun⟩
    have hmem := hinv.waits u lockAddr hu
    rw [hidle.empty] at hmem
    exact List.not_mem_nil hmem
  · have hw : σ.blockedOn w = some lockAddr :=
      hinv.blockedOn_of_mem hs hin hlock (hwake.first ▸ List.mem_cons_self)
    have hqueue := hsorted (turnstileHashIndex lockAddr)
    have hnodup := hinv.nodup (turnstileHashIndex lockAddr)
    rw [hwake.first] at hqueue hnodup
    refine ⟨iff_of_false nofun fun hnobody => hnobody w hw, fun w' hw' => ?_⟩
    obtain rfl : w = w' := Option.some.inj hw'
    refine ⟨hw, fun u hu => ?_, fun u hbefore => ?_⟩
    · have hmem := hinv.waits u lockAddr hu
      rw [hwake.first] at hmem
      rcases List.mem_cons.1 hmem with rfl | hmem
      · exact le_rfl
      · exact (List.pairwise_cons.1 hqueue).1 u hmem
    · -- `w` would be behind `u` in a queue that it is the first of
      have hpair := hbefore.sublist h₀.inv h₀.sorted hrun horder
      rw [hwake.first] at hpair
      have hne : w ≠ u := by
        rintro rfl
        exact absurd (hpair.nodup hnodup) (by simp)
      have htail := (pair_tail hpair hne).mem (List.mem_cons_of_mem u List.mem_cons_self)
      exact (List.nodup_cons.1 hnodup).1 htail

/-- Threads `5` and `3` wait for the lock of `9`, and `8` for one that `3` has. -/
def chainRun : List TurnstileCall := [.block 5 0x1000 (some 9), .block 3 0x1000 (some 9), .block 8 0x1008 (some 3)]

/-- `3` is raised to the priority of `8`, and `5` is woken. -/
theorem not_wakes_urgent : ¬ ∀ (fuel : ℕ) (s : Set ℕ) (σ₀ σ : Turnstiles) (calls : List TurnstileCall) (t lockAddr : ℕ),
    Distinct s → σ₀.Init → (∀ e ∈ calls, About s e) → calls.foldlM (fun s e => step (fuel + 1) e s) σ₀ = some σ →
    lockAddr ∈ s → σ.blockedOn t = none → WakesUrgent (fuel + 1) σ₀ calls σ t lockAddr := by
  intro hall
  have hdistinct : ∀ l ∈ [0x1000, 0x1008], ∀ l' ∈ [0x1000, 0x1008], turnstileHashIndex l = turnstileHashIndex l' → l = l' := by
    decide
  have hrun : chainRun.foldlM (fun s e => step 4 e s) idleHost =
      some ((chainRun.foldlM (fun s e => step 4 e s) idleHost).get rfl) := rfl
  obtain ⟨next, σ', hun, -, hurgent⟩ := hall 3 {l | l ∈ [0x1000, 0x1008]} idleHost _ chainRun 9 0x1000 hdistinct
    idleHost_init (by simp [chainRun, About]) hrun (by simp) rfl
  obtain ⟨-, hmost, -⟩ := hurgent 5 (congrArg Prod.fst (Option.some.inj hun)).symm
  exact absurd (hmost 3 rfl) (by decide)

/-- The more urgent of two waiters is woken first. -/
theorem wakes_urgent_run_two :
    ∃ σ, [TurnstileCall.block 3 0x1000 (some 9), .block 5 0x1000 (some 9)].foldlM (fun s e => step 4 e s) idleHost = some σ ∧
      WakesUrgent 4 idleHost [.block 3 0x1000 (some 9), .block 5 0x1000 (some 9)] σ 9 0x1000 := by
  refine ⟨_, rfl, wakes_urgent_run (s := {0x1000}) ?_ idleHost_init rfl ?_ rfl rfl⟩
  · rintro l rfl l' rfl -
    rfl
  · refine ⟨⟨rfl, fun _ _ _ => List.Pairwise.nil⟩, fun τ hτ => ⟨⟨rfl, fun _ _ i => ?_⟩, fun _ _ => trivial⟩⟩
    have hblock : idleHost.turnstileBlock 4 0x1000 3 (some 9) = some τ := hτ
    rw [(idleHost_init.inv.blocks hblock).waiters]
    split
    · exact List.pairwise_singleton ..
    · exact List.Pairwise.nil

end Turnstiles

end Flopperating
