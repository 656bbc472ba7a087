/-
# Reference counts that threads share

The counts of `src/lib/refcount.h` without a lock: `refcount_inc_not_zero` and
`refcount_dec_and_test` are loops of an `atomic_load` and an `atomic_compare_exchange_weak`, which
fails when the count has changed since the load, or for no reason.  Any number of threads make
calls, and a step of the system is one access to the count by one of them.

Each call takes effect at once, in the step in which it returns (`step_atomic`): all others leave
the count as it is.  So the threads together are a sequence of calls of the functions of
`Flopperating.Task.Pipe`, and the count is given back once (`refcount_releases_once`).

| source | here |
| --- | --- |
| `refcount_t`, and the threads that use it | `Refcount` |
| before `atomic_load`, before `atomic_compare_exchange_weak` | `RefcountPc.load`, `RefcountPc.exchange` |
| an iteration that fails | from `exchange` to `load`; what it loads into `old` is not used |
-/

import Flopperating.Data.Transition
import Flopperating.Task.Pipe

namespace Flopperating

open Transition

inductive RefcountCall
  | incNotZero
  | decAndTest
  deriving DecidableEq

namespace RefcountCall

/-- What a call that has loaded `old` puts in its place. -/
def next : RefcountCall → BitVec 32 → BitVec 32
  | incNotZero, old => old + 1
  | decAndTest, old => old - 1

/-- What it returns when it has done so. -/
def result : RefcountCall → BitVec 32 → Bool
  | incNotZero, _ => true
  | decAndTest, old => old - 1 = 0

/-- What it logs when there is no reference. -/
def message : RefcountCall → List String
  | incNotZero => []
  | decAndTest => ["possible uaf detected: refcount is already 0\n"]

/-- The call when nothing comes between its accesses. -/
def atomic : RefcountCall → ℕ → Bool × ℕ
  | incNotZero => refcountIncNotZero
  | decAndTest => refcountDecAndTest

end RefcountCall

/-- Where a thread is. -/
inductive RefcountPc
  | idle
  | load (call : RefcountCall)
  | exchange (call : RefcountCall) (old : BitVec 32)

/-- A call that has returned. -/
structure Returned where
  call : RefcountCall
  /-- It has changed the count. -/
  exchanged : Bool
  result : Bool

/-- A count, its threads, and what they have done. -/
structure Refcount (ι : Type*) where
  value : BitVec 32
  pc : ι → RefcountPc
  returned : List Returned
  log : List String

inductive RefcountStep (ι : Type*)
  | call (thread : ι) (call : RefcountCall)
  | load (thread : ι)
  /-- The exchange, which may be one that fails for no reason. -/
  | exchange (thread : ι) (spurious : Bool)

namespace Refcount

variable {ι : Type*} [DecidableEq ι] {σ σ' τ : Refcount ι} {a : RefcountStep ι} {ops : List (RefcountStep ι)}

def setPc (σ : Refcount ι) (i : ι) (pc : RefcountPc) : Refcount ι := { σ with pc := Function.update σ.pc i pc }

/-- Thread `i` returns. -/
def finish (σ : Refcount ι) (i : ι) (r : Returned) : Refcount ι :=
  { σ.setPc i .idle with returned := σ.returned ++ [r] }

/-- One step. -/
def step (a : RefcountStep ι) (σ : Refcount ι) : Option (Refcount ι) :=
  match a with
  | .call i c =>
    match σ.pc i with
    | .idle => some (σ.setPc i (.load c))
    | _ => none
  | .load i =>
    match σ.pc i with
    | .load c =>
      if σ.value = 0 then some { σ.finish i ⟨c, false, false⟩ with log := σ.log ++ c.message }
      else some (σ.setPc i (.exchange c σ.value))
    | _ => none
  | .exchange i spurious =>
    match σ.pc i with
    | .exchange c old =>
      if σ.value = old ∧ spurious = false then some { σ.finish i ⟨c, true, c.result old⟩ with value := c.next old }
      else some (σ.setPc i (.load c))
    | _ => none

/-- `refcount_init`, before the first call. -/
def refcountInit (ι : Type*) : Refcount ι := ⟨1, fun _ => .idle, [], []⟩

/-! ### What is counted -/

/-- The successful calls of `refcount_inc_not_zero`. -/
def increments (σ : Refcount ι) : ℕ := σ.returned.countP fun r => r.call = .incNotZero ∧ r.result = true

/-- The calls of `refcount_dec_and_test` that have taken a reference away. -/
def decrements (σ : Refcount ι) : ℕ := σ.returned.countP fun r => r.call = .decAndTest ∧ r.exchanged = true

/-- The calls of `refcount_dec_and_test` that have returned `true`. -/
def releases (σ : Refcount ι) : ℕ := σ.returned.countP fun r => r.call = .decAndTest ∧ r.result = true

/-- Fewer than 2³² - 1 increments have no decrement yet. -/
def Few (σ : Refcount ι) : Prop := σ.increments < σ.decrements + (2 ^ 32 - 1)

instance : Decidable σ.Few := inferInstanceAs (Decidable (_ < _))

/-! ### Calls take effect at once -/

/-- No thread has loaded 0 and goes on. -/
def Loaded (σ : Refcount ι) : Prop := ∀ i c old, σ.pc i = .exchange c old → old ≠ 0

theorem Loaded.setPc (h : σ.Loaded) {i : ι} {pc : RefcountPc} (hpc : ∀ c old, pc = .exchange c old → old ≠ 0) :
    (σ.setPc i pc).Loaded := by
  intro j c old hj
  change Function.update σ.pc i pc j = _ at hj
  by_cases hij : j = i
  · rw [hij, Function.update_self] at hj
    exact hpc c old hj
  · rw [Function.update_of_ne hij] at hj
    exact h j c old hj

/-- What a step can do: leave the count and what has returned, or return from a call. -/
theorem step_cases (h : step a σ = some σ') (hl : σ.Loaded) :
    (∃ i pc, σ' = σ.setPc i pc ∧ ∀ c old, pc = .exchange c old → old ≠ 0) ∨
      (∃ i c, σ.value = 0 ∧ σ' = { σ.finish i ⟨c, false, false⟩ with log := σ.log ++ c.message }) ∨
      ∃ i c, σ.value ≠ 0 ∧ σ' = { σ.finish i ⟨c, true, c.result σ.value⟩ with value := c.next σ.value } := by
  cases a with
  | call i c =>
    simp only [step] at h
    split at h
    · exact .inl ⟨i, .load c, (Option.some.inj h).symm, by simp⟩
    · cases h
  | load i =>
    simp only [step] at h
    split at h
    · next c hpc =>
      split at h
      · next hzero => exact .inr (.inl ⟨i, c, hzero, (Option.some.inj h).symm⟩)
      · next hzero =>
        refine .inl ⟨i, .exchange c σ.value, (Option.some.inj h).symm, fun c' old hpc => ?_⟩
        obtain ⟨-, rfl⟩ := RefcountPc.exchange.inj hpc
        exact hzero
    · cases h
  | exchange i spurious =>
    simp only [step] at h
    split at h
    · next c old hpc =>
      split at h
      · next hsame =>
        obtain ⟨rfl, -⟩ := hsame
        exact .inr (.inr ⟨i, c, hl i c _ hpc, (Option.some.inj h).symm⟩)
      · exact .inl ⟨i, .load c, (Option.some.inj h).symm, by simp⟩
    · cases h

theorem Loaded.step (hl : σ.Loaded) (h : step a σ = some σ') : σ'.Loaded := by
  obtain ⟨i, pc, rfl, hpc⟩ | ⟨i, c, -, rfl⟩ | ⟨i, c, -, rfl⟩ := step_cases h hl
  · exact hl.setPc hpc
  · have hidle : (σ.setPc i .idle).Loaded := hl.setPc (by simp)
    exact hidle
  · have hidle : (σ.setPc i .idle).Loaded := hl.setPc (by simp)
    exact hidle

/-- What a call makes of a count that is not 0. -/
theorem atomic_of_ne_zero {v : BitVec 32} (hv : v ≠ 0) (c : RefcountCall) :
    c.atomic v.toNat = (c.result v, (c.next v).toNat) := by
  have hpos : v.toNat ≠ 0 := fun h => hv (BitVec.eq_of_toNat_eq h)
  have hlt := v.isLt
  cases c with
  | incNotZero =>
    have hnext : (v + 1).toNat = u32 (v.toNat + 1) := BitVec.toNat_add ..
    rw [RefcountCall.atomic, refcountIncNotZero, if_neg hpos, RefcountCall.next, RefcountCall.result, hnext]
  | decAndTest =>
    have hnext : (v - 1).toNat = v.toNat - 1 := by
      rw [BitVec.toNat_sub]
      change (2 ^ 32 - 1 + v.toNat) % 2 ^ 32 = _
      omega
    have hzero : v - 1 = 0 ↔ v.toNat - 1 = 0 := by
      rw [← BitVec.toNat_inj, hnext]
      rfl
    rw [RefcountCall.atomic, refcountDecAndTest, if_neg hpos, RefcountCall.next, RefcountCall.result, hnext,
      decide_eq_decide.2 hzero]

/-- **Each call takes effect at once**: a step leaves the count, or a call returns in it what it
would have returned alone. -/
theorem step_atomic (hl : σ.Loaded) (h : step a σ = some σ') :
    (σ'.value = σ.value ∧ σ'.returned = σ.returned) ∨
      ∃ r : Returned, σ'.returned = σ.returned ++ [r] ∧ r.call.atomic σ.value.toNat = (r.result, σ'.value.toNat) ∧
        (r.exchanged = true ↔ σ.value ≠ 0) := by
  obtain ⟨i, pc, rfl, -⟩ | ⟨i, c, hzero, rfl⟩ | ⟨i, c, hpos, rfl⟩ := step_cases h hl
  · exact .inl ⟨rfl, rfl⟩
  · refine .inr ⟨⟨c, false, false⟩, rfl, ?_, ⟨Bool.noConfusion, fun h => absurd hzero h⟩⟩
    change c.atomic σ.value.toNat = (false, σ.value.toNat)
    rw [hzero]
    cases c <;> rfl
  · exact .inr ⟨⟨c, true, c.result σ.value⟩, rfl, atomic_of_ne_zero hpos c, ⟨fun _ => hpos, fun _ => rfl⟩⟩

/-! ### The count -/

/-- The count is what the calls have left of it. -/
structure Inv (σ : Refcount ι) : Prop where
  loaded : σ.Loaded
  count : σ.value.toNat + σ.decrements = 1 + σ.increments
  released : σ.releases = if σ.value.toNat = 0 then 1 else 0

omit [DecidableEq ι] in
theorem inv_refcountInit : (refcountInit ι).Inv where
  loaded := fun _ _ _ h => nomatch h
  count := rfl
  released := rfl

omit [DecidableEq ι] in
theorem value_eq_zero : σ.value = 0 ↔ σ.value.toNat = 0 := BitVec.toNat_inj.symm

omit [DecidableEq ι] in
/-- What one more call makes of the counts. -/
theorem counts_append {r : Returned} (h : σ'.returned = σ.returned ++ [r]) :
    σ'.increments = σ.increments + (if r.call = .incNotZero ∧ r.result = true then 1 else 0) ∧
      σ'.decrements = σ.decrements + (if r.call = .decAndTest ∧ r.exchanged = true then 1 else 0) ∧
      σ'.releases = σ.releases + if r.call = .decAndTest ∧ r.result = true then 1 else 0 := by
  simp only [increments, decrements, releases, h, List.countP_append, List.countP_singleton, decide_eq_true_eq,
    and_self]

omit [DecidableEq ι] in
/-- A call that returns keeps the count right. -/
theorem Inv.returns (hi : σ.Inv) {r : Returned} (hreturned : σ'.returned = σ.returned ++ [r])
    (hatomic : r.call.atomic σ.value.toNat = (r.result, σ'.value.toNat)) (hexchanged : r.exchanged = true ↔ σ.value ≠ 0)
    (hfew : σ'.Few) :
    σ'.value.toNat + σ'.decrements = 1 + σ'.increments ∧ (σ'.releases = if σ'.value.toNat = 0 then 1 else 0) ∧
      (σ.value = 0 → σ'.value = 0 ∧ r.result = false) := by
  obtain ⟨hinc, hdec, hrel⟩ := counts_append hreturned
  have hcount := hi.count
  have hreleased := hi.released
  rw [Few, hinc, hdec] at hfew
  rw [hinc, hdec, hrel]
  rw [ne_eq, value_eq_zero] at hexchanged
  rw [value_eq_zero, value_eq_zero]
  obtain ⟨call, exchanged, result⟩ := r
  dsimp only at *
  by_cases hzero : σ.value.toNat = 0
  · -- Nothing is counted.
    have hnone : call.atomic σ.value.toNat = (false, 0) := by
      rw [hzero]
      cases call <;> rfl
    obtain ⟨rfl, hvalue⟩ := Prod.mk.inj (hatomic.symm.trans hnone)
    simp_all
  · obtain rfl := hexchanged.2 hzero
    cases call with
    | incNotZero =>
      rw [RefcountCall.atomic, refcountIncNotZero, if_neg hzero] at hatomic
      obtain ⟨rfl, hvalue⟩ := Prod.mk.inj hatomic
      simp only [reduceCtorEq, false_and, and_self, if_true, if_false] at hfew ⊢
      have hfits : σ'.value.toNat = σ.value.toNat + 1 := by
        rw [← hvalue]
        exact Nat.mod_eq_of_lt (by omega)
      rw [if_neg hzero] at hreleased
      rw [hfits, if_neg (Nat.succ_ne_zero _)]
      omega
    | decAndTest =>
      rw [RefcountCall.atomic, refcountDecAndTest, if_neg hzero] at hatomic
      obtain ⟨rfl, hvalue⟩ := Prod.mk.inj hatomic
      simp only [reduceCtorEq, false_and, true_and, if_true, if_false, decide_eq_true_eq] at hfew ⊢
      rw [if_neg hzero] at hreleased
      rw [← hvalue]
      omega

/-- **One step** keeps the count right, a call returns `true` as the last one exactly when it
makes the count 0, and nothing changes a count of 0. -/
theorem Inv.step (hi : σ.Inv) (h : Refcount.step a σ = some σ') (hfew : σ'.Few) :
    σ'.Inv ∧ (σ.value = 0 → σ'.value = 0 ∧ ∃ later, σ'.returned = σ.returned ++ later ∧
        ∀ r ∈ later, r.result = false) := by
  obtain ⟨hsame, hreturned⟩ | ⟨r, hreturned, hatomic, hexchanged⟩ := step_atomic hi.loaded h
  · have hinc : σ'.increments = σ.increments := by rw [increments, hreturned, increments]
    have hdec : σ'.decrements = σ.decrements := by rw [decrements, hreturned, decrements]
    have hrel : σ'.releases = σ.releases := by rw [releases, hreturned, releases]
    refine ⟨⟨hi.loaded.step h, by rw [hsame, hinc, hdec, hi.count], by rw [hrel, hsame, hi.released]⟩, fun hzero => ?_⟩
    exact ⟨hsame.trans hzero, [], by rw [hreturned, List.append_nil], fun r hr => nomatch hr⟩
  · obtain ⟨hcount, hreleased, hstays⟩ := hi.returns hreturned hatomic hexchanged hfew
    refine ⟨⟨hi.loaded.step h, hcount, hreleased⟩, fun hzero => ?_⟩
    obtain ⟨hzero', hresult⟩ := hstays hzero
    refine ⟨hzero', [r], hreturned, fun r' hr => ?_⟩
    rw [List.mem_singleton.1 hr, hresult]

omit [DecidableEq ι] in
/-- The call of this step returns `true` as the last one exactly when it makes the count 0. -/
theorem Inv.releases_iff (hi : σ.Inv) (hi' : σ'.Inv) :
    σ'.releases = σ.releases + 1 ↔ σ.value ≠ 0 ∧ σ'.value = 0 := by
  rw [ne_eq, value_eq_zero, value_eq_zero, hi.released, hi'.released]
  split <;> split <;> omega

/-- A count of 0 stays 0, and what returns then returns `false`. -/
theorem Inv.run_zero (hi : σ.Inv) (hrun : ops.foldlM (fun σ a => Refcount.step a σ) σ = some σ')
    (hfew : EveryStep Refcount.step (fun σ a => ∀ τ ∈ Refcount.step a σ, τ.Few) σ ops) (hzero : σ.value = 0) :
    σ'.value = 0 ∧ ∃ later, σ'.returned = σ.returned ++ later ∧ ∀ r ∈ later, r.result = false := by
  refine (hfew.keeps (P := fun τ => τ.Inv ∧ τ.value = 0 ∧ ∃ later, τ.returned = σ.returned ++ later ∧
    ∀ r ∈ later, r.result = false) hrun ⟨hi, hzero, [], (List.append_nil _).symm, fun r hr => nomatch hr⟩ ?_).2
  rintro τ a τ' hfew ⟨hτ, hτzero, later, hlater, hfalse⟩ h
  obtain ⟨hτ', hstays⟩ := hτ.step h (hfew τ' h)
  obtain ⟨hzero', more, hmore, hmorefalse⟩ := hstays hτzero
  refine ⟨hτ', hzero', later ++ more, by rw [hmore, hlater, List.append_assoc], fun r hr => ?_⟩
  exact (List.mem_append.1 hr).elim (hfalse r) (hmorefalse r)

/-- **References are given back once**, whatever the threads do: the count is 1 and the increments
less the decrements, at 0 it stays, where no increment succeeds, and one decrement returns `true`
when the count is 0 in the end, the one that made it 0. -/
theorem refcount_releases_once (hrun : ops.foldlM (fun σ a => step a σ) (refcountInit ι) = some σ)
    (hfew : EveryStep step (fun σ a => ∀ τ ∈ step a σ, τ.Few) (refcountInit ι) ops) :
    σ.value.toNat + σ.decrements = 1 + σ.increments ∧
      (∀ before after τ, ops = before ++ after → before.foldlM (fun σ a => step a σ) (refcountInit ι) = some τ →
        τ.value = 0 → σ.value = 0 ∧ ∃ later, σ.returned = τ.returned ++ later ∧
          ∀ r ∈ later, r.call = .incNotZero → r.result = false) ∧
      (σ.releases = if σ.value = 0 then 1 else 0) ∧
      EveryStep step (fun τ a => ∀ τ' ∈ step a τ, τ'.releases = τ.releases + 1 ↔ τ.value ≠ 0 ∧ τ'.value = 0)
        (refcountInit ι) ops := by
  have hall := hfew.keeps (P := Inv) hrun inv_refcountInit fun τ a τ' hfew hτ h => (hτ.step h (hfew τ' h)).1
  refine ⟨hall.count, ?_, ?_, ?_⟩
  · rintro before after τ rfl hbefore hzero
    obtain ⟨hfirst, hrest⟩ := hfew.append hbefore
    obtain ⟨t, ht, hafter⟩ := foldlM_append_eq_some.1 hrun
    obtain rfl : t = τ := Option.some.inj (ht.symm.trans hbefore)
    have hτ := hfirst.keeps (P := Inv) hbefore inv_refcountInit fun τ a τ' hfew hτ h => (hτ.step h (hfew τ' h)).1
    obtain ⟨hzero', later, hlater, hfalse⟩ := hτ.run_zero hafter hrest hzero
    exact ⟨hzero', later, hlater, fun r hr _ => hfalse r hr⟩
  · rw [hall.released]
    exact if_congr value_eq_zero.symm rfl rfl
  · refine hfew.imp (P := Inv) inv_refcountInit fun τ a hfew hτ => ⟨fun τ' h => ?_, fun τ' h => (hτ.step h (hfew τ' h)).1⟩
    obtain ⟨hτ', hstays⟩ := hτ.step h (hfew τ' h)
    exact hτ.releases_iff hτ'

/-- A thread has loaded the count when another gives the last reference back. -/
def race : List (RefcountStep ℕ) :=
  [.call 0 .incNotZero, .load 0, .call 1 .decAndTest, .load 1, .exchange 1 true, .load 1, .exchange 1 false,
    .exchange 0 false, .load 0]

theorem refcount_releases_once_race :
    ∃ σ, race.foldlM (fun σ a => step a σ) (refcountInit ℕ) = some σ ∧ σ.value.toNat + σ.decrements = 1 + σ.increments ∧
      σ.releases = if σ.value = 0 then 1 else 0 := by
  have hrun : race.foldlM (fun σ a => step a σ) (refcountInit ℕ) =
      some ((race.foldlM (fun σ a => step a σ) (refcountInit ℕ)).get rfl) := rfl
  have hall := refcount_releases_once hrun (by decide)
  exact ⟨_, rfl, hall.1, hall.2.2.1⟩

end Refcount

end Flopperating
