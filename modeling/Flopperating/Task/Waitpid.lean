/-
# Reaping a child

One look of `proc_waitpid` with `WNOHANG`, with what it stores at `status`: the search for the
first zombie that fits, and the second walk over the children that takes it out
(`procWaitpid_reaps`).  `exit_status` is a field of `process_t` that only this call reads, and
is an argument here.
-/

import Flopperating.Task.ForkCounts
import Flopperating.Task.Registry
import Flopperating.Task.ThreadLists

namespace Flopperating

open LinkedList

/-- `WNOHANG`. -/
abbrev wnohang : ℕ := 1

namespace Registry

/-- One look of `proc_waitpid`: the result, unless it yields and looks again, and what it has
stored at `status`, when that is not `NULL`. -/
def procWaitpidStatus (fuel : ℕ) (exitStatus : ℕ → ℤ) (status : Bool) (current : Option ℕ) (pid : ℤ) (options : ℕ)
    (σ : Registry) : Option ((Option ℤ × Option ℤ) × Registry) :=
  match current with
  | none => some ((some (-1), none), σ)
  | some me => do
    match ← findZombie σ.kernel.process pid fuel (σ.kernel.process me).children false with
    | (_, some target) =>
      let stored := if status then some (exitStatus target) else none
      let τ ← σ.procFamilyRemoveChild fuel me target
      return ((some (σ.kernel.process target).pid, stored), ← τ.procClean target)
    | (found, none) =>
      if found then return ((if options &&& wnohang ≠ 0 then some 0 else none, none), σ)
      else return ((some (-1), none), σ)

/-- Without what is stored it is the look of the registry. -/
theorem procWaitpidStatus_procWaitpid (fuel : ℕ) (exitStatus : ℕ → ℤ) (status : Bool) (current : Option ℕ) (pid : ℤ)
    (options : ℕ) (σ : Registry) : (σ.procWaitpidStatus fuel exitStatus status current pid options).map
      (fun o => (o.1.1, o.2)) = σ.procWaitpid fuel current pid (options &&& wnohang ≠ 0) := by
  cases current with
  | none => rfl
  | some me =>
    unfold procWaitpidStatus procWaitpid
    dsimp only [Option.bind_eq_bind]
    rcases findZombie σ.kernel.process pid fuel (σ.kernel.process me).children false with - | ⟨found, - | target⟩
    · rfl
    · cases found <;> simp
    · simp only [Option.bind_some]
      rcases σ.procFamilyRemoveChild fuel me target with - | τ
      · rfl
      · simp only [Option.bind_some]
        rcases τ.procClean target with - | σ' <;> rfl

/-- The child fits what is waited for. -/
abbrev Fits (σ : Registry) (pid : ℤ) (c : ℕ) : Prop := pid = -1 ∨ (σ.kernel.process c).pid = pid

/-- It fits and can be reaped. -/
def Reapable (σ : Registry) (pid : ℤ) (c : ℕ) : Prop := σ.Fits pid c ∧ (σ.kernel.process c).state = .zombie

/-- The first of the children that can be reaped. -/
def FirstReapable (σ : Registry) (pid : ℤ) (cs : List ℕ) (z : ℕ) : Prop :=
  ∃ a b, cs = a ++ z :: b ∧ (∀ c ∈ a, ¬ σ.Reapable pid c) ∧ σ.Reapable pid z

/-- **The child `z` has been reaped**: it has left the list of `me`, and nothing else is changed
but the link that was to it. -/
structure Reaped (σ : Registry) (me z : ℕ) (cs : List ℕ) (σ' : Registry) : Prop where
  children : Chain σ'.siblings (σ'.kernel.process me).children (cs.erase z)
  parent : (σ'.kernel.process z).parent = none
  siblings : (σ'.kernel.process z).siblings = none
  others : ∀ i, i ≠ z → σ'.kernel.process i =
    if nodeBefore z cs = some i then { σ.kernel.process i with siblings := σ.siblings z }
    else if nodeBefore z cs = none ∧ i = me then { σ.kernel.process i with children := σ.siblings z }
    else σ.kernel.process i

variable {σ σ' τ : Registry} {pid : ℤ} {cs a b : List ℕ} {fuel me z n : ℕ} {found : Bool} {p : Option ℕ}

/-! ### The search -/

theorem findZombie_cons_of_not {c : ℕ} (h : ¬ σ.Reapable pid c) :
    findZombie σ.kernel.process pid (n + 1) (some c) found =
      findZombie σ.kernel.process pid n (σ.siblings c) (found || decide (σ.Fits pid c)) := by
  rw [findZombie]
  by_cases hfits : σ.Fits pid c
  · rw [if_pos hfits, decide_eq_true hfits, Bool.or_true]
    split
    · next hzombie => exact absurd ⟨hfits, hzombie⟩ h
    · rfl
  · rw [if_neg hfits, decide_eq_false hfits, Bool.or_false]
    rfl

/-- Without a zombie that fits, the search tells whether any child does. -/
theorem findZombie_none (hcs : Chain σ.siblings p cs) (hfuel : cs.length ≤ n) (hnone : ∀ c ∈ cs, ¬ σ.Reapable pid c) :
    findZombie σ.kernel.process pid n p found = some (found || cs.any fun c => decide (σ.Fits pid c), none) := by
  induction cs generalizing p n found with
  | nil =>
    obtain rfl : p = none := hcs
    cases n <;> simp [findZombie]
  | cons c cs ih =>
    obtain ⟨rfl, hcs⟩ := hcs
    obtain ⟨n, rfl⟩ := Nat.exists_eq_succ_of_ne_zero (Nat.ne_zero_of_lt hfuel)
    rw [findZombie_cons_of_not (hnone c List.mem_cons_self), ih hcs (Nat.le_of_succ_le_succ hfuel) fun c' hc' =>
      hnone c' (List.mem_cons_of_mem _ hc'), List.any_cons, Bool.or_assoc]

/-- The search stops at the first. -/
theorem findZombie_first (hcs : Chain σ.siblings p (a ++ z :: b)) (hfuel : a.length < n)
    (hnone : ∀ c ∈ a, ¬ σ.Reapable pid c) (hz : σ.Reapable pid z) :
    findZombie σ.kernel.process pid n p found = some (true, some z) := by
  induction a generalizing p n found with
  | nil =>
    obtain ⟨rfl, -⟩ := hcs
    obtain ⟨n, rfl⟩ := Nat.exists_eq_succ_of_ne_zero (Nat.ne_zero_of_lt hfuel)
    rw [findZombie, if_pos hz.1, hz.2]
  | cons c a ih =>
    obtain ⟨rfl, hcs⟩ := hcs
    obtain ⟨n, rfl⟩ := Nat.exists_eq_succ_of_ne_zero (Nat.ne_zero_of_lt hfuel)
    rw [findZombie_cons_of_not (hnone c List.mem_cons_self)]
    exact ih hcs (Nat.lt_of_succ_lt_succ hfuel) fun c' hc' => hnone c' (List.mem_cons_of_mem _ hc')

/-! ### Taking the child out -/

/-- The link to `z` goes past it. -/
def linkPast (me z : ℕ) (prev : Option ℕ) (σ : Registry) : Registry :=
  match prev with
  | some prev => σ.setProcess prev { σ.kernel.process prev with siblings := σ.siblings z }
  | none => σ.setProcess me { σ.kernel.process me with children := σ.siblings z }

theorem linkPast_process (me z : ℕ) (prev : Option ℕ) (σ : Registry) (i : ℕ) :
    (σ.linkPast me z prev).kernel.process i =
      if prev = some i then { σ.kernel.process i with siblings := σ.siblings z }
      else if prev = none ∧ i = me then { σ.kernel.process i with children := σ.siblings z }
      else σ.kernel.process i := by
  cases prev with
  | none =>
    by_cases hi : i = me
    · rw [if_neg (by simp), if_pos ⟨rfl, hi⟩, hi]
      exact Function.update_self ..
    · rw [if_neg (by simp), if_neg fun h => hi h.2]
      exact Function.update_of_ne hi ..
  | some q =>
    by_cases hi : i = q
    · rw [if_pos (congrArg some hi.symm), hi]
      exact Function.update_self ..
    · rw [if_neg fun h => hi (Option.some.inj h).symm, if_neg (by simp)]
      exact Function.update_of_ne hi ..

/-- **`proc_family_remove_child`** takes the child out. -/
theorem procFamilyRemoveChild_reaped (hcs : Chain σ.siblings (σ.kernel.process me).children (a ++ z :: b))
    (hfuel : a.length < fuel) : ∃ τ, σ.procFamilyRemoveChild fuel me z = some τ ∧ Reaped σ me z (a ++ z :: b) τ := by
  have hnd := (List.nodup_cons.1 (List.nodup_middle.1 hcs.nodup)).1
  have ha : z ∉ a := fun hz => hnd (List.mem_append_left _ hz)
  have hsearch : ThreadList.search σ.siblings z fuel none (σ.kernel.process me).children = some (some a.getLast?) :=
    (ThreadList.search_split hcs ha hfuel).trans (by rw [Option.or_none])
  let τ := σ.linkPast me z a.getLast?
  let ρ := τ.setProcess z { τ.kernel.process z with parent := none, siblings := none }
  have hself : ρ.kernel.process z = { τ.kernel.process z with parent := none, siblings := none } :=
    Function.update_self ..
  have hother : ∀ i, i ≠ z → ρ.kernel.process i = τ.kernel.process i := fun i hi => Function.update_of_ne hi ..
  have hchildren : (ρ.kernel.process me).children = (τ.kernel.process me).children := by
    by_cases hme : me = z
    · rw [hme, hself]
    · rw [hother me hme]
  have hremove : σ.procFamilyRemoveChild fuel me z = some ρ := by
    rw [procFamilyRemoveChild, hsearch]
    rfl
  refine ⟨ρ, hremove, ?_, by rw [hself], by rw [hself], fun i hi => ?_⟩
  · rw [List.erase_append_right _ ha, List.erase_cons_head, hchildren, linkPast_process]
    refine hcs.takeOut ?_ ?_ fun i hi => ?_
    · rintro rfl
      rw [if_neg (by simp), if_pos ⟨rfl, rfl⟩]
    · intro hne
      have hlast : a.getLast? ≠ none := fun h => hne (List.getLast?_eq_none_iff.1 h)
      rw [if_neg (c := a.getLast? = none ∧ me = me) fun h => hlast h.1]
      split_ifs <;> rfl
    · have hne : i ≠ z := ne_of_mem_of_not_mem hi hnd
      change (ρ.kernel.process i).siblings = _
      rw [hother i hne, linkPast_process]
      split_ifs <;> rfl
  · rw [nodeBefore_split ha, hother i hi, linkPast_process]

/-! ### Cleaning up -/

/-- What `proc_clean` leaves of a process. -/
theorem procClean_process (h : σ.procClean z = some σ') :
    (∀ i, i ≠ z → σ'.kernel.process i = σ.kernel.process i) ∧
      (σ'.kernel.process z).parent = (σ.kernel.process z).parent ∧
      (σ'.kernel.process z).children = (σ.kernel.process z).children ∧
      (σ'.kernel.process z).siblings = (σ.kernel.process z).siblings := by
  obtain ⟨κ, hclean, rfl⟩ := Option.map_eq_some_iff.1 h
  obtain ⟨κ', hrelease, rfl⟩ := Option.map_eq_some_iff.1 hclean
  have hnamed : (∀ i, i ≠ z → (σ.freeStaticName z).kernel.process i = σ.kernel.process i) ∧
      ((σ.freeStaticName z).kernel.process z).parent = (σ.kernel.process z).parent ∧
      ((σ.freeStaticName z).kernel.process z).children = (σ.kernel.process z).children ∧
      ((σ.freeStaticName z).kernel.process z).siblings = (σ.kernel.process z).siblings := by
    unfold freeStaticName
    split_ifs
    · refine ⟨fun i hi => Kernel.process_setProcess_of_ne hi _, ?_⟩
      change ((σ.kernel.setProcess z _).process z).parent = _ ∧ ((σ.kernel.setProcess z _).process z).children = _ ∧
        ((σ.kernel.setProcess z _).process z).siblings = _
      rw [Kernel.process_setProcess]
      exact ⟨rfl, rfl, rfl⟩
    · exact ⟨fun _ _ => rfl, rfl, rfl, rfl⟩
  rw [← Kernel.process_procRelease hrelease] at hnamed
  refine ⟨fun i hi => (Kernel.process_setProcess_of_ne hi _).trans (hnamed.1 i hi), ?_⟩
  rw [Kernel.process_setProcess]
  exact hnamed.2

/-- **`proc_clean`** leaves the other processes and the links of this one. -/
theorem Reaped.procClean (h : Reaped σ me z cs τ) (hclean : τ.procClean z = some σ') : Reaped σ me z cs σ' := by
  obtain ⟨hother, hparent, hchildren, hsiblings⟩ := procClean_process hclean
  have hlinks : ∀ i, σ'.siblings i = τ.siblings i ∧ (σ'.kernel.process i).children = (τ.kernel.process i).children := by
    intro i
    unfold Registry.siblings
    by_cases hi : i = z
    · rw [hi]
      exact ⟨hsiblings, hchildren⟩
    · rw [hother i hi]
      exact ⟨rfl, rfl⟩
  refine ⟨?_, hparent.trans h.parent, hsiblings.trans h.siblings, fun i hi => (hother i hi).trans (h.others i hi)⟩
  rw [(hlinks me).2]
  exact h.children.congr fun i _ => (hlinks i).1

/-! ### One look -/

/-- The first child that can be reaped, or none. -/
theorem firstReapable_or (σ : Registry) (pid : ℤ) (cs : List ℕ) :
    (∃ z, σ.FirstReapable pid cs z) ∨ ∀ c ∈ cs, ¬ σ.Reapable pid c := by
  induction cs with
  | nil => exact .inr fun c hc => absurd hc (List.not_mem_nil)
  | cons c cs ih =>
    by_cases hc : σ.Reapable pid c
    · exact .inl ⟨c, [], cs, rfl, fun _ h => absurd h (List.not_mem_nil), hc⟩
    · rcases ih with ⟨z, a, b, rfl, ha, hz⟩ | hnone
      · exact .inl ⟨z, c :: a, b, rfl, List.forall_mem_cons.2 ⟨hc, ha⟩, hz⟩
      · exact .inr (List.forall_mem_cons.2 ⟨hc, hnone⟩)

section Look

variable {exitStatus : ℕ → ℤ} {status : Bool} {options : ℕ} (hcs : Chain σ.siblings (σ.kernel.process me).children cs)
  (hfuel : cs.length ≤ fuel)

include hcs hfuel

/-- **Nobody can be reaped.** -/
theorem procWaitpidStatus_none (hnone : ∀ c ∈ cs, ¬ σ.Reapable pid c) (hopt : options &&& wnohang ≠ 0) :
    σ.procWaitpidStatus fuel exitStatus status (some me) pid options =
      some ((some (if ∃ c ∈ cs, σ.Fits pid c then 0 else -1), none), σ) := by
  have hany : (cs.any fun c => decide (σ.Fits pid c)) = true ↔ ∃ c ∈ cs, σ.Fits pid c := by simp
  unfold procWaitpidStatus
  dsimp only
  rw [findZombie_none hcs hfuel hnone, Bool.false_or]
  simp only [Option.bind_eq_bind, Option.bind_some]
  by_cases hfits : ∃ c ∈ cs, σ.Fits pid c
  · rw [if_pos hfits, if_pos (hany.2 hfits), if_pos hopt]
    rfl
  · rw [if_neg hfits, if_neg fun h => hfits (hany.1 h)]
    rfl

/-- **The first zombie is reaped.** -/
theorem procWaitpidStatus_first (hz : σ.FirstReapable pid cs z) :
    ∃ τ, σ.procFamilyRemoveChild fuel me z = some τ ∧ Reaped σ me z cs τ ∧
      σ.procWaitpidStatus fuel exitStatus status (some me) pid options = (τ.procClean z).map fun σ' =>
        ((some (σ.kernel.process z).pid, if status then some (exitStatus z) else none), σ') := by
  obtain ⟨a, b, rfl, ha, hz⟩ := hz
  have hroom : a.length < fuel := by
    rw [List.length_append, List.length_cons] at hfuel
    omega
  obtain ⟨τ, hremove, hreaped⟩ := procFamilyRemoveChild_reaped hcs hroom
  refine ⟨τ, hremove, hreaped, ?_⟩
  unfold procWaitpidStatus
  dsimp only
  rw [findZombie_first hcs hroom ha hz]
  simp only [Option.bind_eq_bind, Option.bind_some, hremove]
  cases τ.procClean z <;> rfl

/-- **`proc_waitpid` with `WNOHANG`** returns `-1` when no child fits, `0` when those that fit are
no zombies, and else takes the first zombie out of the list, stores its status and returns its
pid, which `proc_clean` may follow a pointer to nowhere to keep it from.  As pids are positive,
the result tells which it was. -/
theorem procWaitpid_reaps (hopt : options &&& wnohang ≠ 0) :
    ((∀ c ∈ cs, ¬ σ.Fits pid c) → σ.procWaitpidStatus fuel exitStatus status (some me) pid options =
      some ((some (-1), none), σ)) ∧
    ((∃ c ∈ cs, σ.Fits pid c) → (∀ c ∈ cs, ¬ σ.Reapable pid c) →
      σ.procWaitpidStatus fuel exitStatus status (some me) pid options = some ((some 0, none), σ)) ∧
    (∀ z, σ.FirstReapable pid cs z → ∃ τ, σ.procFamilyRemoveChild fuel me z = some τ ∧
      σ.procWaitpidStatus fuel exitStatus status (some me) pid options = (τ.procClean z).map (fun σ' =>
        ((some (σ.kernel.process z).pid, if status then some (exitStatus z) else none), σ')) ∧
      ∀ σ', τ.procClean z = some σ' → Reaped σ me z cs σ') ∧
    ((∀ c ∈ cs, 0 < (σ.kernel.process c).pid) → ∀ ret stored σ',
      σ.procWaitpidStatus fuel exitStatus status (some me) pid options = some ((ret, stored), σ') →
      (ret = some (-1) ↔ ∀ c ∈ cs, ¬ σ.Fits pid c) ∧
      (ret = some 0 ↔ (∃ c ∈ cs, σ.Fits pid c) ∧ ∀ c ∈ cs, ¬ σ.Reapable pid c)) := by
  have hnobody : (∀ c ∈ cs, ¬ σ.Fits pid c) → ∀ c ∈ cs, ¬ σ.Reapable pid c := fun h c hc hreap => h c hc hreap.1
  refine ⟨fun hnone => ?_, fun hfits hnone => ?_, fun z hz => ?_, fun hpids ret stored σ' hrun => ?_⟩
  · rw [procWaitpidStatus_none hcs hfuel (hnobody hnone) hopt, if_neg fun ⟨c, hc, hfits⟩ => hnone c hc hfits]
  · rw [procWaitpidStatus_none hcs hfuel hnone hopt, if_pos hfits]
  · obtain ⟨τ, hremove, hreaped, hrun⟩ := procWaitpidStatus_first hcs hfuel hz
    exact ⟨τ, hremove, hrun, fun σ' hclean => hreaped.procClean hclean⟩
  · rcases firstReapable_or σ pid cs with ⟨z, hz⟩ | hnone
    · -- a pid, which is positive
      obtain ⟨τ, -, -, hlook⟩ := procWaitpidStatus_first hcs hfuel hz
      obtain ⟨ρ, -, heq⟩ := Option.map_eq_some_iff.1 (hlook.symm.trans hrun)
      obtain ⟨hret, -⟩ := Prod.mk.inj (Prod.mk.inj heq).1
      obtain ⟨a, b, rfl, -, hreap⟩ := hz
      have hmem : z ∈ a ++ z :: b := List.mem_append_right _ List.mem_cons_self
      have hpos := hpids z hmem
      rw [← hret]
      refine ⟨iff_of_false (fun h => ?_) fun h => h z hmem hreap.1, iff_of_false (fun h => ?_) fun h => h.2 z hmem hreap⟩
      · exact absurd (Option.some.inj h) (by omega)
      · exact absurd (Option.some.inj h) (by omega)
    · rw [procWaitpidStatus_none hcs hfuel hnone hopt] at hrun
      obtain ⟨hret, -⟩ := Prod.mk.inj (Prod.mk.inj (Option.some.inj hrun)).1
      rw [← hret]
      by_cases hfits : ∃ c ∈ cs, σ.Fits pid c
      · rw [if_pos hfits]
        exact ⟨iff_of_false (by decide) fun h => hfits.elim fun c hc => h c hc.1 hc.2, iff_of_true rfl ⟨hfits, hnone⟩⟩
      · rw [if_neg hfits]
        exact ⟨iff_of_true rfl fun c hc h => hfits ⟨c, hc, h⟩, iff_of_false (by decide) fun h => hfits h.1⟩

end Look

/-- Process `1` with the children `2`, `3` and `4`, of which the last two are zombies. -/
def family : Registry where
  kernel := { Kernel.forkHost fun _ => true with
    process := fun i => { Kernel.newProcess 0 with
      threads := none
      pid := i
      parent := if i = 1 then none else some 1
      children := if i = 1 then some 2 else none
      siblings := if i = 2 then some 3 else if i = 3 then some 4 else none
      state := if i < 3 then .running else .zombie } }
  processes := none
  initProcess := none
  initName := 0x2000
  staticFrees := 0

/-- The first zombie is reaped, the second stays. -/
theorem family_reaped : ∃ σ', family.procWaitpidStatus 3 (fun i => 10 * i) true (some 1) (-1) wnohang =
    some ((some 3, some 30), σ') ∧ Reaped family 1 3 [2, 3, 4] σ' := by
  have hcs : Chain family.siblings (family.kernel.process 1).children [2, 3, 4] := ⟨rfl, rfl, rfl, rfl⟩
  have hfirst : family.FirstReapable (-1) [2, 3, 4] 3 := by
    refine ⟨[2], [4], rfl, fun c hc h => ?_, .inl rfl, rfl⟩
    obtain rfl := List.mem_singleton.1 hc
    exact ProcessState.noConfusion h.2
  have hopt : wnohang &&& wnohang ≠ 0 := by decide
  obtain ⟨τ, hremove, hrun, hreaped⟩ := (procWaitpid_reaps hcs (le_refl 3) hopt).2.2.1 3 hfirst
  have hclean : ((family.procFamilyRemoveChild 3 1 3).bind (procClean 3)).isSome := rfl
  rw [hremove] at hclean
  obtain ⟨σ', hσ'⟩ := Option.isSome_iff_exists.1 hclean
  refine ⟨σ', hrun.trans ?_, hreaped σ' hσ'⟩
  rw [show τ.procClean 3 = some σ' from hσ']
  rfl

end Registry

end Flopperating
