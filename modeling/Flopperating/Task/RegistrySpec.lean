/-
# Is every process in the table?

No function puts a process in `proc_tbl->processes`, so the table stays empty
(`step_processes`): `proc_get_process_by_pid` finds nobody, and `proc_dup` has nobody to duplicate.
The registry is consistent in just those states in which there is no process and none is counted
(`consistent_iff`), and in every state of a run just when no process is ever made
(`registry_consistent`).
-/

import Flopperating.Data.Transition
import Flopperating.Task.ForkFails
import Flopperating.Task.Registry

namespace Flopperating

open LinkedList Transition

namespace Registry

/-- The calls that make, find or end a process; a process is named by a pointer. -/
inductive RegistryCall
  | createInitProcess (thread : Bool)
  | fork (parent : Option ℕ)
  | dup (pid : ℤ)
  | waitpid (current : Option ℕ) (pid : ℤ) (nohang : Bool)
  | terminate (process : Option ℕ)

variable {σ σ' τ : Registry} {fuel p : ℕ} {e : RegistryCall} {alive alive' : List ℕ}

/-- The process that a call names. -/
def named : RegistryCall → Option ℕ
  | .fork process | .waitpid process _ _ | .terminate process => process
  | .createInitProcess _ | .dup _ => none

/-- The child that is first in the list of a parent. -/
def firstChild (parent : Option ℕ) (σ : Registry) : List ℕ :=
  (parent.bind fun p => (σ.kernel.process p).children).toList

/-- The child that a look of `proc_waitpid` reaps. -/
def reaped (fuel : ℕ) (current : Option ℕ) (pid : ℤ) (σ : Registry) : List ℕ :=
  ((current.bind fun me => findZombie σ.kernel.process pid fuel (σ.kernel.process me).children false).bind
    Prod.snd).toList

/-- One call, and the processes that exist after it: those that were made and neither reaped nor
terminated. -/
def step (fuel : ℕ) (e : RegistryCall) (s : Registry × List ℕ) : Option (Registry × List ℕ) :=
  let (σ, alive) := s
  if ∀ p ∈ named e, p ∈ alive then
    match e with
    | .createInitProcess thread => (σ.procCreateInitProcess thread).map fun o =>
        (o.2, if o.1 < 0 then alive else o.2.initProcess.toList ++ alive)
    | .fork parent => (σ.procFork parent).map fun o =>
        (o.2, if o.1 < 0 then alive else o.2.firstChild parent ++ alive)
    | .dup pid => (σ.procDup fuel pid).map fun o =>
        (o.2, if o.1 < 0 then alive else o.2.firstChild (σ.procGetProcessByPid fuel pid).join ++ alive)
    | .waitpid current pid nohang => (σ.procWaitpid fuel current pid nohang).map fun o =>
        (o.2, alive.diff (σ.reaped fuel current pid))
    | .terminate process => (σ.procTerminateProcess fuel process).map fun o =>
        (o.2, alive.diff process.toList)
  else none

/-- The registry agrees with the processes that exist. -/
structure Consistent (alive : List ℕ) (σ : Registry) : Prop where
  found : ∀ p, p ∈ alive ↔ ∃ n, σ.procGetProcessByPid n (σ.kernel.process p).pid = some (some p)
  count : σ.kernel.processCount = alive.length
  /-- Everybody but the initial process is once among the children of its parent, and nobody
  else's child. -/
  family : ∀ p ∈ alive, σ.initProcess ≠ some p → ∃ q ∈ alive, (σ.kernel.process p).parent = some q ∧
    ∀ r ∈ alive, ∀ l, Chain σ.siblings (σ.kernel.process r).children l →
      l.count p = if r = q then 1 else 0
  table : ∃ l, Chain σ.siblings σ.processes l
  children : ∀ r ∈ alive, ∃ l, Chain σ.siblings (σ.kernel.process r).children l

/-- **An empty table** is right when there is no process, and none is counted. -/
theorem consistent_iff (h : σ.processes = none) :
    Consistent alive σ ↔ alive = [] ∧ σ.kernel.processCount = 0 := by
  have hnobody : ∀ n pid, σ.procGetProcessByPid n pid = some none := by
    intro n pid
    rw [procGetProcessByPid, h]
    cases n <;> rfl
  constructor
  · intro hc
    have hnil : alive = [] := by
      refine List.eq_nil_iff_forall_not_mem.2 fun p hp => ?_
      obtain ⟨n, hn⟩ := (hc.found p).1 hp
      exact absurd ((hnobody n _).symm.trans hn) (by simp)
    exact ⟨hnil, by rw [hc.count, hnil]; rfl⟩
  · rintro ⟨rfl, hcount⟩
    refine ⟨fun p => ⟨fun hp => absurd hp List.not_mem_nil, fun ⟨n, hn⟩ => ?_⟩, hcount, by simp,
      ⟨[], h⟩, by simp⟩
    exact absurd ((hnobody n _).symm.trans hn) (by simp)

/-! ### The table -/

theorem processes_freeStaticName (p : ℕ) (σ : Registry) : (σ.freeStaticName p).processes = σ.processes := by
  unfold freeStaticName
  split <;> rfl

theorem processes_procClean (h : σ.procClean p = some σ') : σ'.processes = σ.processes := by
  obtain ⟨kernel, -, rfl⟩ := Option.map_eq_some_iff.1 h
  exact processes_freeStaticName p σ

theorem procRemoveProcessFromTable_none (h : σ.processes = none) :
    σ.procRemoveProcessFromTable fuel p = some (-1, σ) := if_pos h

theorem processes_procFamilyRemoveChild {child : ℕ} (h : σ.procFamilyRemoveChild fuel p child = some σ') :
    σ'.processes = σ.processes := by
  obtain ⟨found, -, rfl⟩ := Option.map_eq_some_iff.1 h
  cases found with
  | none => rfl
  | some prev => cases prev <;> rfl

theorem processes_procInitProcessBegin {o : Option ℕ} (h : σ.procInitProcessBegin = some (o, σ')) :
    σ'.processes = σ.processes := by
  obtain ⟨⟨process, kernel⟩, -, h⟩ := Option.bind_eq_some_iff.1 h
  cases process with
  | none =>
    obtain ⟨-, rfl⟩ := Prod.mk.inj (Option.some.inj h)
    rfl
  | some p =>
    obtain ⟨⟨⟨region, va⟩, vmm⟩, -, h⟩ := Option.bind_eq_some_iff.1 h
    cases region with
    | none =>
      obtain ⟨kernel', -, h⟩ := Option.bind_eq_some_iff.1 h
      obtain ⟨-, rfl⟩ := Prod.mk.inj (Option.some.inj h)
      exact processes_freeStaticName ..
    | some r =>
      obtain ⟨-, rfl⟩ := Prod.mk.inj (Option.some.inj h)
      rfl

theorem processes_procCreateInitProcess {thread : Bool} {r : ℤ}
    (h : σ.procCreateInitProcess thread = some (r, σ')) : σ'.processes = σ.processes := by
  obtain ⟨⟨o, τ⟩, hbegin, h⟩ := Option.bind_eq_some_iff.1 h
  have hτ := processes_procInitProcessBegin hbegin
  cases o with
  | none =>
    obtain ⟨-, rfl⟩ := Prod.mk.inj (Option.some.inj h)
    exact hτ
  | some p =>
    cases thread with
    | true =>
      obtain ⟨-, rfl⟩ := Prod.mk.inj (Option.some.inj h)
      exact hτ
    | false =>
      obtain ⟨kernel, -, h⟩ := Option.bind_eq_some_iff.1 h
      obtain ⟨-, rfl⟩ := Prod.mk.inj (Option.some.inj h)
      exact (processes_freeStaticName ..).trans hτ

theorem procDup_none {pid : ℤ} (h : σ.processes = none) : σ.procDup fuel pid = some (-1, σ) := by
  unfold procDup
  rw [h]
  cases fuel <;> rfl

/-- **Nobody is ever put in the table.** -/
theorem step_processes {s s' : Registry × List ℕ} (h : s.1.processes = none)
    (hrun : step fuel e s = some s') : s'.1.processes = none := by
  obtain ⟨σ, alive⟩ := s
  unfold step at hrun
  dsimp only at hrun h
  split at hrun
  · cases e with
    | createInitProcess thread =>
      obtain ⟨⟨r, τ⟩, hcall, rfl⟩ := Option.map_eq_some_iff.1 hrun
      exact (processes_procCreateInitProcess hcall).trans h
    | fork parent =>
      obtain ⟨⟨r, τ⟩, hcall, rfl⟩ := Option.map_eq_some_iff.1 hrun
      cases parent with
      | none =>
        obtain ⟨-, rfl⟩ := Prod.mk.inj (Option.some.inj hcall)
        exact h
      | some p =>
        obtain ⟨o, -, heq⟩ := Option.map_eq_some_iff.1 hcall
        obtain ⟨-, rfl⟩ := Prod.mk.inj heq
        exact h
    | dup pid =>
      obtain ⟨⟨r, τ⟩, hcall, rfl⟩ := Option.map_eq_some_iff.1 hrun
      obtain ⟨-, rfl⟩ := Prod.mk.inj (Option.some.inj ((procDup_none h).symm.trans hcall))
      exact h
    | waitpid current pid nohang =>
      obtain ⟨⟨r, τ⟩, hcall, rfl⟩ := Option.map_eq_some_iff.1 hrun
      cases current with
      | none =>
        obtain ⟨-, rfl⟩ := Prod.mk.inj (Option.some.inj hcall)
        exact h
      | some me =>
        obtain ⟨⟨found, target⟩, -, hcall⟩ := Option.bind_eq_some_iff.1 hcall
        cases target with
        | none =>
          dsimp only at hcall
          split at hcall
          · obtain ⟨-, rfl⟩ := Prod.mk.inj (Option.some.inj hcall)
            exact h
          · obtain ⟨-, rfl⟩ := Prod.mk.inj (Option.some.inj hcall)
            exact h
        | some target =>
          obtain ⟨ρ, hremove, hcall⟩ := Option.bind_eq_some_iff.1 hcall
          obtain ⟨ν, hclean, hcall⟩ := Option.bind_eq_some_iff.1 hcall
          obtain ⟨-, rfl⟩ := Prod.mk.inj (Option.some.inj hcall)
          exact (processes_procClean hclean).trans ((processes_procFamilyRemoveChild hremove).trans h)
    | terminate process =>
      obtain ⟨⟨r, τ⟩, hcall, rfl⟩ := Option.map_eq_some_iff.1 hrun
      cases process with
      | none =>
        obtain ⟨-, rfl⟩ := Prod.mk.inj (Option.some.inj hcall)
        exact h
      | some p =>
        obtain ⟨ρ, hclean, hcall⟩ := Option.bind_eq_some_iff.1 hcall
        have hρ := (processes_procClean hclean).trans h
        obtain ⟨⟨r', ν⟩, htable, hcall⟩ := Option.bind_eq_some_iff.1 hcall
        obtain ⟨kernel, -, hcall⟩ := Option.bind_eq_some_iff.1 hcall
        obtain ⟨-, rfl⟩ := Prod.mk.inj (Option.some.inj hcall)
        obtain ⟨-, rfl⟩ := Prod.mk.inj (Option.some.inj ((procRemoveProcessFromTable_none hρ).symm.trans htable))
        exact hρ
  · exact absurd hrun (by simp)

/-! ### Making the initial process -/

/-- There is memory for the initial process, its list of threads and its region. -/
def InitHasRoom (σ : Registry) : Prop :=
  σ.kernel.GrantsProcess ∧ ∃ r va vmm,
    vmmRegionCreate 4 (pageUser ||| pageRw) true σ.kernel.vmm = some ((some r, va), vmm)

/-- Things are given back, and no process is counted. -/
structure GivesBack (κ κ' : Kernel) : Prop where
  shrinks : Vfs.Shrinks κ.vfs κ'.vfs
  processCount : κ'.processCount = κ.processCount

theorem GivesBack.trans {κ κ₁ κ' : Kernel} (h : GivesBack κ κ₁) (h' : GivesBack κ₁ κ') : GivesBack κ κ' :=
  ⟨h.shrinks.trans h'.shrinks, h'.processCount.trans h.processCount⟩

theorem GivesBack.bounded {κ κ' : Kernel} (h : GivesBack κ κ') (hb : κ.Bounded) : κ'.Bounded :=
  fun i hi => h.shrinks.heap i (hb i (h.shrinks.fresh ▸ hi))

theorem givesBack_kfree {κ κ' : Kernel} {ptr : Option ℕ} (h : κ.kfree ptr = some κ') : GivesBack κ κ' := by
  cases ptr with
  | none =>
    obtain rfl := Option.some.inj h
    exact ⟨.refl _, rfl⟩
  | some i =>
    obtain ⟨vfs, hfree, rfl⟩ := Option.map_eq_some_iff.1 h
    exact ⟨Vfs.kfree_shrinks hfree, rfl⟩

theorem givesBack_vmmRegionDestroy {κ κ' : Kernel} {region : Option ℕ}
    (h : κ.vmmRegionDestroy region = some κ') : GivesBack κ κ' := by
  cases region with
  | none =>
    obtain rfl := Option.some.inj h
    exact ⟨.refl _, rfl⟩
  | some r =>
    obtain ⟨vmm, -, rfl⟩ := Option.map_eq_some_iff.1 h
    exact ⟨.refl _, rfl⟩

theorem givesBack_vfsClose {κ κ' : Kernel} {node : Option ℕ} {r : ℤ}
    (h : κ.vfsClose node = some (r, κ')) : GivesBack κ κ' := by
  refine ⟨Kernel.vfsClose_shrinks h, ?_⟩
  cases node with
  | none =>
    obtain ⟨-, rfl⟩ := Prod.mk.inj (Option.some.inj h)
    rfl
  | some n =>
    obtain ⟨o, -, heq⟩ := Option.map_eq_some_iff.1 h
    obtain ⟨-, rfl⟩ := Prod.mk.inj heq
    rfl

theorem givesBack_procForkFailed {κ κ' : Kernel} (h : κ.procForkFailedChildDataStructures p = some κ') :
    GivesBack κ κ' := by
  obtain ⟨κ₄, hrelease, hlast⟩ := Option.bind_eq_some_iff.1 h
  obtain ⟨⟨r, κ₁⟩, hclose, hrelease⟩ := Option.bind_eq_some_iff.1 hrelease
  obtain ⟨κ₂, hdestroy, hrelease⟩ := Option.bind_eq_some_iff.1 hrelease
  obtain ⟨κ₃, hname, hthreads⟩ := Option.bind_eq_some_iff.1 hrelease
  exact ((((givesBack_vfsClose hclose).trans (givesBack_vmmRegionDestroy hdestroy)).trans
    (givesBack_kfree hname)).trans (givesBack_kfree hthreads)).trans (givesBack_kfree hlast)

theorem givesBack_freeStaticName (p : ℕ) (σ : Registry) : GivesBack σ.kernel (σ.freeStaticName p).kernel := by
  unfold freeStaticName
  split <;> exact ⟨.refl _, rfl⟩

theorem bounded_allocated {κ : Kernel} (hb : κ.Bounded) : κ.allocated.Bounded := by
  intro i hi
  have hi : κ.vfs.fresh + 2 ≤ i := hi
  have hfirst : κ.allocated.vfs.heap i = κ.granted.vfs.heap i :=
    Kernel.heap_granted (show i ≠ κ.vfs.fresh + 1 by omega)
  rw [hfirst, Kernel.heap_granted (show i ≠ κ.vfs.fresh by omega)]
  exact hb i (by omega)

/-- **The first part** stops when there is no room, and counts nobody. -/
theorem procInitProcessBegin_cases {o : Option ℕ} (hb : σ.kernel.Bounded)
    (h : σ.procInitProcessBegin = some (o, σ')) :
    σ'.kernel.processCount = σ.kernel.processCount ∧ (o = none ↔ ¬ σ.InitHasRoom) ∧
      (o = none → σ'.kernel.Bounded) := by
  obtain ⟨⟨process, kernel⟩, halloc, h⟩ := Option.bind_eq_some_iff.1 h
  obtain ⟨hno, rfl, k, rfl⟩ | ⟨hgrants, rfl, rfl⟩ := Kernel.procAlloc_cases hb halloc
  · obtain ⟨rfl, rfl⟩ := Prod.mk.inj (Option.some.inj h)
    exact ⟨rfl, iff_of_true rfl fun hroom => hno hroom.1,
      fun _ i hi => hb i (Nat.le_trans (Nat.le_add_right _ k) hi)⟩
  · obtain ⟨⟨⟨region, va⟩, vmm⟩, hregion, h⟩ := Option.bind_eq_some_iff.1 h
    have hregion : vmmRegionCreate 4 (pageUser ||| pageRw) true σ.kernel.vmm = some ((region, va), vmm) :=
      hregion
    cases region with
    | none =>
      obtain ⟨kernel', hfail, h⟩ := Option.bind_eq_some_iff.1 h
      obtain ⟨rfl, rfl⟩ := Prod.mk.inj (Option.some.inj h)
      have hback := (givesBack_freeStaticName _ _).trans (givesBack_procForkFailed hfail)
      refine ⟨hback.processCount, iff_of_true rfl ?_, fun _ => hback.bounded (bounded_allocated hb)⟩
      rintro ⟨-, r, va', vmm', hroom⟩
      exact absurd (hregion.symm.trans hroom) (by simp)
    | some r =>
      obtain ⟨rfl, rfl⟩ := Prod.mk.inj (Option.some.inj h)
      refine ⟨rfl, iff_of_false (by simp) fun hno => hno ⟨hgrants, r, va, vmm, hregion⟩, by simp⟩

/-- Once there is room, a process is counted, and it stays so when its thread cannot be made. -/
theorem procCreateInitProcess_count {thread : Bool} {r : ℤ} {ρ : Registry}
    (hbegin : σ.procInitProcessBegin = some (some p, ρ))
    (h : σ.procCreateInitProcess thread = some (r, σ')) :
    σ'.kernel.processCount = ρ.kernel.processCount + 1 := by
  obtain ⟨o, ho, h⟩ := Option.bind_eq_some_iff.1 h
  obtain rfl := Option.some.inj (hbegin.symm.trans ho)
  cases thread with
  | true =>
    obtain ⟨-, rfl⟩ := Prod.mk.inj (Option.some.inj h)
    rfl
  | false =>
    obtain ⟨kernel, hfail, h⟩ := Option.bind_eq_some_iff.1 h
    obtain ⟨-, rfl⟩ := Prod.mk.inj (Option.some.inj h)
    exact ((givesBack_freeStaticName _ _).trans (givesBack_procForkFailed hfail)).processCount

/-! ### Runs -/

/-- No process is made: there is no room for the initial one. -/
def MakesNobody (s : Registry × List ℕ) : RegistryCall → Prop
  | .createInitProcess _ => ¬ s.1.InitHasRoom
  | .fork _ | .dup _ | .waitpid .. | .terminate _ => True

/-- There is no process, and none is counted. -/
structure Deserted (s : Registry × List ℕ) : Prop where
  processes : s.1.processes = none
  alive : s.2 = []
  processCount : s.1.kernel.processCount = 0
  bounded : s.1.kernel.Bounded

/-- **Where there is no process**, a call leaves a consistent registry just when it makes none. -/
theorem Deserted.step_iff {s s' : Registry × List ℕ} (h : Deserted s) (hrun : step fuel e s = some s') :
    (Consistent s'.2 s'.1 ↔ MakesNobody s e) ∧ (MakesNobody s e → Deserted s') := by
  have hnone := step_processes h.processes hrun
  obtain ⟨σ, alive⟩ := s
  obtain rfl : alive = [] := h.alive
  have hsame : s' = (σ, []) → (Consistent s'.2 s'.1 ↔ True) ∧ (True → Deserted s') := by
    rintro rfl
    exact ⟨iff_true_intro ((consistent_iff h.processes).2 ⟨rfl, h.processCount⟩), fun _ => h⟩
  unfold step at hrun
  dsimp only at hrun
  split at hrun
  · next hnamed =>
    cases e with
    | createInitProcess thread =>
      obtain ⟨⟨r, τ⟩, hcall, rfl⟩ := Option.map_eq_some_iff.1 hrun
      obtain ⟨⟨o, ρ⟩, hbegin, hrest⟩ := Option.bind_eq_some_iff.1 hcall
      obtain ⟨hcount, hroom, hbounded⟩ := procInitProcessBegin_cases h.bounded hbegin
      cases o with
      | none =>
        obtain ⟨rfl, rfl⟩ := Prod.mk.inj (Option.some.inj hrest)
        have hend : Deserted (ρ, []) := ⟨hnone, rfl, hcount.trans h.processCount, hbounded rfl⟩
        exact ⟨iff_of_true ((consistent_iff hnone).2 ⟨rfl, hend.processCount⟩) (hroom.1 rfl), fun _ => hend⟩
      | some p =>
        have hmakes : ¬ MakesNobody (σ, []) (.createInitProcess thread) := fun hno =>
          absurd (hroom.2 hno) (by simp)
        have hone := (procCreateInitProcess_count hbegin hcall).trans (congrArg (· + 1) (hcount.trans h.processCount))
        refine ⟨iff_of_false (fun hc => ?_) hmakes, fun hno => absurd hno hmakes⟩
        exact absurd (hone.symm.trans ((consistent_iff hnone).1 hc).2) (by simp)
    | fork parent =>
      cases parent with
      | none => exact hsame (Option.some.inj hrun).symm
      | some p => exact absurd (hnamed p rfl) List.not_mem_nil
    | dup pid =>
      obtain ⟨o, hcall, rfl⟩ := Option.map_eq_some_iff.1 hrun
      obtain rfl := Option.some.inj ((procDup_none h.processes).symm.trans hcall)
      exact hsame rfl
    | waitpid current pid nohang =>
      cases current with
      | none => exact hsame (Option.some.inj hrun).symm
      | some p => exact absurd (hnamed p rfl) List.not_mem_nil
    | terminate process =>
      cases process with
      | none => exact hsame (Option.some.inj hrun).symm
      | some p => exact absurd (hnamed p rfl) List.not_mem_nil
  · exact absurd hrun (by simp)

/-- **The registry is consistent** in every state of a run from the start exactly when the run makes
no process. -/
theorem registry_consistent {evs : List RegistryCall} {s' : Registry × List ℕ} (hempty : σ.processes = none)
    (hcount : σ.kernel.processCount = 0) (hb : σ.kernel.Bounded)
    (hrun : evs.foldlM (fun s e => step fuel e s) (σ, []) = some s') :
    EveryStep (step fuel) (fun s e => ∀ t, step fuel e s = some t → Consistent t.2 t.1) (σ, []) evs ↔
      EveryStep (step fuel) MakesNobody (σ, []) evs :=
  have hstart : Deserted (σ, []) := ⟨hempty, rfl, hcount, hb⟩
  everyStep_iff_of (R := fun t => Consistent t.2 t.1) hrun hstart fun _ _ _ hs h => hs.step_iff h

/-- Nothing exists yet; there is memory for objects. -/
def bootRegistry (vmm : Vmm) : Registry where
  kernel := { Kernel.forkHost (fun _ => true) with
    vmm := vmm
    nextPid := 1
    processCount := 0 }
  processes := none
  initProcess := none
  initName := 0x2000
  staticFrees := 0

theorem bounded_bootRegistry (vmm : Vmm) : (bootRegistry vmm).kernel.Bounded :=
  Kernel.bounded_forkHost fun _ => true

/-- Virtual memory without a page or an object. -/
def fullVmm : Vmm := { copiedHost with freePages := [], objects := [] }

/-- Virtual memory where the loaded directory has a table for low addresses. -/
def lowVmm : Vmm :=
  (hostRegion [0x3000, 0x4000, 0x5000, 0x6000, 0x7000, 0x8000, 0x9000]).setWord 0x1000
    (pdIndex userSpaceStart) (0x2000 ||| pageUser ||| pageRw ||| pagePresent)

/-- Without memory for the region the initial process is not made. -/
theorem registry_consistent_full :
    EveryStep (step 2) (fun s e => ∀ t, step 2 e s = some t → Consistent t.2 t.1) (bootRegistry fullVmm, [])
      [.createInitProcess true, .dup 1, .waitpid none 1 true] := by
  have hregion : vmmRegionCreate 4 (pageUser ||| pageRw) true fullVmm = some ((none, none), fullVmm) := rfl
  have hroom : ¬ (bootRegistry fullVmm).InitHasRoom := fun ⟨_, r, va, vmm, h⟩ =>
    absurd (hregion.symm.trans h) (by simp)
  obtain ⟨s', hrun⟩ := Option.isSome_iff_exists.1 (show ([.createInitProcess true, .dup 1, .waitpid none 1 true].foldlM
    (fun s e => step 2 e s) (bootRegistry fullVmm, [])).isSome from rfl)
  have hall : EveryStep (step 2) MakesNobody (bootRegistry fullVmm, [])
      [.createInitProcess true, .dup 1, .waitpid none 1 true] :=
    ⟨hroom, fun _ _ => ⟨trivial, fun _ _ => ⟨trivial, fun _ _ => trivial⟩⟩⟩
  exact (registry_consistent rfl rfl (bounded_bootRegistry _) hrun).2 hall

/-- The initial process is counted, but nobody finds it. -/
theorem not_registry_consistent :
    ¬ ∀ (fuel : ℕ) (σ : Registry) (evs : List RegistryCall) (s' : Registry × List ℕ), σ.processes = none →
      σ.kernel.processCount = 0 → σ.kernel.Bounded → evs.foldlM (fun s e => step fuel e s) (σ, []) = some s' →
      Consistent s'.2 s'.1 := by
  intro hall
  have hval : (step 2 (.createInitProcess true) (bootRegistry lowVmm, [])).map
      (fun t => (t.1.processes, t.1.kernel.processCount)) = some (none, 1) := by decide +kernel
  obtain ⟨t, hrun, heq⟩ := Option.map_eq_some_iff.1 hval
  obtain ⟨hnone, hone⟩ := Prod.mk.inj heq
  have hc := hall 2 (bootRegistry lowVmm) [.createInitProcess true] t rfl rfl (bounded_bootRegistry _)
    (by rw [List.foldlM_cons, hrun]; rfl)
  exact absurd (hone.symm.trans ((consistent_iff hnone).1 hc).2) (by simp)

end Registry

end Flopperating
