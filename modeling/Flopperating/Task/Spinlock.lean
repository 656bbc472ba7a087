/-
# Spinlocks and the interrupt flag

`spinlock` and `spinlock_unlock` of `src/task/sync/spinlock.h`, on one processor.  `spinlock` masks
interrupts and returns whether they were enabled before.  `spinlock_unlock` is passed a flag, and
unmasks them where it is set; most callers drop what `spinlock` returned and pass `true`.

So a critical section that ends with `true` leaves interrupts enabled, whether they were before or
not: inside of another section, where the outer lock is still held, and in an interrupt handler.
The flag is as it should be just where each such section is entered with interrupts enabled
(`Entered`).
-/

import Flopperating.Data.Transition

namespace Flopperating

open Transition

/-- What `spinlock_unlock` is passed at the end of a critical section. -/
inductive Restore
  /-- `true`. -/
  | always
  /-- `false`. -/
  | never
  /-- What `spinlock` returned. -/
  | saved
  deriving DecidableEq

/-- The flag. -/
def Restore.flag (enabled : Bool) : Restore → Bool
  | .always => true
  | .never => false
  | .saved => enabled

/-- A lock that is held: what `spinlock` returned, and what the section ends with. -/
structure Held where
  lock : ℕ
  enabled : Bool
  restore : Restore
  deriving DecidableEq

/-- The processor. -/
structure Cpu where
  /-- `IF`. -/
  intEnabled : Bool
  /-- The locks that `spinlock` has taken, last first. -/
  held : List Held
  /-- The locks held by what was interrupted, last first. -/
  frames : List (List Held)
  deriving DecidableEq

inductive Action
  /-- An instruction that has nothing to do with interrupts. -/
  | work
  /-- `spinlock(lock)`, at the start of a section that ends with `restore`. -/
  | spinlock (lock : ℕ) (restore : Restore)
  /-- The `spinlock_unlock` of the section. -/
  | unlock
  /-- An interrupt is taken. -/
  | interrupt
  /-- `iret`. -/
  | iret

namespace Cpu

/-- `IA32_INT_MASK`. -/
def ia32IntMask (σ : Cpu) : Cpu := { σ with intEnabled := false }

/-- `IA32_INT_UNMASK`. -/
def ia32IntUnmask (σ : Cpu) : Cpu := { σ with intEnabled := true }

/-- `spinlock`; it never returns when the lock is held. -/
def spinlock (lock : ℕ) (restore : Restore) (σ : Cpu) : Option Cpu :=
  if lock ∈ σ.held.map Held.lock then none
  else some { σ.ia32IntMask with held := ⟨lock, σ.intEnabled, restore⟩ :: σ.held }

/-- `spinlock_unlock`. -/
def spinlockUnlock (restoreInterrupts : Bool) (σ : Cpu) : Cpu :=
  let σ := { σ with held := σ.held.tail }
  if restoreInterrupts then σ.ia32IntUnmask else σ

/-- One step. -/
def step (a : Action) (σ : Cpu) : Option Cpu :=
  match a with
  | .work => some σ
  | .spinlock lock restore => σ.spinlock lock restore
  | .unlock => σ.held.head?.map fun h => σ.spinlockUnlock (h.restore.flag h.enabled)
  | .interrupt =>
    if σ.intEnabled then some { σ.ia32IntMask with frames := σ.held :: σ.frames } else none
  | .iret => if σ.frames.head? = some σ.held then some { σ.ia32IntUnmask with frames := σ.frames.tail }
    else none

end Cpu

/-- Code, as far as critical sections and interrupts are nested in it. -/
inductive Code
  | skip
  | work
  | seq (first second : Code)
  | critical (lock : ℕ) (restore : Restore) (body : Code)
  /-- An interrupt, and its handler. -/
  | interrupt (handler : Code)

namespace Code

def actions : Code → List Action
  | skip => []
  | work => [.work]
  | seq first second => first.actions ++ second.actions
  | critical lock restore body => .spinlock lock restore :: (body.actions ++ [.unlock])
  | interrupt handler => .interrupt :: (handler.actions ++ [.iret])

/-- One after the other. -/
def all : List Code → Code
  | [] => skip
  | code :: rest => seq code (all rest)

/-! ### The critical sections of the source -/

/-- `sched_enqueue`. -/
def schedEnqueue (listLock : ℕ) : Code := critical listLock .always work

/-- `sched_dequeue`. -/
def schedDequeue (listLock : ℕ) : Code := critical listLock .always work

/-- `sched_remove`. -/
def schedRemove (listLock : ℕ) : Code := critical listLock .always work

/-- `sched_unblock`, and `sched_wake_thread`. -/
def schedUnblock (readyLock : ℕ) : Code := seq work (schedEnqueue readyLock)

/-- `sched_process_sleep_thread`, of a thread that is woken or not. -/
def schedProcessSleepThread (readyLock : ℕ) (wakes : Bool) : Code :=
  if wakes then seq work (schedUnblock readyLock) else work

/-- `sched_tick`. -/
def schedTick (sleepLock readyLock : ℕ) (wakes : List Bool) : Code :=
  seq work (critical sleepLock .always (all (wakes.map (schedProcessSleepThread readyLock))))

/-- `mutex_unlock` of the owner, with a thread in the wait queue or not. -/
def mutexUnlock (waitLock queueLock readyLock : ℕ) (waiter : Bool) : Code :=
  seq work (critical waitLock .always (seq (schedDequeue queueLock)
    (if waiter then seq work (schedUnblock readyLock) else work)))

/-- `heap_box_alloc`. -/
def heapBoxAlloc (boxLock : ℕ) : Code := critical boxLock .always work

/-- `heap_box_iterate`, which tries some boxes. -/
def heapBoxIterate (heapLock : ℕ) (boxLocks : List ℕ) : Code :=
  critical heapLock .always (all (boxLocks.map heapBoxAlloc))

/-- `signal_init_process`, `signal_set_handler` and `signal_send`. -/
def signalSection (sigLock : ℕ) : Code := critical sigLock .always work

/-- `signal_dispatch`, which calls handlers and default actions with the lock released. -/
def signalDispatch (sigLock : ℕ) (handlers : List Code) : Code :=
  seq (signalSection sigLock) (all (handlers.map fun handler => seq handler (signalSection sigLock)))

/-- `proc_copy_signal_state`. -/
def procCopySignalState (parentLock childLock : ℕ) : Code :=
  critical parentLock .always (critical childLock .always work)

/-- A section under `proc_table_lock`, in `src/task/process.c`. -/
def procTableSection (procTableLock : ℕ) (body : Code) : Code := critical procTableLock .always body

end Code

/-! ### The discipline -/

namespace Cpu

variable {σ σ' : Cpu} {a : Action}

/-- After the step interrupts are masked as long as a lock is held, and where it released the last
one they are as they were before that was taken. -/
def Disciplined (σ : Cpu) (a : Action) : Prop :=
  ∀ σ', step a σ = some σ' → (σ'.held ≠ [] → σ'.intEnabled = false) ∧
    ∀ h, a = .unlock → σ.held = [h] → σ'.intEnabled = h.enabled

/-- A section that ends with `true` is entered with interrupts enabled, and one that ends with
`false` with interrupts masked. -/
def Entered (σ : Cpu) (a : Action) : Prop :=
  ∀ lock restore, a = .spinlock lock restore → restore.flag σ.intEnabled = σ.intEnabled

instance : Decidable (σ.Entered a) :=
  match a with
  | .spinlock _ restore => decidable_of_iff (restore.flag σ.intEnabled = σ.intEnabled)
      ⟨fun h _ _ heq => by cases heq; exact h, fun h => h _ _ rfl⟩
  | .work | .unlock | .interrupt | .iret => isTrue nofun

/-- Interrupts are masked while a lock is held, and were when an inner one was taken. -/
structure Tidy (σ : Cpu) : Prop where
  masked : σ.held ≠ [] → σ.intEnabled = false
  inner : ∀ h ∈ σ.held.dropLast, h.enabled = false
  /-- Nothing is interrupted with a lock. -/
  frames : ∀ f ∈ σ.frames, f = []

/-- The sections that are open end with interrupts as they were. -/
def Restores (σ : Cpu) : Prop :=
  ∀ h ∈ σ.held, h.restore.flag h.enabled = h.enabled

theorem step_unlock (h : step .unlock σ = some σ') : ∃ held rest, σ.held = held :: rest ∧
    σ'.held = rest ∧ σ'.frames = σ.frames ∧
      σ'.intEnabled = (held.restore.flag held.enabled || σ.intEnabled) := by
  obtain ⟨held, hhead, rfl⟩ := Option.map_eq_some_iff.1 h
  obtain ⟨rest, hrest⟩ : ∃ rest, σ.held = held :: rest := by
    cases hσ : σ.held with
    | nil => simp [hσ] at hhead
    | cons first rest =>
      rw [hσ] at hhead
      exact ⟨rest, by rw [Option.some.inj hhead]⟩
  refine ⟨held, rest, hrest, ?_⟩
  unfold spinlockUnlock
  cases held.restore.flag held.enabled <;> simp [hrest, ia32IntUnmask]

theorem step_iret (h : step .iret σ = some σ') : σ.frames.head? = some σ.held ∧ σ'.held = σ.held ∧
    σ'.frames = σ.frames.tail := by
  rw [step] at h
  split at h
  · next hframe =>
    obtain rfl := Option.some.inj h
    exact ⟨hframe, rfl, rfl⟩
  · exact absurd h (by simp)

theorem step_interrupt (h : step .interrupt σ = some σ') : σ.intEnabled = true ∧
    σ'.held = σ.held ∧ σ'.frames = σ.held :: σ.frames ∧ σ'.intEnabled = false := by
  rw [step] at h
  split at h
  · next henabled =>
    obtain rfl := Option.some.inj h
    exact ⟨henabled, rfl, rfl, rfl⟩
  · exact absurd h (by simp)

theorem step_spinlock {lock : ℕ} {restore : Restore} (h : step (.spinlock lock restore) σ = some σ') :
    σ'.held = ⟨lock, σ.intEnabled, restore⟩ :: σ.held ∧ σ'.frames = σ.frames ∧
      σ'.intEnabled = false := by
  rw [step, spinlock] at h
  split at h
  · exact absurd h (by simp)
  · obtain rfl := Option.some.inj h
    exact ⟨rfl, rfl, rfl⟩

theorem Tidy.held_eq_nil (h : σ.Tidy) (henabled : σ.intEnabled = true) : σ.held = [] := by
  by_contra hne
  exact absurd (henabled.symm.trans (h.masked hne)) (by simp)

/-- A disciplined step leaves things tidy. -/
theorem Tidy.step (h : σ.Tidy) (hdisciplined : σ.Disciplined a) (hstep : Cpu.step a σ = some σ') :
    σ'.Tidy := by
  have hmasked := (hdisciplined σ' hstep).1
  cases a with
  | work =>
    obtain rfl := Option.some.inj hstep
    exact h
  | spinlock lock restore =>
    obtain ⟨hheld, hframes, -⟩ := step_spinlock hstep
    refine ⟨hmasked, fun v hv => ?_, hframes ▸ h.frames⟩
    rw [hheld] at hv
    cases hσ : σ.held with
    | nil => simp [hσ] at hv
    | cons first rest =>
      rw [hσ, List.dropLast_cons_of_ne_nil (List.cons_ne_nil _ _), List.mem_cons] at hv
      rcases hv with rfl | hv
      · exact h.masked (by rw [hσ]; exact List.cons_ne_nil _ _)
      · exact h.inner v (hσ ▸ hv)
  | unlock =>
    obtain ⟨held, rest, hσ, hheld, hframes, -⟩ := step_unlock hstep
    refine ⟨hmasked, fun v hv => h.inner v ?_, hframes ▸ h.frames⟩
    rw [hheld] at hv
    have hne : rest ≠ [] := by
      rintro rfl
      simp at hv
    rw [hσ, List.dropLast_cons_of_ne_nil hne]
    exact List.mem_cons_of_mem _ hv
  | interrupt =>
    obtain ⟨henabled, hheld, hframes, -⟩ := step_interrupt hstep
    have hnil := h.held_eq_nil henabled
    refine ⟨hmasked, fun v hv => ?_, fun f hf => ?_⟩
    · rw [hheld, hnil] at hv
      simp at hv
    · rw [hframes] at hf
      rcases List.mem_cons.1 hf with rfl | hf
      · exact hnil
      · exact h.frames f hf
  | iret =>
    obtain ⟨-, hheld, hframes⟩ := step_iret hstep
    refine ⟨hmasked, fun v hv => h.inner v (hheld ▸ hv), fun f hf => h.frames f ?_⟩
    rw [hframes] at hf
    exact List.mem_of_mem_tail hf

/-- A step is disciplined where what is open ends with interrupts as they were. -/
theorem Tidy.disciplined (h : σ.Tidy) (hrestores : σ.Restores) : σ.Disciplined a := by
  intro σ' hstep
  cases a with
  | work =>
    obtain rfl := Option.some.inj hstep
    exact ⟨h.masked, nofun⟩
  | spinlock lock restore =>
    obtain ⟨-, -, hmasked⟩ := step_spinlock hstep
    exact ⟨fun _ => hmasked, nofun⟩
  | unlock =>
    obtain ⟨held, rest, hσ, hheld, -, henabled⟩ := step_unlock hstep
    have hsame := hrestores held (hσ ▸ List.mem_cons_self)
    rw [hsame, h.masked (by rw [hσ]; exact List.cons_ne_nil _ _), Bool.or_false] at henabled
    refine ⟨fun hne => ?_, fun v _ hv => ?_⟩
    · rw [henabled]
      refine h.inner held ?_
      rw [hσ, List.dropLast_cons_of_ne_nil (hheld ▸ hne)]
      exact List.mem_cons_self
    · rw [henabled]
      rw [hσ] at hv
      rw [(List.cons.inj hv).1]
  | interrupt =>
    obtain ⟨-, -, -, hmasked⟩ := step_interrupt hstep
    exact ⟨fun _ => hmasked, nofun⟩
  | iret =>
    obtain ⟨hframe, hheld, -⟩ := step_iret hstep
    have hnil : σ.held = [] := h.frames _ (List.mem_of_mem_head? hframe)
    exact ⟨fun hne => absurd (hheld.trans hnil) hne, nofun⟩

theorem Restores.step (h : σ.Restores) (hentered : σ.Entered a) (hstep : Cpu.step a σ = some σ') :
    σ'.Restores := by
  cases a with
  | work =>
    obtain rfl := Option.some.inj hstep
    exact h
  | spinlock lock restore =>
    obtain ⟨hheld, -, -⟩ := step_spinlock hstep
    intro v hv
    rw [hheld] at hv
    rcases List.mem_cons.1 hv with rfl | hv
    · exact hentered lock restore rfl
    · exact h v hv
  | unlock =>
    obtain ⟨held, rest, hσ, hheld, -, -⟩ := step_unlock hstep
    intro v hv
    rw [hheld] at hv
    exact h v (hσ ▸ List.mem_cons_of_mem _ hv)
  | interrupt =>
    obtain ⟨-, hheld, -, -⟩ := step_interrupt hstep
    exact fun v hv => h v (hheld ▸ hv)
  | iret =>
    obtain ⟨-, hheld, -⟩ := step_iret hstep
    exact fun v hv => h v (hheld ▸ hv)

theorem disciplined_of_entered {ops : List Action} (h : σ.Tidy) (hrestores : σ.Restores)
    (hall : EveryStep step Entered σ ops) : EveryStep step Disciplined σ ops := by
  induction ops generalizing σ with
  | nil => trivial
  | cons a ops ih =>
    have hone : σ.Disciplined a := h.disciplined hrestores
    exact ⟨hone, fun τ hτ => ih (h.step hone hτ) (hrestores.step hall.1 hτ) (hall.2 τ hτ)⟩

end Cpu

namespace Code

variable {σ σ' : Cpu}

/-- The actions of code, one after the other. -/
def run (code : Code) (σ : Cpu) : Option Cpu := code.actions.foldlM (fun s a => Cpu.step a s) σ

/-- Code leaves the locks and the interrupted code as they were. -/
theorem balanced (code : Code) (hrun : code.run σ = some σ') :
    σ'.held = σ.held ∧ σ'.frames = σ.frames := by
  induction code generalizing σ σ' with
  | skip =>
    obtain rfl := Option.some.inj hrun
    exact ⟨rfl, rfl⟩
  | work =>
    obtain ⟨τ, hτ, hrun⟩ := foldlM_cons_eq_some.1 hrun
    obtain rfl := Option.some.inj hτ
    obtain rfl := Option.some.inj hrun
    exact ⟨rfl, rfl⟩
  | seq first second ih ih' =>
    obtain ⟨τ, hfirst, hsecond⟩ := foldlM_append_eq_some.1 hrun
    obtain ⟨hheld, hframes⟩ := ih hfirst
    obtain ⟨hheld', hframes'⟩ := ih' hsecond
    exact ⟨hheld'.trans hheld, hframes'.trans hframes⟩
  | critical lock restore body ih =>
    obtain ⟨τ, hτ, hrun⟩ := foldlM_cons_eq_some.1 hrun
    obtain ⟨ρ, hbody, hrun⟩ := foldlM_append_eq_some.1 hrun
    obtain ⟨υ, hυ, hrun⟩ := foldlM_cons_eq_some.1 hrun
    obtain rfl := Option.some.inj hrun
    obtain ⟨hheld, hframes⟩ := ih hbody
    obtain ⟨htaken, hframesτ, -⟩ := Cpu.step_spinlock hτ
    obtain ⟨last, rest, hlast, hrest, hframesυ, -⟩ := Cpu.step_unlock hυ
    rw [hheld, htaken] at hlast
    rw [hrest, hframesυ, hframes, hframesτ, (List.cons.inj hlast).2]
    exact ⟨rfl, rfl⟩
  | interrupt handler ih =>
    obtain ⟨τ, hτ, hrun⟩ := foldlM_cons_eq_some.1 hrun
    obtain ⟨ρ, hhandler, hrun⟩ := foldlM_append_eq_some.1 hrun
    obtain ⟨υ, hυ, hrun⟩ := foldlM_cons_eq_some.1 hrun
    obtain rfl := Option.some.inj hrun
    obtain ⟨hheld, hframes⟩ := ih hhandler
    obtain ⟨-, hheldτ, hframesτ, -⟩ := Cpu.step_interrupt hτ
    obtain ⟨-, hheldυ, hframesυ⟩ := Cpu.step_iret hυ
    rw [hheldυ, hheld, hheldτ, hframesυ, hframes, hframesτ]
    exact ⟨rfl, rfl⟩

/-- The last step of a section tells how it was entered. -/
theorem restores_of_disciplined {lock : ℕ} {restore : Restore} {τ ρ : Cpu} {body : Code}
    (h : σ.Tidy) (hτ : Cpu.step (.spinlock lock restore) σ = some τ) (hρ : ρ.Tidy)
    (hbody : body.run τ = some ρ) (hunlock : Cpu.step .unlock ρ = some σ')
    (hlast : ρ.Disciplined .unlock) : restore.flag σ.intEnabled = σ.intEnabled := by
  obtain ⟨htaken, -, -⟩ := Cpu.step_spinlock hτ
  obtain ⟨hheld, -⟩ := balanced body hbody
  obtain ⟨last, rest, hopen, hrest, -, henabled⟩ := Cpu.step_unlock hunlock
  rw [hheld, htaken] at hopen
  obtain ⟨rfl, rfl⟩ := List.cons.inj hopen
  have hmasked : ρ.intEnabled = false := hρ.masked (by rw [hheld, htaken]; exact List.cons_ne_nil _ _)
  rw [hmasked, Bool.or_false] at henabled
  obtain ⟨hnested, houtermost⟩ := hlast σ' hunlock
  by_cases hnil : σ.held = []
  · rw [← henabled]
    exact houtermost ⟨lock, σ.intEnabled, restore⟩ rfl (by rw [hheld, htaken, hnil])
  · rw [← henabled, hnested (by rw [hrest]; exact hnil), h.masked hnil]

theorem tidy_of_disciplined {ops : List Action} (h : σ.Tidy)
    (hall : EveryStep Cpu.step Cpu.Disciplined σ ops)
    (hrun : ops.foldlM (fun s a => Cpu.step a s) σ = some σ') : σ'.Tidy :=
  hall.keeps hrun (P := Cpu.Tidy) h fun _ _ _ hdisciplined hs hstep => hs.step hdisciplined hstep

/-- **Discipline tells how sections are entered**, by recursion on how the code is nested. -/
theorem entered_of_disciplined (code : Code) (h : σ.Tidy) (hrun : code.run σ = some σ')
    (hall : EveryStep Cpu.step Cpu.Disciplined σ code.actions) :
    EveryStep Cpu.step Cpu.Entered σ code.actions := by
  induction code generalizing σ σ' with
  | skip => trivial
  | work => exact ⟨nofun, fun _ _ => trivial⟩
  | seq first second ih ih' =>
    obtain ⟨τ, hfirst, hsecond⟩ := foldlM_append_eq_some.1 hrun
    obtain ⟨hall₁, hall₂⟩ := hall.append hfirst
    refine everyStep_append (ih h hfirst hall₁) fun υ hυ => ?_
    obtain rfl : τ = υ := Option.some.inj (hfirst.symm.trans hυ)
    exact ih' (tidy_of_disciplined h hall₁ hfirst) hsecond hall₂
  | critical lock restore body ih =>
    obtain ⟨τ, hτ, hrun⟩ := foldlM_cons_eq_some.1 hrun
    obtain ⟨ρ, hbody, hrun⟩ := foldlM_append_eq_some.1 hrun
    obtain ⟨υ, hυ, -⟩ := foldlM_cons_eq_some.1 hrun
    obtain ⟨hall₁, hall₂⟩ := (hall.2 τ hτ).append hbody
    have htidy : τ.Tidy := h.step hall.1 hτ
    have hrestores := restores_of_disciplined h hτ (tidy_of_disciplined htidy hall₁ hbody) hbody hυ
      hall₂.1
    refine ⟨?_, fun τ' hτ' => ?_⟩
    · rintro lock' restore' heq
      cases heq
      exact hrestores
    · obtain rfl : τ = τ' := Option.some.inj (hτ.symm.trans hτ')
      exact everyStep_append (ih htidy hbody hall₁) fun _ _ => ⟨nofun, fun _ _ => trivial⟩
  | interrupt handler ih =>
    obtain ⟨τ, hτ, hrun⟩ := foldlM_cons_eq_some.1 hrun
    obtain ⟨ρ, hhandler, -⟩ := foldlM_append_eq_some.1 hrun
    obtain ⟨hall₁, -⟩ := (hall.2 τ hτ).append hhandler
    refine ⟨nofun, fun τ' hτ' => ?_⟩
    obtain rfl : τ = τ' := Option.some.inj (hτ.symm.trans hτ')
    exact everyStep_append (ih (h.step hall.1 hτ) hhandler hall₁) fun _ _ => ⟨nofun, fun _ _ => trivial⟩

/-- **The interrupt flag is kept** along code if and only if each section that ends with `true` is
entered with interrupts enabled, and each that ends with `false` with interrupts masked. -/
theorem disciplined_iff (code : Code) (hheld : σ.held = []) (hframes : σ.frames = [])
    (hrun : code.run σ = some σ') :
    EveryStep Cpu.step Cpu.Disciplined σ code.actions ↔
      EveryStep Cpu.step Cpu.Entered σ code.actions := by
  have htidy : σ.Tidy := by
    refine ⟨fun hne => absurd hheld hne, fun v hv => ?_, fun f hf => ?_⟩
    · simp [hheld] at hv
    · simp [hframes] at hf
  have hrestores : σ.Restores := by
    intro v hv
    simp [hheld] at hv
  exact ⟨entered_of_disciplined code htidy hrun, Cpu.disciplined_of_entered htidy hrestores⟩

/-- Sections one after the other, a handler between them. -/
def quietCode : Code :=
  all [schedEnqueue 1, schedRemove 1, signalDispatch 2 [work], interrupt work, procTableSection 3 work]

theorem disciplined_quietCode :
    EveryStep Cpu.step Cpu.Disciplined ⟨true, [], []⟩ quietCode.actions := by
  have hrun : quietCode.run ⟨true, [], []⟩ = some ⟨true, [], []⟩ := by decide
  exact (disciplined_iff quietCode rfl rfl hrun).2 (by decide)

/-- A tick that wakes a thread gives interrupts back with the lock of the sleep queue held. -/
theorem not_disciplined_tick : ∃ σ σ' : Cpu, σ.held = [] ∧ σ.frames = [] ∧
    (schedTick 1 2 [true]).run σ = some σ' ∧
      ¬ EveryStep Cpu.step Cpu.Disciplined σ (schedTick 1 2 [true]).actions := by
  have htidy : Cpu.Tidy ⟨true, [], []⟩ := ⟨fun hne => absurd rfl hne, nofun, nofun⟩
  have hrun : (schedTick 1 2 [true]).run ⟨true, [], []⟩ = some ⟨true, [], []⟩ := by decide
  refine ⟨⟨true, [], []⟩, ⟨true, [], []⟩, rfl, rfl, hrun, fun hall => ?_⟩
  exact absurd (entered_of_disciplined _ htidy hrun hall) (by decide)

/-- A section whose body starts with one that ends with `true` does not keep the flag. -/
theorem not_disciplined_nested {lock inner : ℕ} {restore : Restore} {body : Code} {rest : List Action}
    (h : σ.Tidy) (hbody : body.actions = .spinlock inner .always :: rest)
    (hrun : (critical lock restore body).run σ = some σ') :
    ¬ EveryStep Cpu.step Cpu.Disciplined σ (critical lock restore body).actions := by
  intro hall
  have hentered := entered_of_disciplined _ h hrun hall
  obtain ⟨τ, hτ, -⟩ := foldlM_cons_eq_some.1 hrun
  have hinner := hentered.2 τ hτ
  rw [hbody] at hinner
  have hflag : true = τ.intEnabled := hinner.1 inner .always rfl
  exact absurd (hflag.trans (Cpu.step_spinlock hτ).2.2) (by simp)

/-- **The owner's `mutex_unlock` never keeps the flag**: it calls `sched_dequeue` with `wait_lock`. -/
theorem not_disciplined_mutexUnlock {waitLock queueLock readyLock : ℕ} {waiter : Bool} (h : σ.Tidy)
    (hrun : (mutexUnlock waitLock queueLock readyLock waiter).run σ = some σ') :
    ¬ EveryStep Cpu.step Cpu.Disciplined σ (mutexUnlock waitLock queueLock readyLock waiter).actions := by
  rintro ⟨-, hall⟩
  obtain ⟨τ, hτ, hrun⟩ := foldlM_cons_eq_some.1 hrun
  obtain rfl := Option.some.inj hτ
  exact not_disciplined_nested h rfl hrun (hall _ rfl)

/-- Nor does `heap_box_iterate`, once there is a box: it calls `heap_box_alloc` with `heap_lock`. -/
theorem not_disciplined_heapBoxIterate {heapLock boxLock : ℕ} {boxLocks : List ℕ} (h : σ.Tidy)
    (hrun : (heapBoxIterate heapLock (boxLock :: boxLocks)).run σ = some σ') :
    ¬ EveryStep Cpu.step Cpu.Disciplined σ (heapBoxIterate heapLock (boxLock :: boxLocks)).actions :=
  not_disciplined_nested h rfl hrun

/-- Nor `proc_copy_signal_state`, with its two locks. -/
theorem not_disciplined_procCopySignalState {parentLock childLock : ℕ} (h : σ.Tidy)
    (hrun : (procCopySignalState parentLock childLock).run σ = some σ') :
    ¬ EveryStep Cpu.step Cpu.Disciplined σ (procCopySignalState parentLock childLock).actions :=
  not_disciplined_nested h rfl hrun

end Code

end Flopperating
