/-
# Numbers of descriptors

A number is open from the `sys_open` or `sys_pipe` that gives it to the `sys_close` that
succeeds on it.  Both take the lowest descriptors without a node, and the ends of a pipe have
none: what `sys_open` and `sys_pipe` give is new exactly when enough lower numbers are closed
below every open end of a pipe (`descriptor_numbers`).

The process that makes a second pipe gets the numbers of the first one, which is gone.
-/

import Flopperating.Data.Transition
import Flopperating.Task.ForkCounts

namespace Flopperating
namespace Kernel

open Transition

/-- What a number is open as. -/
inductive Handle
  | file (node : ℕ)
  | pipe (pipe : ℕ)

/-- The descriptor has it. -/
def Handle.In (desc : VfsFileDescriptor) : Handle → Prop
  | file n => desc.node = some n
  | pipe q => desc.pipe = some q

/-- The kernel, and what the numbers are open as. -/
structure FdState where
  kernel : Kernel
  opened : ℕ → Option Handle

inductive FdCall
  | sysOpen (args : SyscallArgs)
  | sysPipe (args : SyscallArgs)
  | sysClose (args : SyscallArgs)

/-- How a call ends. -/
inductive FdEvent
  | opened (fd : ℕ)
  | piped (readFd writeFd : ℕ)
  | closed (fd : ℕ)
  | failed

/-- The numbers that a call gives. -/
def FdEvent.given : FdEvent → List ℕ
  | opened fd => [fd]
  | piped readFd writeFd => [readFd, writeFd]
  | closed _ => []
  | failed => []

/-- The process makes a call. -/
inductive FdStep (process : ℕ) : FdState → FdCall × FdEvent → FdState → Prop
  | opened {σ σ' : Kernel} {o : ℕ → Option Handle} {args : SyscallArgs} {fd n : ℕ} :
      σ.sysOpen process args = some ((fd : ℤ), σ') → ((σ'.process process).fds fd).node = some n →
      FdStep process ⟨σ, o⟩ (.sysOpen args, .opened fd) ⟨σ', Function.update o fd (some (.file n))⟩
  | openFailed {σ σ' : Kernel} {o : ℕ → Option Handle} {args : SyscallArgs} :
      σ.sysOpen process args = some (-1, σ') → FdStep process ⟨σ, o⟩ (.sysOpen args, .failed) ⟨σ', o⟩
  | piped {σ σ' : Kernel} {o : ℕ → Option Handle} {args : SyscallArgs} {r w q : ℕ} :
      σ.sysPipe process args = some (some (r, w), σ') → ((σ'.process process).fds r).pipe = some q →
      ((σ'.process process).fds w).pipe = some q →
      FdStep process ⟨σ, o⟩ (.sysPipe args, .piped r w)
        ⟨σ', Function.update (Function.update o r (some (.pipe q))) w (some (.pipe q))⟩
  | pipeFailed {σ σ' : Kernel} {o : ℕ → Option Handle} {args : SyscallArgs} :
      σ.sysPipe process args = some (none, σ') → FdStep process ⟨σ, o⟩ (.sysPipe args, .failed) ⟨σ', o⟩
  | closed {σ σ' : Kernel} {o : ℕ → Option Handle} {args : SyscallArgs} :
      σ.sysClose process args = some (0, σ') →
      FdStep process ⟨σ, o⟩ (.sysClose args, .closed args.a1) ⟨σ', Function.update o args.a1 none⟩
  | closeFailed {σ σ' : Kernel} {o : ℕ → Option Handle} {args : SyscallArgs} :
      σ.sysClose process args = some (-1, σ') → FdStep process ⟨σ, o⟩ (.sysClose args, .failed) ⟨σ', o⟩

/-- The numbers that are given are new and differ, and what is open and not closed by the call
is in the table. -/
structure UniqueWhileOpen (process : ℕ) (s : FdState) (e : FdEvent) (s' : FdState) : Prop where
  fresh : ∀ fd ∈ e.given, s.opened fd = none
  distinct : e.given.Nodup
  kept : ∀ fd h, s.opened fd = some h → e ≠ .closed fd → h.In ((s'.kernel.process process).fds fd)

/-- There are files, and no pipes. -/
def OnlyFiles (process : ℕ) (s : FdState) : Prop :=
  ∀ fd, s.opened fd = if fd < maxProcFds then ((s.kernel.process process).fds fd).node.map .file else none

/-- The call gets as far as to look for descriptors, and has something to put into them. -/
def Asks (process : ℕ) (σ : Kernel) : FdCall → Prop
  | .sysOpen args => ¬ (args.a1 = 0 ∨ args.a2 = 0) ∧ ¬ (args.a3 ≠ 0 ∨ args.a4 ≠ 0 ∨ args.a5 ≠ 0) ∧
      ∃ n vfs, σ.vfs.vfsOpen (σ.text args.a1) args.a2 = some (some n, vfs)
  | .sysPipe args => args.a1 ≠ 0 ∧ ¬ (args.a2 ≠ 0 ∨ args.a3 ≠ 0 ∨ args.a4 ≠ 0 ∨ args.a5 ≠ 0) ∧
      σ.vfs.grant σ.vfs.fresh = true ∧ 2 ≤ (freeFds (σ.process process)).length
  | .sysClose _ => False

/-- There are as many closed numbers below as the call needs. -/
def HasRoom (opened : ℕ → Option Handle) (fd : ℕ) : FdCall → Prop
  | .sysOpen _ => ∃ k, k < fd ∧ opened k = none
  | .sysPipe _ => ∃ j k, j < k ∧ k < fd ∧ opened j = none ∧ opened k = none
  | .sysClose _ => True

/-- The call finds closed numbers below every open end of a pipe. -/
def Fits (process : ℕ) (s : FdState) (call : FdCall) : Prop :=
  Asks process s.kernel call → ∀ fd q, s.opened fd = some (.pipe q) → HasRoom s.opened fd call

/-- The table has what is open. -/
structure Table (process : ℕ) (s : FdState) : Prop where
  file : ∀ fd n, s.opened fd = some (.file n) →
    fd < maxProcFds ∧ ((s.kernel.process process).fds fd).node = some n
  pipe : ∀ fd q, s.opened fd = some (.pipe q) → fd < maxProcFds ∧
    ((s.kernel.process process).fds fd).node = none ∧ ((s.kernel.process process).fds fd).pipe = some q
  closed : ∀ fd, s.opened fd = none → fd < maxProcFds → ((s.kernel.process process).fds fd).node = none

variable {σ σ' : Kernel} {s s' : FdState} {call : FdCall} {e : FdEvent} {args : SyscallArgs} {fd k n process q : ℕ}
  {r w : ℕ} {l : List ℕ} {p : Process}

/-! ### Descriptors without a node -/

theorem mem_freeFds_iff : k ∈ freeFds p ↔ k < maxProcFds ∧ (p.fds k).node = none := by
  rw [freeFds, List.mem_filter, List.mem_range, decide_eq_true_eq]

theorem freeFds_pairwise (p : Process) : (freeFds p).Pairwise (· < ·) := List.pairwise_lt_range.filter _

/-- Nothing without a node is below the first. -/
theorem freeFds_head_le (hfree : freeFds p = fd :: l) (hk : k ∈ freeFds p) : fd ≤ k := by
  have hsorted := freeFds_pairwise p
  rw [hfree] at hk hsorted
  rcases List.mem_cons.1 hk with rfl | hin
  · exact le_rfl
  · exact ((List.pairwise_cons.1 hsorted).1 k hin).le

/-- Only the first is below the second. -/
theorem freeFds_second_le (hfree : freeFds p = r :: w :: l) (hk : k ∈ freeFds p) (hne : k ≠ r) : w ≤ k := by
  have hsorted := freeFds_pairwise p
  rw [hfree] at hk hsorted
  rcases List.mem_cons.1 ((List.mem_cons.1 hk).resolve_left hne) with rfl | hin
  · exact le_rfl
  · exact ((List.pairwise_cons.1 (List.pairwise_cons.1 hsorted).2).1 k hin).le

theorem freeFds_lt (hfree : freeFds p = r :: w :: l) : r < w := by
  have hsorted := freeFds_pairwise p
  rw [hfree] at hsorted
  exact (List.pairwise_cons.1 hsorted).1 w List.mem_cons_self

theorem Table.mem_of_closed (h : Table process s) (hk : s.opened k = none) (hlt : k < maxProcFds) :
    k ∈ freeFds (s.kernel.process process) := mem_freeFds_iff.2 ⟨hlt, h.closed k hk hlt⟩

theorem Table.mem_of_pipe (h : Table process s) (hk : s.opened k = some (.pipe q)) :
    k ∈ freeFds (s.kernel.process process) := mem_freeFds_iff.2 ⟨(h.pipe k q hk).1, (h.pipe k q hk).2.1⟩

/-- A descriptor without a node is closed or the end of a pipe. -/
theorem Table.of_mem (h : Table process s) (hk : k ∈ freeFds (s.kernel.process process)) :
    s.opened k = none ∨ ∃ q, s.opened k = some (.pipe q) := by
  rcases hopen : s.opened k with - | handle
  · exact .inl rfl
  · cases handle with
    | file n => exact absurd ((h.file k n hopen).2.symm.trans (mem_freeFds_iff.1 hk).2) (by simp)
    | pipe q => exact .inr ⟨q, rfl⟩

/-- **One number.** -/
theorem Table.head_fresh (h : Table process s) (hfree : freeFds (s.kernel.process process) = fd :: l) :
    s.opened fd = none ↔ ∀ k q, s.opened k = some (.pipe q) → ∃ j, j < k ∧ s.opened j = none := by
  have hmem : fd ∈ freeFds (s.kernel.process process) := by
    rw [hfree]
    exact List.mem_cons_self
  constructor
  · intro hnone k q hk
    refine ⟨fd, lt_of_le_of_ne (freeFds_head_le hfree (h.mem_of_pipe hk)) fun he => ?_, hnone⟩
    rw [← he, hnone] at hk
    exact absurd hk (by simp)
  · intro hroom
    rcases h.of_mem hmem with hnone | ⟨q, hq⟩
    · exact hnone
    · obtain ⟨j, hlt, hj⟩ := hroom fd q hq
      have := freeFds_head_le hfree (h.mem_of_closed hj (hlt.trans (mem_freeFds_iff.1 hmem).1))
      omega

/-- **Two numbers.** -/
theorem Table.pair_fresh (h : Table process s) (hfree : freeFds (s.kernel.process process) = r :: w :: l) :
    s.opened r = none ∧ s.opened w = none ↔ ∀ fd q, s.opened fd = some (.pipe q) →
      ∃ j k, j < k ∧ k < fd ∧ s.opened j = none ∧ s.opened k = none := by
  have hmem : r ∈ freeFds (s.kernel.process process) ∧ w ∈ freeFds (s.kernel.process process) := by
    rw [hfree]
    exact ⟨List.mem_cons_self, List.mem_cons_of_mem _ List.mem_cons_self⟩
  have hclosed : ∀ {j fd : ℕ}, fd < maxProcFds → j < fd → s.opened j = none → j ∈ freeFds (s.kernel.process process) :=
    fun hfd hlt hj => h.mem_of_closed hj (hlt.trans hfd)
  constructor
  · rintro ⟨hr, hw⟩ fd q hfd
    have hne : ∀ {k}, s.opened k = none → fd ≠ k := fun hk he => by
      rw [he, hk] at hfd
      exact absurd hfd (by simp)
    exact ⟨r, w, freeFds_lt hfree, lt_of_le_of_ne (freeFds_second_le hfree (h.mem_of_pipe hfd) (hne hr)) (hne hw).symm,
      hr, hw⟩
  · intro hroom
    constructor
    · rcases h.of_mem hmem.1 with hnone | ⟨q, hq⟩
      · exact hnone
      · obtain ⟨j, k, hjk, hk, hj, -⟩ := hroom r q hq
        have := freeFds_head_le hfree (hclosed (mem_freeFds_iff.1 hmem.1).1 (hjk.trans hk) hj)
        omega
    · rcases h.of_mem hmem.2 with hnone | ⟨q, hq⟩
      · exact hnone
      · obtain ⟨j, k, hjk, hk, hj, hk'⟩ := hroom w q hq
        have hlt := (mem_freeFds_iff.1 hmem.2).1
        have hkr := freeFds_head_le hfree (hclosed hlt hk hk')
        have hjr := freeFds_head_le hfree (hclosed hlt (hjk.trans hk) hj)
        have := freeFds_second_le hfree (hclosed hlt hk hk') (by omega)
        omega

/-! ### What the calls do to the table -/

theorem sysOpen_table {i : ℤ} (h : σ.sysOpen process args = some (i, σ')) :
    (i = -1 ∧ σ'.process = σ.process ∧ (Asks process σ (.sysOpen args) → freeFds (σ.process process) = [])) ∨
      ∃ fd l n, freeFds (σ.process process) = fd :: l ∧ i = fd ∧ Asks process σ (.sysOpen args) ∧
        (σ'.process process).fds =
          Function.update (σ.process process).fds fd { (σ.process process).fds fd with node := some n } := by
  unfold sysOpen at h
  by_cases hargs : args.a1 = 0 ∨ args.a2 = 0
  · rw [if_pos hargs] at h
    obtain ⟨rfl, rfl⟩ := Prod.mk.inj (Option.some.inj h)
    exact .inl ⟨rfl, rfl, fun hasks => absurd hargs hasks.1⟩
  rw [if_neg hargs] at h
  by_cases hrest : args.a3 ≠ 0 ∨ args.a4 ≠ 0 ∨ args.a5 ≠ 0
  · rw [if_pos hrest] at h
    obtain ⟨rfl, rfl⟩ := Prod.mk.inj (Option.some.inj h)
    exact .inl ⟨rfl, rfl, fun hasks => absurd hrest hasks.2.1⟩
  rw [if_neg hrest] at h
  rcases hfree : freeFds (σ.process process) with - | ⟨fd, l⟩
  · rw [hfree] at h
    obtain ⟨rfl, rfl⟩ := Prod.mk.inj (Option.some.inj h)
    exact .inl ⟨rfl, rfl, fun _ => rfl⟩
  rw [hfree] at h
  obtain ⟨⟨o, vfs⟩, hopen, h⟩ := Option.bind_eq_some_iff.1 h
  rcases o with - | n
  · obtain ⟨rfl, rfl⟩ := Prod.mk.inj (Option.some.inj h)
    refine .inl ⟨rfl, rfl, fun ⟨_, _, n, vfs', hopened⟩ => ?_⟩
    exact absurd (hopened.symm.trans hopen) (by simp)
  · obtain ⟨rfl, rfl⟩ := Prod.mk.inj (Option.some.inj h)
    refine .inr ⟨fd, l, n, rfl, rfl, ⟨hargs, hrest, n, vfs, hopen⟩, ?_⟩
    unfold setFd
    rw [process_setProcess]

theorem sysPipe_table {o : Option (ℕ × ℕ)} (h : σ.sysPipe process args = some (o, σ')) :
    (o = none ∧ σ'.process = σ.process ∧ ¬ Asks process σ (.sysPipe args)) ∨
      ∃ r w l q, freeFds (σ.process process) = r :: w :: l ∧ o = some (r, w) ∧ Asks process σ (.sysPipe args) ∧
        ((σ'.process process).fds r).pipe = some q ∧ ((σ'.process process).fds w).pipe = some q ∧
          (∀ k, ((σ'.process process).fds k).node = ((σ.process process).fds k).node) ∧
            ∀ k, k ≠ r → k ≠ w → (σ'.process process).fds k = (σ.process process).fds k := by
  unfold sysPipe at h
  by_cases hzero : args.a1 = 0
  · rw [if_pos hzero] at h
    obtain ⟨rfl, rfl⟩ := Prod.mk.inj (Option.some.inj h)
    exact .inl ⟨rfl, rfl, fun hasks => absurd hzero hasks.1⟩
  rw [if_neg hzero] at h
  by_cases hargs : args.a2 ≠ 0 ∨ args.a3 ≠ 0 ∨ args.a4 ≠ 0 ∨ args.a5 ≠ 0
  · rw [if_pos hargs] at h
    obtain ⟨rfl, rfl⟩ := Prod.mk.inj (Option.some.inj h)
    exact .inl ⟨rfl, rfl, fun hasks => absurd hargs hasks.2.1⟩
  rw [if_neg hargs, kmalloc_eq] at h
  rcases hgrant : σ.vfs.grant σ.vfs.fresh with - | -
  · rw [hgrant] at h
    obtain ⟨rfl, rfl⟩ := Prod.mk.inj (Option.some.inj h)
    exact .inl ⟨rfl, rfl, fun hasks => absurd (hgrant.symm.trans hasks.2.2.1) (by decide)⟩
  rw [hgrant, if_pos rfl] at h
  dsimp only at h
  have hprocess : σ.granted.process = σ.process := rfl
  have hfail : ∀ {τ : Kernel},
      (τ.kfree (some σ.vfs.fresh)).map (fun σ => ((none : Option (ℕ × ℕ)), σ)) = some (o, σ') →
        τ.process = σ.process → (freeFds (σ.process process)).length < 2 →
          o = none ∧ σ'.process = σ.process ∧ ¬ Asks process σ (.sysPipe args) := fun {τ} hrun hτ hfew => by
    obtain ⟨σ₁, hback, he⟩ := Option.map_eq_some_iff.1 hrun
    obtain ⟨rfl, rfl⟩ := Prod.mk.inj he
    refine ⟨rfl, by rw [kfree_some hback]; exact hτ, fun hasks => ?_⟩
    exact absurd hasks.2.2.2 (Nat.not_le.2 hfew)
  rw [hprocess] at h
  rcases hfree : freeFds (σ.process process) with - | ⟨r, - | ⟨w, l⟩⟩
  · rw [hfree] at h
    exact .inl (hfail h rfl (by rw [hfree]; decide))
  · rw [hfree] at h
    exact .inl (hfail h rfl (by rw [hfree]; exact Nat.one_lt_two))
  · rw [hfree] at h
    obtain ⟨rfl, rfl⟩ := Prod.mk.inj (Option.some.inj h)
    have hne : w ≠ r := (freeFds_lt hfree).ne'
    refine .inr ⟨r, w, l, σ.vfs.fresh, rfl, rfl, ⟨hzero, hargs, hgrant, by rw [hfree]; simp⟩, ?_, ?_, fun k => ?_,
      fun k hr hw => ?_⟩
    all_goals
      unfold setFd
      rw [process_setProcess, process_setProcess]
      dsimp only
    · rw [Function.update_of_ne hne.symm, Function.update_self]
    · rw [Function.update_self]
    · rcases eq_or_ne k w with rfl | hw
      · rw [Function.update_self]
        dsimp only
        rw [Function.update_of_ne hne]
      · rw [Function.update_of_ne hw]
        rcases eq_or_ne k r with rfl | hr
        · rw [Function.update_self]
        · rw [Function.update_of_ne hr]
    · rw [Function.update_of_ne hw, Function.update_of_ne hr]

theorem sysClose_table (h : σ.sysClose process args = some (0, σ')) :
    Accepted args ∧ ((σ'.process process).fds args.a1).node = none ∧
      ∀ k, k ≠ args.a1 → (σ'.process process).fds k = (σ.process process).fds k := by
  by_cases hargs : Accepted args
  · rw [sysClose_eq hargs] at h
    obtain ⟨⟨e, σ₁⟩, hclose, he⟩ := Option.map_eq_some_iff.1 h
    obtain ⟨-, rfl⟩ := Prod.mk.inj he
    refine ⟨hargs, closedFd_node, fun k hk => ?_⟩
    rw [closedFd_fds hk, process_vfsClose hclose]
  · rw [sysClose_refused hargs] at h
    exact absurd (Prod.mk.inj (Option.some.inj h)).1 (by decide)

theorem sysClose_failed (h : σ.sysClose process args = some (-1, σ')) : σ' = σ := by
  by_cases hargs : Accepted args
  · rw [sysClose_eq hargs] at h
    obtain ⟨o, -, he⟩ := Option.map_eq_some_iff.1 h
    exact absurd (Prod.mk.inj he).1 (by decide)
  · rw [sysClose_refused hargs] at h
    exact (Prod.mk.inj (Option.some.inj h)).2.symm

/-! ### Steps -/

/-- What is open is in the table when the descriptors are the same. -/
theorem Table.holds {h : Handle} (ht : Table process s) (hopen : s.opened fd = some h) :
    h.In ((s.kernel.process process).fds fd) := by
  cases h with
  | file n => exact (ht.file fd n hopen).2
  | pipe q => exact (ht.pipe fd q hopen).2.2

/-- A call that gives and takes no number. -/
theorem Table.failed {o : ℕ → Option Handle} (h : Table process ⟨σ, o⟩) (hprocess : σ'.process = σ.process) :
    Table process ⟨σ', o⟩ ∧ UniqueWhileOpen process ⟨σ, o⟩ .failed ⟨σ', o⟩ := by
  refine ⟨⟨?_, ?_, ?_⟩, fun fd hfd => absurd hfd List.not_mem_nil, List.nodup_nil, fun fd handle hopen _ => ?_⟩
  all_goals
    dsimp only
    rw [hprocess]
  · exact h.file
  · exact h.pipe
  · exact h.closed
  · exact h.holds hopen

theorem Table.closeStep {o : ℕ → Option Handle} (h : Table process ⟨σ, o⟩)
    (hrun : σ.sysClose process args = some (0, σ')) :
    UniqueWhileOpen process ⟨σ, o⟩ (.closed args.a1) ⟨σ', Function.update o args.a1 none⟩ ∧
      Table process ⟨σ', Function.update o args.a1 none⟩ := by
  obtain ⟨hargs, hnode, hother⟩ := sysClose_table hrun
  have hopened : ∀ fd handle, Function.update o args.a1 none fd = some handle → fd ≠ args.a1 ∧ o fd = some handle :=
    fun fd handle hopen => by
      rcases eq_or_ne fd args.a1 with rfl | hne
      · rw [Function.update_self] at hopen
        exact absurd hopen (by simp)
      · rw [Function.update_of_ne hne] at hopen
        exact ⟨hne, hopen⟩
  constructor
  · refine ⟨fun fd hfd => absurd hfd List.not_mem_nil, List.nodup_nil, fun fd handle hopen hne => ?_⟩
    dsimp only
    rw [hother fd fun he => hne (by rw [he])]
    exact h.holds hopen
  · refine ⟨fun fd n hopen => ?_, fun fd q hopen => ?_, fun fd hopen hfd => ?_⟩
    · obtain ⟨hne, hopen⟩ := hopened fd _ hopen
      dsimp only
      rw [hother fd hne]
      exact h.file fd n hopen
    · obtain ⟨hne, hopen⟩ := hopened fd _ hopen
      dsimp only
      rw [hother fd hne]
      exact h.pipe fd q hopen
    · dsimp only at hopen ⊢
      rcases eq_or_ne fd args.a1 with rfl | hne
      · exact hnode
      · rw [Function.update_of_ne hne] at hopen
        rw [hother fd hne]
        exact h.closed fd hopen hfd

theorem Table.openStep {o : ℕ → Option Handle} (h : Table process ⟨σ, o⟩)
    (hrun : σ.sysOpen process args = some ((fd : ℤ), σ')) (hn : ((σ'.process process).fds fd).node = some n) :
    (UniqueWhileOpen process ⟨σ, o⟩ (.opened fd) ⟨σ', Function.update o fd (some (.file n))⟩ ↔
      Fits process ⟨σ, o⟩ (.sysOpen args)) ∧
        (Fits process ⟨σ, o⟩ (.sysOpen args) → Table process ⟨σ', Function.update o fd (some (.file n))⟩) := by
  rcases sysOpen_table hrun with ⟨hfd, -, -⟩ | ⟨fd', l, n', hfree, hfd, hasks, hfds⟩
  · omega
  obtain rfl := Int.ofNat.inj hfd
  have hfresh := h.head_fresh hfree
  have hmem : fd ∈ freeFds (σ.process process) := by
    rw [hfree]
    exact List.mem_cons_self
  have hother : ∀ k, k ≠ fd → (σ'.process process).fds k = (σ.process process).fds k := fun k hk => by
    rw [hfds, Function.update_of_ne hk]
  have hfits : Fits process ⟨σ, o⟩ (.sysOpen args) ↔ o fd = none := ⟨fun hf => hfresh.2 (hf hasks), fun hf _ => hfresh.1 hf⟩
  constructor
  · rw [hfits]
    refine ⟨fun hunique => hunique.fresh fd List.mem_cons_self, fun hnone => ⟨fun k hk => ?_, List.nodup_singleton fd,
      fun k handle hopen _ => ?_⟩⟩
    · rw [List.mem_singleton.1 hk]
      exact hnone
    · have hk : k ≠ fd := by
        rintro rfl
        exact absurd (hnone.symm.trans hopen) (by simp)
      dsimp only
      rw [hother k hk]
      exact h.holds hopen
  · intro hroom
    have hnone := hfits.1 hroom
    refine ⟨fun k m hopen => ?_, fun k q hopen => ?_, fun k hopen hlt => ?_⟩
    all_goals
      dsimp only at hopen ⊢
      by_cases hk : k = fd
    · rw [hk, Function.update_self] at hopen
      rw [hk]
      exact ⟨(mem_freeFds_iff.1 hmem).1, by rw [hn, Handle.file.inj (Option.some.inj hopen)]⟩
    · rw [Function.update_of_ne hk] at hopen
      rw [hother k hk]
      exact h.file k m hopen
    · rw [hk, Function.update_self] at hopen
      exact absurd hopen (by simp)
    · rw [Function.update_of_ne hk] at hopen
      rw [hother k hk]
      exact h.pipe k q hopen
    · rw [hk, Function.update_self] at hopen
      exact absurd hopen (by simp)
    · rw [Function.update_of_ne hk] at hopen
      rw [hother k hk]
      exact h.closed k hopen hlt

theorem Table.pipeStep {o : ℕ → Option Handle} (h : Table process ⟨σ, o⟩)
    (hrun : σ.sysPipe process args = some (some (r, w), σ')) (hr : ((σ'.process process).fds r).pipe = some q)
    (hw : ((σ'.process process).fds w).pipe = some q) :
    (UniqueWhileOpen process ⟨σ, o⟩ (.piped r w)
        ⟨σ', Function.update (Function.update o r (some (.pipe q))) w (some (.pipe q))⟩ ↔
      Fits process ⟨σ, o⟩ (.sysPipe args)) ∧ (Fits process ⟨σ, o⟩ (.sysPipe args) →
        Table process ⟨σ', Function.update (Function.update o r (some (.pipe q))) w (some (.pipe q))⟩) := by
  rcases sysPipe_table hrun with ⟨ho, -, -⟩ | ⟨r', w', l, q', hfree, ho, hasks, -, -, hnode, hother⟩
  · exact absurd ho (by simp)
  obtain ⟨rfl, rfl⟩ := Prod.mk.inj (Option.some.inj ho)
  have hfresh := h.pair_fresh hfree
  have hmem : ∀ k, k = r ∨ k = w → k ∈ freeFds (σ.process process) := fun k hk => by
    rw [hfree]
    rcases hk with rfl | rfl
    · exact List.mem_cons_self
    · exact List.mem_cons_of_mem _ List.mem_cons_self
  have hends : ∀ k, k = r ∨ k = w → k < maxProcFds ∧ ((σ'.process process).fds k).node = none ∧
      ((σ'.process process).fds k).pipe = some q := fun k hk => by
    obtain ⟨hlt, hnone⟩ := mem_freeFds_iff.1 (hmem k hk)
    refine ⟨hlt, (hnode k).trans hnone, ?_⟩
    rcases hk with rfl | rfl
    · exact hr
    · exact hw
  have hfits : Fits process ⟨σ, o⟩ (.sysPipe args) ↔ o r = none ∧ o w = none :=
    ⟨fun hf => hfresh.2 (hf hasks), fun hf _ => hfresh.1 hf⟩
  have hopened : ∀ k, Function.update (Function.update o r (some (.pipe q))) w (some (.pipe q)) k =
      if k = r ∨ k = w then some (.pipe q) else o k := fun k => by
    by_cases hkw : k = w
    · rw [hkw, Function.update_self, if_pos (.inr rfl)]
    · rw [Function.update_of_ne hkw]
      by_cases hkr : k = r
      · rw [hkr, Function.update_self, if_pos (.inl rfl)]
      · rw [Function.update_of_ne hkr, if_neg (not_or.2 ⟨hkr, hkw⟩)]
  constructor
  · rw [hfits]
    refine ⟨fun hunique => ⟨hunique.fresh r List.mem_cons_self,
      hunique.fresh w (List.mem_cons_of_mem _ List.mem_cons_self)⟩, fun hnone => ⟨fun k hk => ?_, ?_, fun k handle hopen _ => ?_⟩⟩
    · rcases List.mem_pair.1 hk with rfl | rfl
      · exact hnone.1
      · exact hnone.2
    · exact List.nodup_cons.2 ⟨fun hin => absurd (List.mem_singleton.1 hin) (freeFds_lt hfree).ne, List.nodup_singleton w⟩
    · have hk : k ≠ r ∧ k ≠ w := by
        constructor
        · rintro rfl
          exact absurd (hnone.1.symm.trans hopen) (by simp)
        · rintro rfl
          exact absurd (hnone.2.symm.trans hopen) (by simp)
      dsimp only
      rw [hother k hk.1 hk.2]
      exact h.holds hopen
  · intro hroom
    refine ⟨fun k m hopen => ?_, fun k q' hopen => ?_, fun k hopen hlt => ?_⟩
    all_goals
      dsimp only at hopen ⊢
      rw [hopened] at hopen
      by_cases hk : k = r ∨ k = w
    · rw [if_pos hk] at hopen
      exact absurd hopen (by simp)
    · rw [if_neg hk] at hopen
      rw [hother k (not_or.1 hk).1 (not_or.1 hk).2]
      exact h.file k m hopen
    · rw [if_pos hk] at hopen
      obtain rfl := Handle.pipe.inj (Option.some.inj hopen)
      exact hends k hk
    · rw [if_neg hk] at hopen
      rw [hother k (not_or.1 hk).1 (not_or.1 hk).2]
      exact h.pipe k q' hopen
    · rw [if_pos hk] at hopen
      exact absurd hopen (by simp)
    · rw [if_neg hk] at hopen
      rw [hother k (not_or.1 hk).1 (not_or.1 hk).2]
      exact h.closed k hopen hlt

/-- **One call** gives new numbers and drops nothing exactly when it finds room, and then the
table has what is open. -/
theorem Table.step (h : Table process s) (hstep : FdStep process s (call, e) s') :
    (UniqueWhileOpen process s e s' ↔ Fits process s call) ∧ (Fits process s call → Table process s') := by
  cases hstep with
  | openFailed hrun =>
    rcases sysOpen_table hrun with ⟨-, hprocess, hnone⟩ | ⟨fd, _, _, -, hfd, -⟩
    · obtain ⟨htable, hunique⟩ := h.failed hprocess
      refine ⟨iff_of_true hunique fun hasks k q hk => ?_, fun _ => htable⟩
      have hmem := h.mem_of_pipe hk
      rw [hnone hasks] at hmem
      exact absurd hmem List.not_mem_nil
    · omega
  | pipeFailed hrun =>
    rcases sysPipe_table hrun with ⟨-, hprocess, hnot⟩ | ⟨_, _, _, _, -, ho, -⟩
    · obtain ⟨htable, hunique⟩ := h.failed hprocess
      exact ⟨iff_of_true hunique fun hasks => absurd hasks hnot, fun _ => htable⟩
    · exact absurd ho (by simp)
  | closeFailed hrun =>
    obtain rfl := sysClose_failed hrun
    obtain ⟨htable, hunique⟩ := h.failed rfl
    exact ⟨iff_of_true hunique fun hasks => hasks.elim, fun _ => htable⟩
  | closed hrun =>
    obtain ⟨hunique, htable⟩ := h.closeStep hrun
    exact ⟨iff_of_true hunique fun hasks => hasks.elim, fun _ => htable⟩
  | opened hrun hn => exact h.openStep hrun hn
  | piped hrun hr hw => exact h.pipeStep hrun hr hw

theorem OnlyFiles.table (h : OnlyFiles process s) : Table process s := by
  refine ⟨fun fd n hopen => ?_, fun fd q hopen => ?_, fun fd hopen hlt => ?_⟩
  all_goals rw [h] at hopen
  · split at hopen
    · next hlt =>
      obtain ⟨n', hn, he⟩ := Option.map_eq_some_iff.1 hopen
      exact ⟨hlt, hn.trans (congrArg some (Handle.file.inj he))⟩
    · exact absurd hopen (by simp)
  · split at hopen
    · obtain ⟨n', -, he⟩ := Option.map_eq_some_iff.1 hopen
      exact absurd he (by simp)
    · exact absurd hopen (by simp)
  · rw [if_pos hlt] at hopen
    exact Option.map_eq_none_iff.1 hopen

/-- **Numbers of descriptors.**  In every state that a process with files and no pipes reaches
while its calls find closed numbers below every open end of a pipe, the table has what is open,
and the next call gives numbers that are not open, two different ones for a pipe, and drops
nothing that is open, exactly when it finds them as well. -/
theorem descriptor_numbers (h : Reach (OnlyFiles process)
      (fun s a s' => Fits process s a.1 ∧ FdStep process s a s') s) :
    Table process s ∧ ∀ call e s', FdStep process s (call, e) s' →
      (UniqueWhileOpen process s e s' ↔ Fits process s call) := by
  have htable : Table process s := h.invariant (fun _ hs => hs.table) fun _ ⟨_, _⟩ _ _ hs hstep =>
    (hs.step hstep.2).2 hstep.1
  exact ⟨htable, fun call e s' hstep => (htable.step hstep).1⟩

/-! ### Two pipes -/

/-- The process that has made a pipe. -/
def pipedState : FdState :=
  ⟨pipedHost, Function.update (Function.update (fun _ => none) 0 (some (.pipe 6))) 1 (some (.pipe 6))⟩

theorem onlyFiles_forkHost : OnlyFiles 0 ⟨forkHost fun _ => true, fun _ => none⟩ := by
  intro fd
  split
  · rfl
  · rfl

theorem pipeStep_forkHost : FdStep 0 ⟨forkHost fun _ => true, fun _ => none⟩
    (.sysPipe ⟨4096, 0, 0, 0, 0, by decide⟩, .piped 0 1) pipedState := .piped rfl rfl rfl

theorem descriptor_numbers_pipedHost : Table 0 pipedState ∧ ∀ call e s', FdStep 0 pipedState (call, e) s' →
    (UniqueWhileOpen 0 pipedState e s' ↔ Fits 0 pipedState call) :=
  descriptor_numbers ((Reach.init onlyFiles_forkHost).step _ ⟨fun _ _ _ hq => absurd hq nofun, pipeStep_forkHost⟩)

/-- The second pipe has the numbers of the first one. -/
theorem not_descriptor_numbers : ¬ ∀ (process : ℕ) (s : FdState), Reach (OnlyFiles process) (FdStep process) s →
    ∀ call e s', FdStep process s (call, e) s' → UniqueWhileOpen process s e s' := by
  intro hall
  have hreach : Reach (OnlyFiles 0) (FdStep 0) pipedState := (Reach.init onlyFiles_forkHost).step _ pipeStep_forkHost
  have hagain : FdStep 0 pipedState (.sysPipe ⟨4096, 0, 0, 0, 0, by decide⟩, .piped 0 1) _ := .piped rfl rfl rfl
  have hfresh := (hall 0 pipedState hreach _ _ _ hagain).fresh 0 List.mem_cons_self
  exact absurd hfresh nofun

end Kernel

end Flopperating
