/-
# Reference counts of a fork

A fork counts the nodes that the child refers to and leaves the counts of pipes as they are,
so the counts follow the child exactly when it inherits no pipe and the counts have room
(`fork_counts`).  `vfs_close` frees a node whatever its count is: closing the descriptors of
the child leaves those of the parent valid exactly when there is none that can be closed.
-/

import Flopperating.Task.ProcessSpec

namespace Flopperating
namespace Kernel

variable {σ σ' σ₁ : Kernel} {child fd i k m n parent process : ℕ} {r : ℤ} {nd : VfsNode} {isWrite : ℕ → Bool}

/-- How many of the descriptors are write ends of the pipe, or read ends; a descriptor does not
say which it is. -/
def pipeEnds (p : Process) (isWrite : ℕ → Bool) (write : Bool) (q : ℕ) : ℕ :=
  (List.range' 0 maxProcFds).countP fun fd => (p.fds fd).pipe = some q ∧ isWrite fd = write

/-- The counts have grown by what the process refers to. -/
structure CountsGrow (σ σ' : Kernel) (p : Process) (isWrite : ℕ → Bool) : Prop where
  node : ∀ n nd, σ.vfs.node? n = some nd →
    ∃ nd', σ'.vfs.node? n = some nd' ∧ nd'.refcount = nd.refcount + refs p n
  readRefs : ∀ q, (σ'.pipe q).readRefs = (σ.pipe q).readRefs + pipeEnds p isWrite false q
  writeRefs : ∀ q, (σ'.pipe q).writeRefs = (σ.pipe q).writeRefs + pipeEnds p isWrite true q

/-- No descriptor is the end of a pipe, and every node referred to has a reference and room for
more. -/
structure Countable (σ : Kernel) (p : Process) : Prop where
  pipe : ∀ fd, fd < maxProcFds → (p.fds fd).pipe = none
  room : ∀ n nd, σ.vfs.node? n = some nd → refs p n ≠ 0 → nd.refcount ≠ 0 ∧ nd.refcount + refs p n < 2 ^ 32

theorem fdRefsFrom_congr {p q : Process} (h : ∀ fd, fd < i + k → p.fds fd = q.fds fd) (n : ℕ) :
    fdRefsFrom p i k n = fdRefsFrom q i k n := by
  unfold fdRefsFrom
  refine List.countP_congr fun fd hfd => ?_
  rw [h fd (List.mem_range'_1.1 hfd).2]

theorem pipeEnds_congr {p q : Process} (h : ∀ fd, fd < maxProcFds → p.fds fd = q.fds fd) (write : Bool) (n : ℕ) :
    pipeEnds p isWrite write n = pipeEnds q isWrite write n := by
  unfold pipeEnds
  refine List.countP_congr fun fd hfd => ?_
  rw [h fd (by have := (List.mem_range'_1.1 hfd).2; omega)]

/-- There are no ends of pipes, of either kind, exactly when no descriptor has a pipe. -/
theorem pipeEnds_eq_zero_iff {p : Process} (isWrite : ℕ → Bool) : (∀ q write, pipeEnds p isWrite write q = 0) ↔
    ∀ fd, fd < maxProcFds → (p.fds fd).pipe = none := by
  constructor
  · intro h fd hfd
    rcases hpipe : (p.fds fd).pipe with - | q
    · rfl
    · refine absurd (List.countP_eq_zero.1 (h q (isWrite fd)) fd (List.mem_range'_1.2 ⟨Nat.zero_le fd, by omega⟩)) ?_
      simp [hpipe]
  · intro h q write
    refine List.countP_eq_zero.2 fun fd hfd => ?_
    rw [h fd (by have := (List.mem_range'_1.1 hfd).2; omega)]
    simp

theorem Forked.refs_child (h : Forked parent σ σ') : refs (σ'.process σ.vfs.fresh) = refs (σ.process parent) := by
  funext n
  unfold refs
  rw [h.cwd, fdRefsFrom_congr fun fd hfd => ?_]
  rw [h.fds, if_pos (by omega)]

/-- The node after the fork. -/
theorem Forked.node (h : Forked parent σ σ') (hb : σ.Bounded) (hnd : σ.vfs.node? n = some nd) :
    σ'.vfs.node? n = some { nd with refcount := incs (refs (σ.process parent) n) nd.refcount } := by
  have hheap := Vfs.node?_eq_some.1 hnd
  have hlt : n < σ.vfs.fresh := hb.lt_fresh (by rw [Live, hheap]; rfl)
  rw [Vfs.node?_eq_some, h.heap n hlt, hheap]
  rfl

/-- **The counts** after a fork. -/
theorem Forked.countsGrow_iff (h : Forked parent σ σ') (hb : σ.Bounded) :
    CountsGrow σ σ' (σ'.process σ.vfs.fresh) isWrite ↔ Countable σ (σ.process parent) := by
  have hends : ∀ q write, pipeEnds (σ'.process σ.vfs.fresh) isWrite write q =
      pipeEnds (σ.process parent) isWrite write q := fun q write =>
    pipeEnds_congr (fun fd hfd => by rw [h.fds, if_pos hfd]) write q
  constructor
  · intro hgrow
    refine ⟨(pipeEnds_eq_zero_iff isWrite).1 fun q write => ?_, fun n nd hnd hrefs => ?_⟩
    · rw [← hends]
      cases write with
      | false => exact Nat.left_eq_add.1 (by rw [← hgrow.readRefs, h.pipe])
      | true => exact Nat.left_eq_add.1 (by rw [← hgrow.writeRefs, h.pipe])
    · obtain ⟨nd', hnd', hcount⟩ := hgrow.node n nd hnd
      rw [h.node hb hnd, h.refs_child] at *
      obtain rfl := Option.some.inj hnd'
      exact ((incs_eq_add_iff _ _).1 hcount).resolve_left hrefs
  · intro hc
    have hzero := (pipeEnds_eq_zero_iff isWrite).2 hc.pipe
    constructor
    case node =>
      intro n nd hnd
      refine ⟨_, h.node hb hnd, ?_⟩
      rw [h.refs_child]
      refine (incs_eq_add_iff _ _).2 ?_
      by_cases hrefs : refs (σ.process parent) n = 0
      · exact .inl hrefs
      · exact .inr (hc.room n nd hnd hrefs)
    case readRefs =>
      intro q
      rw [h.pipe, hends, hzero, Nat.add_zero]
    case writeRefs =>
      intro q
      rw [h.pipe, hends, hzero, Nat.add_zero]

/-! ### Closing descriptors -/

/-- The arguments of `sys_close(fd)`. -/
def closeArgs (fd : ℕ) : SyscallArgs := ⟨u32 fd, 0, 0, 0, 0, u32_lt fd, by decide, by decide, by decide, by decide⟩

/-- Descriptors are closed one after the other. -/
def closeAll (process : ℕ) : List ℕ → Kernel → Option Kernel
  | [], σ => some σ
  | fd :: fds, σ => (σ.sysClose process (closeArgs fd)).bind fun o => closeAll process fds o.2

/-- `sys_close` has closed the descriptor, after `vfs_close`. -/
def closedFd (process fd : ℕ) (σ : Kernel) : Kernel :=
  { σ with strayFrees := (process, fd) :: σ.strayFrees }.setFd process fd
    { (σ.process process).fds fd with node := none }

/-- The descriptors that `sys_close` can close. -/
def Closable (fd : ℕ) : Prop := 0 < fd ∧ fd < maxProcFds

/-- `sys_close` does not turn the arguments down. -/
def Accepted (args : SyscallArgs) : Prop :=
  Closable args.a1 ∧ args.a2 = 0 ∧ args.a3 = 0 ∧ args.a4 = 0 ∧ args.a5 = 0

theorem accepted_closeArgs : Accepted (closeArgs fd) ↔ Closable (u32 fd) :=
  and_iff_left ⟨rfl, rfl, rfl, rfl⟩

theorem sysClose_refused {args : SyscallArgs} (h : ¬ Accepted args) : σ.sysClose process args = some (-1, σ) := by
  unfold sysClose
  by_cases hzero : args.a1 = 0
  · rw [if_pos hzero]
  rw [if_neg hzero]
  by_cases hrest : args.a2 ≠ 0 ∨ args.a3 ≠ 0 ∨ args.a4 ≠ 0 ∨ args.a5 ≠ 0
  · rw [if_pos hrest]
  · have hge : ¬ args.a1 < maxProcFds := fun hlt => h ⟨⟨Nat.pos_of_ne_zero hzero, hlt⟩, by omega⟩
    have hlt := args.word.1
    rw [if_neg hrest]
    dsimp only
    rw [if_pos]
    unfold toInt
    split <;> omega

/-- **`sys_close`** of a descriptor. -/
theorem sysClose_eq {args : SyscallArgs} (h : Accepted args) : σ.sysClose process args =
    (σ.vfsClose ((σ.process process).fds args.a1).node).map fun o => (0, o.2.closedFd process args.a1) := by
  have hint : toInt args.a1 = args.a1 := toInt_of_lt (lt_of_lt_of_le h.1.2 (by decide))
  have hnat : (toInt args.a1).toNat = args.a1 := by rw [hint, Int.toNat_natCast]
  unfold sysClose
  dsimp only
  rw [if_neg h.1.1.ne', if_neg (by simp [h.2]), if_neg (by rw [hint]; have := h.1.2; omega), hnat]
  rcases hclose : σ.vfsClose ((σ.process process).fds args.a1).node with - | ⟨e, σ₁⟩
  · rfl
  · refine congrArg (fun p => some ((0 : ℤ), p)) ?_
    unfold closedFd
    rw [process_vfsClose hclose]

/-- What the descriptors of the process refer to stays there, in whatever order the child closes
its own. -/
def ClosesSafely (σ : Kernel) (child parent : ℕ) : Prop :=
  ∀ order : List ℕ, (∀ fd, fd < maxProcFds → fd ∈ order) → ∃ σ', closeAll child order σ = some σ' ∧
    ∀ fd, fd < maxProcFds → ∀ m, ((σ.process parent).fds fd).node = some m ∨
      ((σ.process parent).fds fd).pipe = some m → σ.Live m → σ'.Live m

/-- One `sys_close`: nothing is done, or the descriptor is closed. -/
theorem sysClose_cases {args : SyscallArgs} {e : ℤ} (h : σ.sysClose process args = some (e, σ')) :
    ¬ Accepted args ∧ σ' = σ ∨ Accepted args ∧ ∃ e' σ₁,
      σ.vfsClose ((σ.process process).fds args.a1).node = some (e', σ₁) ∧ σ' = σ₁.closedFd process args.a1 := by
  by_cases hargs : Accepted args
  · rw [sysClose_eq hargs] at h
    obtain ⟨⟨e', σ₁⟩, hclose, he⟩ := Option.map_eq_some_iff.1 h
    exact .inr ⟨hargs, e', σ₁, hclose, (Prod.mk.inj he).2.symm⟩
  · rw [sysClose_refused hargs] at h
    exact .inl ⟨hargs, (Prod.mk.inj (Option.some.inj h)).2.symm⟩

theorem vfsClose_shrinks {node : Option ℕ} {e : ℤ} (h : σ.vfsClose node = some (e, σ')) :
    Vfs.Shrinks σ.vfs σ'.vfs := by
  rcases node with - | n
  · obtain ⟨-, rfl⟩ := Prod.mk.inj (Option.some.inj h)
    exact .refl _
  · obtain ⟨⟨e', vfs⟩, hclose, he⟩ := Option.map_eq_some_iff.1 h
    obtain ⟨-, rfl⟩ := Prod.mk.inj he
    exact (Vfs.vfsClose_frees hclose).2

theorem vfsClose_gone {e : ℤ} (h : σ.vfsClose (some n) = some (e, σ')) : σ'.vfs.heap n = none := by
  obtain ⟨⟨e', vfs⟩, hclose, he⟩ := Option.map_eq_some_iff.1 h
  obtain ⟨-, rfl⟩ := Prod.mk.inj he
  exact (Vfs.vfsClose_frees hclose).1

theorem closedFd_fds (hne : k ≠ fd) :
    ((σ.closedFd process fd).process process).fds k = ((σ.process process).fds k) := by
  unfold closedFd setFd
  rw [process_setProcess]
  exact Function.update_of_ne hne ..

theorem closedFd_node : (((σ.closedFd process fd).process process).fds fd).node = none := by
  unfold closedFd setFd
  rw [process_setProcess]
  simp only [Function.update_self]

/-- What is gone stays away. -/
theorem closeAll_gone {order : List ℕ} (h : closeAll process order σ = some σ') (hn : σ.vfs.heap n = none) :
    σ'.vfs.heap n = none := by
  induction order generalizing σ with
  | nil =>
    obtain rfl := Option.some.inj h
    exact hn
  | cons fd order ih =>
    obtain ⟨⟨e, σ₁⟩, hclose, h⟩ := Option.bind_eq_some_iff.1 h
    refine ih h ?_
    rcases sysClose_cases hclose with ⟨-, rfl⟩ | ⟨-, e', σ₂, hclose', rfl⟩
    · exact hn
    · exact (vfsClose_shrinks hclose').heap n hn

/-- The node of a descriptor is freed when all are closed. -/
theorem closeAll_frees {order : List ℕ} (h : closeAll process order σ = some σ') (hfd : Closable fd)
    (hmem : fd ∈ order) (hnode : ((σ.process process).fds fd).node = some n) : σ'.vfs.heap n = none := by
  have hword : u32 fd = fd := u32_of_lt (lt_of_lt_of_le hfd.2 (by decide))
  induction order generalizing σ with
  | nil => exact absurd hmem List.not_mem_nil
  | cons k order ih =>
    obtain ⟨⟨e, σ₁⟩, hclose, hrest⟩ := Option.bind_eq_some_iff.1 h
    rcases sysClose_cases hclose with ⟨hk, rfl⟩ | ⟨hk, e', σ₂, hclosed, rfl⟩
    · refine ih hrest ((List.mem_cons.1 hmem).resolve_left ?_) hnode
      rintro rfl
      exact hk (accepted_closeArgs.2 (by rwa [hword]))
    · by_cases hsame : (closeArgs k).a1 = fd
      · rw [hsame, hnode] at hclosed
        have hgone := vfsClose_gone hclosed
        exact closeAll_gone hrest hgone
      · refine ih hrest ((List.mem_cons.1 hmem).resolve_left ?_) ?_
        · rintro rfl
          exact hsame hword
        · rw [closedFd_fds (Ne.symm hsame), process_vfsClose hclosed, hnode]

/-- Without nodes, closing does nothing to objects. -/
theorem closeAll_pipes (process : ℕ) (order : List ℕ)
    (hnone : ∀ fd, Closable fd → ((σ.process process).fds fd).node = none) :
    ∃ σ', closeAll process order σ = some σ' ∧ σ'.vfs = σ.vfs := by
  induction order generalizing σ with
  | nil => exact ⟨σ, rfl, rfl⟩
  | cons k order ih =>
    by_cases hk : Closable (u32 k)
    · obtain ⟨σ', hrun, hvfs⟩ := ih (σ := σ.closedFd process (u32 k)) fun fd hfd => by
        rcases eq_or_ne fd (u32 k) with rfl | hne
        · exact closedFd_node
        · rw [closedFd_fds hne, hnone fd hfd]
      refine ⟨σ', ?_, hvfs⟩
      rw [closeAll, sysClose_eq (accepted_closeArgs.2 hk), show (closeArgs k).a1 = u32 k from rfl, hnone _ hk]
      exact hrun
    · obtain ⟨σ', hrun, hvfs⟩ := ih hnone
      refine ⟨σ', ?_, hvfs⟩
      rw [closeAll, sysClose_refused (mt accepted_closeArgs.1 hk)]
      exact hrun

theorem Forked.live_fd (h : Forked parent σ σ') (hfd : fd < maxProcFds)
    (hnode : ((σ.process parent).fds fd).node = some n) : σ.Live n := by
  have hrefs : fdRefsFrom (σ.process parent) 0 maxProcFds n ≠ 0 := fun hzero =>
    absurd hnode (by simpa using List.countP_eq_zero.1 hzero fd (List.mem_range'_1.2 ⟨Nat.zero_le fd, by omega⟩))
  obtain ⟨nd, hnd⟩ := h.nodes n (Nat.ne_of_gt (Nat.lt_of_lt_of_le (Nat.pos_of_ne_zero hrefs) (Nat.le_add_right _ _)))
  rw [Live, Vfs.node?_eq_some.1 hnd]
  rfl

/-- **Closing** what a child has inherited. -/
theorem Forked.closesSafely_iff (h : Forked parent σ σ') (hb : σ.Bounded) :
    ClosesSafely σ' σ.vfs.fresh parent ↔ ∀ fd, Closable fd → ((σ.process parent).fds fd).node = none := by
  have hfds : ∀ fd, fd < maxProcFds → (σ'.process σ.vfs.fresh).fds fd = (σ.process parent).fds fd := fun fd hfd => by
    rw [h.fds, if_pos hfd]
  constructor
  · intro hsafe fd hfd
    rcases hnode : ((σ.process parent).fds fd).node with - | n
    · rfl
    obtain ⟨σ'', hclose, hkept⟩ := hsafe (List.range maxProcFds) fun fd hfd => List.mem_range.2 hfd
    have hlive := h.live_fd hfd.2 hnode
    have hlive' : σ'.Live n := by
      unfold Live at hlive ⊢
      rw [h.heap n (hb.lt_fresh hlive), Option.isSome_map]
      exact hlive
    have hthere := hkept fd hfd.2 n (.inl (by rw [h.same]; exact hnode)) hlive'
    rw [Live, closeAll_frees hclose hfd (List.mem_range.2 hfd.2) (by rw [hfds fd hfd.2, hnode])] at hthere
    exact absurd hthere (by simp)
  · intro hnone order horder
    have hchild : ∀ fd, Closable fd → ((σ'.process σ.vfs.fresh).fds fd).node = none := fun fd hfd => by
      rw [hfds fd hfd.2, hnone fd hfd]
    obtain ⟨σ'', hclose, hvfs⟩ := closeAll_pipes σ.vfs.fresh order hchild
    refine ⟨σ'', hclose, fun fd hfd m hm hlive => ?_⟩
    rw [Live, hvfs]
    exact hlive

/-- **Counts and holders.**  After a successful fork the counts have grown by what the child
refers to exactly when it inherits no end of a pipe and every node that the parent refers to has
a reference and room for more; and closing the descriptors of the child leaves those of the
parent valid exactly when none that `sys_close` can close has a node. -/
theorem fork_counts (hb : σ.Bounded) (isWrite : ℕ → Bool) (h : σ.procFork parent = some (r, σ')) (hr : 0 ≤ r)
    (hchild : (σ'.process parent).children = some child) :
    (CountsGrow σ σ' (σ'.process child) isWrite ↔ Countable σ (σ.process parent)) ∧
      (ClosesSafely σ' child parent ↔ ∀ fd, Closable fd → ((σ.process parent).fds fd).node = none) := by
  cases procFork_ends hb h with
  | noProcess | noMap | noCwd | noName => exact absurd hr (by decide)
  | forked _ _ hforked =>
    rw [hforked.same] at hchild
    obtain rfl := Option.some.inj hchild
    exact ⟨hforked.countsGrow_iff hb, hforked.closesSafely_iff hb⟩

/-! ### A process with a pipe -/

/-- A process at `0`, with an address space and a directory, the node at `1`. -/
def forkHost (grant : ℕ → Bool) : Kernel where
  vfs := {
    fsList := []
    head := some 2
    tail := some 2
    heap := fun i =>
      match i with
      | 1 => some (.node ⟨2, 1, 1⟩)
      | 2 => some (.mountpoint ⟨⟨⟨none, none, none, none, none, none, none, none, none, none⟩, 0⟩, none, (4, []), (5, []), none, 3⟩)
      | i => if i < 6 then some .text else none
    fresh := 6
    grant := grant
    clock := 0 }
  vmm := copiedHost
  process _ := { newProcess 3 with region := some 1, cwd := some 1 }
  pipe _ := pipeInit fun _ => 0
  text _ := []
  nextPid := 2
  processCount := 1
  strayFrees := []

/-- Afterwards, with a pipe. -/
def pipedHost : Kernel :=
  { (forkHost fun _ => true).granted with
    pipe := Function.update (forkHost fun _ => true).pipe 6 (pipeInit fun _ => 0) }.setFd 0 0 ⟨none, some 6, 0⟩
    |>.setFd 0 1 ⟨none, some 6, 0⟩

example : (forkHost fun _ => true).sysPipe 0 ⟨4096, 0, 0, 0, 0, by decide⟩ = some (some (0, 1), pipedHost) := rfl

theorem bounded_forkHost (grant : ℕ → Bool) : (forkHost grant).Bounded := by
  intro i hi
  have hi : 6 ≤ i := hi
  obtain ⟨j, rfl⟩ := Nat.exists_eq_add_of_le' hi
  show (if j + 6 < 6 then some KObject.text else none) = none
  exact if_neg (Nat.not_lt.2 hi)

theorem bounded_pipedHost : pipedHost.Bounded := by
  intro i hi
  have hi : 7 ≤ i := hi
  exact (heap_granted (show i ≠ 6 by omega)).trans (bounded_forkHost _ i (show 6 ≤ i by omega))

theorem pipedHost_node (fd : ℕ) : ((pipedHost.process 0).fds fd).node = none := by
  rcases eq_or_ne fd 1 with rfl | hone
  · rfl
  rcases eq_or_ne fd 0 with rfl | hzero
  · rfl
  · have hfds : (pipedHost.process 0).fds fd = ⟨none, none, 0⟩ :=
      (Function.update_of_ne hone ..).trans (Function.update_of_ne hzero ..)
    rw [hfds]

theorem procFork_pipedHost : ∃ σ', pipedHost.procFork 0 = some (2, σ') := by
  have hobj : 1 ∉ copiedHost.objects := by
    rw [copiedHost_objects]
    decide
  obtain ⟨s, vmm, hcopy⟩ := (vmmCopyPagemap_returns running_copiedHost.spaces running_copiedHost.current
    running_copiedHost.current hobj).2 copiedHost_fits
  refine procFork_some (c := 1) bounded_pipedHost rfl ⟨rfl, rfl⟩ rfl rfl hcopy rfl fun n hn => ?_
  have hzero : fdRefsFrom (pipedHost.process 0) 0 maxProcFds n = 0 :=
    List.countP_eq_zero.2 fun fd _ => by simp [pipedHost_node]
  have hcwd : (pipedHost.process 0).cwd = some 1 := rfl
  unfold refs at hn
  rw [hzero, hcwd, Nat.zero_add] at hn
  split at hn
  · next hone =>
    obtain rfl := Option.some.inj hone
    exact ⟨⟨2, 1, 1⟩, rfl⟩
  · exact absurd rfl hn

theorem forked_pipedHost {σ' : Kernel} (hrun : pipedHost.procFork 0 = some (2, σ')) :
    Forked 0 pipedHost σ' ∧ (σ'.process 0).children = some 7 := by
  cases procFork_ends bounded_pipedHost hrun with
  | forked _ _ hforked =>
    refine ⟨hforked, ?_⟩
    rw [hforked.same]
    rfl

theorem fork_counts_pipedHost : ∃ σ' : Kernel, pipedHost.procFork 0 = some (2, σ') ∧
    (CountsGrow pipedHost σ' (σ'.process 7) (fun _ => true) ↔ Countable pipedHost (pipedHost.process 0)) ∧
      (ClosesSafely σ' 7 0 ↔ ∀ fd, Closable fd → ((pipedHost.process 0).fds fd).node = none) := by
  obtain ⟨σ', hrun⟩ := procFork_pipedHost
  exact ⟨σ', hrun, fork_counts bounded_pipedHost (fun _ => true) hrun (by decide) (forked_pipedHost hrun).2⟩

/-- The ends of a pipe that a child inherits are not counted. -/
theorem not_fork_counts : ¬ ∀ (σ σ' : Kernel) (parent child : ℕ) (isWrite : ℕ → Bool) (r : ℤ), σ.Bounded →
    σ.procFork parent = some (r, σ') → 0 ≤ r → (σ'.process parent).children = some child →
    CountsGrow σ σ' (σ'.process child) isWrite ∧ ClosesSafely σ' child parent := by
  intro hall
  obtain ⟨σ', hrun⟩ := procFork_pipedHost
  obtain ⟨hforked, hchild⟩ := forked_pipedHost hrun
  have hgrow := (hall _ σ' 0 7 (fun _ => true) _ bounded_pipedHost hrun (by decide) hchild).1
  exact absurd (((hforked.countsGrow_iff bounded_pipedHost).1 hgrow).pipe 0 (by decide)) (by decide)

end Kernel

end Flopperating
