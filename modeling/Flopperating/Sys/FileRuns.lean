/-
# Files that processes share

Processes come from one by forks, and open, close and change their directories in any order.
`vfs_close` frees the node whatever its count is, so an open file outlives all but its last
holder in the runs in which nobody else closes it (`shared_files`): there the counts are the
numbers of holders, and what a process refers to is there.

That excludes nearly every use of a file by parent and child.  The child that closes what it has
inherited leaves the parent with a descriptor of a node that has been freed.
-/

import Flopperating.Data.Transition
import Flopperating.Fs.VfsRuns
import Flopperating.Sys.FileHolders

namespace Flopperating
namespace Kernel

open RefCount Transition

variable {σ σ' : Kernel} {s s' : Kernel × List ℕ} {call : FileCall} {n process : ℕ} {procs : List ℕ}

/-- The process that makes the call. -/
def FileCall.caller : FileCall → ℕ
  | sysOpen process _ => process
  | sysClose process _ => process
  | sysPipe process _ => process
  | sysChdir process _ => process
  | procClean process => process
  | procFork process => process

/-- The call, and the processes afterwards. -/
def FileCall.run : FileCall → Kernel × List ℕ → Option (Kernel × List ℕ)
  | sysOpen process args, s => (s.1.sysOpen process args).map fun o => (o.2, s.2)
  | sysClose process args, s => (s.1.sysClose process args).map fun o => (o.2, s.2)
  | sysPipe process args, s => (s.1.sysPipe process args).map fun o => (o.2, s.2)
  | sysChdir process args, s => (s.1.sysChdir process args).map fun o => (o.2, s.2)
  | procClean process, s => (s.1.procClean process).map fun σ => (σ, s.2)
  | procFork process, s => (s.1.procFork process).map fun o => (o.2, family process o.1 o.2 s.2)

/-- One of the processes makes a call. -/
def FileStep (s : Kernel × List ℕ) (call : FileCall) (s' : Kernel × List ℕ) : Prop :=
  call.caller ∈ s.2 ∧ call.run s = some s'

/-- One process, without files. -/
structure Alone (s : Kernel × List ℕ) : Prop where
  sound : ∃ ms, s.1.vfs.Inv [] ms
  single : ∃ root, s.2 = [root] ∧ root < s.1.vfs.fresh ∧ (∀ n, refs (s.1.process root) n = 0) ∧
    ∀ t, Owns (s.1.process root) t → s.1.vfs.Plain t

/-- Nobody else holds what the call closes, and a fork that has begun to count does not fail. -/
structure LastHolder (s : Kernel × List ℕ) (call : FileCall) : Prop where
  last : ∀ n, Closes s.1 call n → holders s.2 s.1 n = 1
  fork : ∀ process, call = .procFork process → s.1.CountsFiles process → s.1.Affordable process

/-- What descriptors and directories refer to is there, it is counted as often as it is referred
to, and it can be closed. -/
structure FilesSafe (s : Kernel × List ℕ) : Prop where
  fd : ∀ process ∈ s.2, ∀ fd, fd < maxProcFds → ∀ n, ((s.1.process process).fds fd).node = some n →
    ∃ nd, s.1.vfs.node? n = some nd
  cwd : ∀ process ∈ s.2, ∀ n, (s.1.process process).cwd = some n → ∃ nd, s.1.vfs.node? n = some nd
  count : ∀ n nd, s.1.vfs.node? n = some nd → nd.refcount = holders s.2 s.1 n
  close : ∀ call : FileCall, call.caller ∈ s.2 → ∀ n, Closes s.1 call n → ∃ vfs, s.1.vfs.vfsClose n = some (0, vfs)

/-- The call frees a node exactly when it closes it and its count drops to zero. -/
def FreesAtZero (s : Kernel × List ℕ) (call : FileCall) (s' : Kernel × List ℕ) : Prop :=
  ∀ n nd, s.1.vfs.node? n = some nd →
    (s'.1.vfs.heap n = none ↔ Closes s.1 call n ∧ (refcountDecAndTest nd.refcount).1 = true)

theorem Closes.held (h : Closes σ call n) : refs (σ.process call.caller) n ≠ 0 := by
  cases h with
  | sysClose hargs hnode => exact refs_pos_of_fd hargs.1.2 hnode
  | sysChdir _ _ _ hcwd => exact refs_pos_of_cwd hcwd
  | procClean hcwd => exact refs_pos_of_cwd hcwd

theorem Holding.filesSafe (h : σ.Holding procs) : FilesSafe (σ, procs) := by
  constructor
  case fd => exact fun process hp fd hfd n hn => Vfs.node_of_nodeCount (h.counted hp (refs_pos_of_fd hfd hn))
  case cwd => exact fun process hp n hn => Vfs.node_of_nodeCount (h.counted hp (refs_pos_of_cwd hn))
  case count =>
    intro n nd hnd
    rw [← Vfs.nodeCount_of_node (Vfs.node?_eq_some.1 hnd)]
    exact h.count n
  case close =>
    intro call hcall n hn
    obtain ⟨vfs, hclose, -⟩ := h.sound.vfsClose (h.counted hcall hn.held)
    exact ⟨vfs, hclose⟩

/-- **One call**, by the last holder. -/
theorem Holding.step (h : s.1.Holding s.2) (hlast : LastHolder s call) (hstep : FileStep s call s') :
    s'.1.Holding s'.2 ∧ Frees (Closes s.1 call) s.1 s'.1 := by
  obtain ⟨hp, hrun⟩ := hstep
  cases call with
  | sysOpen process args =>
    obtain ⟨o, hopen, rfl⟩ := Option.map_eq_some_iff.1 hrun
    obtain ⟨r, σ', hopen', hafter⟩ := h.sysOpen hp args
    obtain rfl := Option.some.inj (hopen'.symm.trans hopen)
    exact hafter
  | sysClose process args =>
    obtain ⟨o, hclose, rfl⟩ := Option.map_eq_some_iff.1 hrun
    obtain ⟨r, σ', hclose', hafter⟩ := h.sysClose hp args hlast.last
    obtain rfl := Option.some.inj (hclose'.symm.trans hclose)
    exact hafter
  | sysPipe process args =>
    obtain ⟨o, hpipe, rfl⟩ := Option.map_eq_some_iff.1 hrun
    exact h.sysPipe hp hpipe
  | sysChdir process args =>
    obtain ⟨o, hchdir, rfl⟩ := Option.map_eq_some_iff.1 hrun
    obtain ⟨r, σ', hchdir', hafter⟩ := h.sysChdir hp args hlast.last
    obtain rfl := Option.some.inj (hchdir'.symm.trans hchdir)
    exact hafter
  | procClean process =>
    obtain ⟨σ', hclean, rfl⟩ := Option.map_eq_some_iff.1 hrun
    exact h.procClean hp hlast.last hclean
  | procFork process =>
    obtain ⟨o, hfork, rfl⟩ := Option.map_eq_some_iff.1 hrun
    exact h.procFork hp (hlast.fork process rfl) hfork

theorem Holding.freesAtZero (h : s.1.Holding s.2) (hlast : LastHolder s call)
    (hfrees : Frees (Closes s.1 call) s.1 s'.1) : FreesAtZero s call s' := by
  intro n nd hnd
  constructor
  · intro hgone
    have hcloses : Closes s.1 call n := by
      by_contra hno
      obtain ⟨nd', hnd'⟩ := hfrees.rest n hno ⟨nd, hnd⟩
      rw [Vfs.node?_eq_some, hgone] at hnd'
      exact absurd hnd' (by simp)
    have hone : nd.refcount = 1 := by
      rw [← hlast.last n hcloses, ← h.count n]
      exact (Vfs.nodeCount_of_node (Vfs.node?_eq_some.1 hnd)).symm
    exact ⟨hcloses, by rw [hone]; rfl⟩
  · rintro ⟨hcloses, -⟩
    exact hfrees.gone n hcloses

theorem Alone.holding (h : Alone s) : s.1.Holding s.2 := by
  obtain ⟨ms, hinv⟩ := h.sound
  obtain ⟨root, hroot, hlt, hnone, howned⟩ := h.single
  rw [hroot]
  constructor
  case sound => exact ⟨[], ms, hinv⟩
  case nodup => exact List.nodup_singleton root
  case old =>
    intro p hp
    rwa [List.mem_singleton.1 hp]
  case owned =>
    intro p hp
    rwa [List.mem_singleton.1 hp]
  case count =>
    intro n
    have hzero : s.1.vfs.nodeCount n = 0 := by
      by_contra hne
      obtain ⟨nd, hnd⟩ := Vfs.node_of_nodeCount hne
      exact absurd (hinv.opened n nd (Vfs.node?_eq_some.1 hnd)) List.not_mem_nil
    rw [hzero, holders, total_cons, hnone, total_nil]

theorem reach_holding (h : Reach Alone (fun s call s' => LastHolder s call ∧ FileStep s call s') s) :
    s.1.Holding s.2 :=
  h.invariant (fun _ hs => hs.holding) fun _ _ _ _ hs hstep => (hs.step hstep.1 hstep.2).1

/-- **A shared file.**  When nobody else holds a node that is closed and no fork fails after it
has begun to count, what the processes refer to is there in every state that a run reaches, its
count is the number of its holders, and a node is freed exactly when it is closed and its count
drops to zero. -/
theorem shared_files (h : Reach Alone (fun s call s' => LastHolder s call ∧ FileStep s call s') s) :
    FilesSafe s ∧ ∀ call s', LastHolder s call → FileStep s call s' → FreesAtZero s call s' := by
  have hs := reach_holding h
  exact ⟨hs.filesSafe, fun call s' hlast hstep => hs.freesAtZero hlast (hs.step hlast hstep).2⟩

/-! ### A process and its child -/

/-- A file system that opens everything. -/
def openFs : VfsFs := ⟨⟨some fun _ => true, none, some fun _ => some 0, none, none, none, none, none, none, none⟩, 0⟩

/-- It is mounted. -/
def mountedVfs : Vfs := ((Vfs.init [openFs] fun _ => true).vfsMount [] mountA 0).elim (Vfs.init [] fun _ => true) Prod.snd

def mountedHost : Kernel where
  vfs := mountedVfs
  vmm := copiedHost
  process _ := { newProcess 4 with region := some 1 }
  pipe _ := pipeInit fun _ => 0
  text _ := mountA
  nextPid := 2
  processCount := 1
  strayFrees := []

/-- A process at `3` without files, and its list of threads. -/
def fileHost : Kernel := mountedHost.granted.granted

theorem vfs_granted (σ : Kernel) :
    Vfs.HeapStep σ.vfs σ.granted.vfs (Function.update σ.vfs.heap σ.vfs.fresh (some .text)) (0 + 1) :=
  ⟨rfl, rfl, rfl, rfl, rfl, rfl⟩

theorem alone_fileHost : Alone (fileHost, [3]) := by
  have hmount : vfsRun [.mount [] mountA 0] (Vfs.init [openFs] fun _ => true, []) = some (mountedVfs, []) := rfl
  obtain ⟨ms, hinv, -⟩ := VfsCall.vfsRun_spec (Vfs.inv_init [openFs] fun _ => true) hmount
  constructor
  case sound => exact ⟨ms, Vfs.Inv.text (hinv.text (vfs_granted mountedHost)) (vfs_granted mountedHost.granted)⟩
  case single =>
    refine ⟨3, rfl, by decide, fun n => ?_, fun t ht => ?_⟩
    · have hfds : fdRefsFrom (fileHost.process 3) 0 maxProcFds n = 0 :=
        List.countP_eq_zero.2 fun fd _ => by simp [show ((fileHost.process 3).fds fd).node = none from rfl]
      show fdRefsFrom (fileHost.process 3) 0 maxProcFds n + (if (none : Option ℕ) = some n then 1 else 0) = 0
      rw [hfds, if_neg nofun]
    · rcases ht with ht | ht
      · obtain rfl : 4 = t := Option.some.inj ht
        refine ⟨by decide, fun o ho => ?_⟩
        exact (Option.some.inj ((show fileHost.vfs.heap 4 = some .text from rfl).symm.trans ho)).symm
      · exact absurd ht (show ¬ (none : Option ℕ) = some t from nofun)

def pathArgs : SyscallArgs := ⟨4096, 0, 0, 0, 0, by decide⟩

def openArgs : SyscallArgs := ⟨4096, 1, 0, 0, 0, by decide⟩

theorem lastHolder_of_none (hcloses : ∀ n, ¬ Closes s.1 call n) (hfork : ∀ process, call ≠ .procFork process) :
    LastHolder s call :=
  ⟨fun n hn => absurd hn (hcloses n), fun process he => absurd he (hfork process)⟩

/-- The process has a directory and two files. -/
theorem opened_fileHost : ∃ σ, Reach Alone (fun s call s' => LastHolder s call ∧ FileStep s call s') (σ, [3]) ∧
    σ.Live 3 ∧ σ.vfs.grant = (fun _ => true) ∧ σ.vmm = copiedHost ∧ (σ.process 3).region = some 1 ∧
      (σ.process 3).cwd = some 6 ∧ ((σ.process 3).fds 1).node = some 10 ∧ σ.vfs.fresh = 11 := by
  have hnone : ∀ {σ : Kernel} {args : SyscallArgs} (n : ℕ), ¬ Closes σ (.sysOpen 3 args) n := fun n hn => nomatch hn
  have hchdir : ∀ n, ¬ Closes fileHost (.sysChdir 3 pathArgs) n := fun n hn => by
    cases hn with
    | sysChdir _ _ _ hcwd => exact absurd hcwd (show ¬ (none : Option ℕ) = some n from nofun)
  have h₀ : Reach Alone (fun s call s' => LastHolder s call ∧ FileStep s call s') (fileHost, [3]) :=
    .init alone_fileHost
  have h₁ := h₀.step (.sysChdir 3 pathArgs) ⟨lastHolder_of_none hchdir (by simp), List.mem_cons_self, rfl⟩
  have h₂ := h₁.step (.sysOpen 3 openArgs) ⟨lastHolder_of_none hnone (by simp), List.mem_cons_self, rfl⟩
  have h₃ := h₂.step (.sysOpen 3 openArgs) ⟨lastHolder_of_none hnone (by simp), List.mem_cons_self, rfl⟩
  exact ⟨_, h₃, rfl, rfl, rfl, rfl, rfl, rfl, rfl⟩

theorem refs_le (p : Process) (n : ℕ) : refs p n ≤ maxProcFds + 1 := by
  have hfds : fdRefsFrom p 0 maxProcFds n ≤ maxProcFds := List.countP_le_length.trans List.length_range'.le
  unfold refs
  split <;> omega

/-- And then a child. -/
theorem forked_fileHost : ∃ σ, Reach Alone (fun s call s' => LastHolder s call ∧ FileStep s call s') (σ, [11, 3]) ∧
    ((σ.process 3).fds 1).node = some 10 ∧ ((σ.process 11).fds 1).node = some 10 := by
  obtain ⟨σ, hreach, hlive, hgrant, hvmm, hregion, hcwd, hfd, hfresh⟩ := opened_fileHost
  have hs := reach_holding hreach
  obtain ⟨opens, ms, hinv⟩ := hs.sound
  obtain ⟨q, vmm, hcopy⟩ := (vmmCopyPagemap_returns running_copiedHost.spaces running_copiedHost.current
    running_copiedHost.current (by rw [copiedHost_objects]; decide)).2 copiedHost_fits
  obtain ⟨σ', hfork⟩ := procFork_some hinv.bound hlive ⟨by rw [hgrant], by rw [hgrant]⟩ (by rw [hgrant]) hregion
    (by rwa [hvmm]) hcwd fun n hn => Vfs.node_of_nodeCount (hs.counted List.mem_cons_self hn)
  have hforked : Forked 3 σ σ' := by
    generalize hr : (σ.nextPid : ℤ) = r at hfork
    cases procFork_ends hinv.bound hfork with
    | noProcess | noMap | noCwd | noName => omega
    | forked _ _ hforked => exact hforked
  have hlast : LastHolder (σ, [3]) (.procFork 3) := by
    refine ⟨(fun n hn => nomatch hn), fun process he _ => ?_⟩
    obtain rfl := FileCall.procFork.inj he
    refine ⟨by rw [hgrant], fun n _ => ?_⟩
    have hcount := hs.count n
    rw [holders, total_cons, total_nil] at hcount
    have hle := refs_le (σ.process 3) n
    rw [hcount]
    unfold maxProcFds at hle
    dsimp only
    omega
  have hstep : (FileCall.procFork 3).run (σ, [3]) = some (σ', [11, 3]) := by
    show (σ.procFork 3).map _ = _
    rw [hfork, Option.map_some, family, if_neg (by omega), hforked.same, hfresh]
    rfl
  refine ⟨σ', hreach.step (.procFork 3) ⟨hlast, List.mem_cons_self, hstep⟩, ?_, ?_⟩
  · rw [hforked.same]
    exact hfd
  · rw [← hfresh, hforked.fds, if_pos (by decide)]
    exact hfd

theorem shared_files_fileHost : ∃ σ : Kernel, ((σ.process 3).fds 1).node = some 10 ∧
    ((σ.process 11).fds 1).node = some 10 ∧ FilesSafe (σ, [11, 3]) ∧
      ∀ call s', LastHolder (σ, [11, 3]) call → FileStep (σ, [11, 3]) call s' → FreesAtZero (σ, [11, 3]) call s' := by
  obtain ⟨σ, hreach, hparent, hchild⟩ := forked_fileHost
  exact ⟨σ, hparent, hchild, shared_files hreach⟩

/-- The child closes what it has inherited, and the descriptor of its parent refers to nothing. -/
theorem not_shared_files : ¬ ∀ s : Kernel × List ℕ, Reach Alone FileStep s →
    FilesSafe s ∧ ∀ call s', FileStep s call s' → FreesAtZero s call s' := by
  intro hall
  obtain ⟨σ, hreach, hparent, hchild⟩ := forked_fileHost
  have hs := reach_holding hreach
  have hargs : Accepted (closeArgs 1) := accepted_closeArgs.2 ⟨by decide, by decide⟩
  have hheld : refs (σ.process 11) 10 ≠ 0 := refs_pos_of_fd hargs.1.2 hchild
  obtain ⟨e, vfs, hclose, -, hgone, -⟩ := vfsClose_sound hs.sound (some 10) fun n hn => by
    obtain rfl := Option.some.inj hn
    exact hs.counted List.mem_cons_self hheld
  have hstep : (FileCall.sysClose 11 (closeArgs 1)).run (σ, [11, 3]) =
      some ({ σ with vfs := vfs }.closedFd 11 1, [11, 3]) := by
    show (σ.sysClose 11 (closeArgs 1)).map _ = _
    rw [sysClose_eq hargs, show (closeArgs 1).a1 = 1 from rfl, hchild, hclose]
    rfl
  have hsafe := (hall _ ((hreach.mono (fun _ h => h) fun _ _ _ h => h.2).step _ ⟨List.mem_cons_self, hstep⟩)).1
  obtain ⟨nd, hnd⟩ := hsafe.fd 3 (by simp) 1 (by decide) 10
    ((congrArg (fun p : Process => (p.fds 1).node) (process_setProcess_of_ne (by decide) _)).trans hparent)
  rw [Vfs.node?_eq_some] at hnd
  exact absurd ((hgone 10 rfl).symm.trans hnd) (by simp)

end Kernel

end Flopperating
