/-
# The holders of open files

A process holds the nodes of its descriptors and of its directory.  While the count of every
node is the number of its holders (`Holding`), whatever they hold is there, `vfs_close` can be
called on it, and each system call and each fork keeps the counts right, as long as nobody else
holds a node that is closed and a fork that has begun to count succeeds.

`vfs_close` does not look at the count: these are conditions on what the processes do.
-/

import Flopperating.Data.RefCount
import Flopperating.Fs.VfsSpec
import Flopperating.Task.ForkFails

namespace Flopperating

open RefCount

/-! ### Counts of nodes -/

namespace Vfs

variable {σ σ' σ₁ : Vfs} {m n t : ℕ} {nd : VfsNode} {o : Option ℕ}

/-- The count of a node; what is not a node has none. -/
def nodeCount (σ : Vfs) (n : ℕ) : ℕ := (σ.node? n).elim 0 VfsNode.refcount

/-- The object is not a node or a mountpoint, and will not be one. -/
def Plain (σ : Vfs) (t : ℕ) : Prop := t < σ.fresh ∧ ∀ o, σ.heap t = some o → o = .text

/-- The mountpoints are as they have to be. -/
def Sound (σ : Vfs) : Prop := ∃ opens ms, σ.Inv opens ms

/-- The mountpoints are as they have to be, and other objects are left alone. -/
structure Carries (σ σ' : Vfs) : Prop where
  sound : σ'.Sound
  fresh : σ.fresh ≤ σ'.fresh
  plain : ∀ t, σ.Plain t → σ'.Plain t

theorem Carries.trans (h : Carries σ σ₁) (h' : Carries σ₁ σ') : Carries σ σ' :=
  ⟨h'.sound, h.fresh.trans h'.fresh, fun t ht => h'.plain t (h.plain t ht)⟩

theorem Sound.carries (h : σ.Sound) : Carries σ σ := ⟨h, le_rfl, fun _ ht => ht⟩

theorem nodeCount_congr (h : σ'.node? n = σ.node? n) : σ'.nodeCount n = σ.nodeCount n := by
  unfold nodeCount
  rw [h]

theorem nodeCount_of_none (h : σ.node? n = none) : σ.nodeCount n = 0 := by
  rw [nodeCount, h]
  rfl

theorem nodeCount_of_node (h : σ.heap n = some (.node nd)) : σ.nodeCount n = nd.refcount := by
  rw [nodeCount, node?_eq_some.2 h]
  rfl

theorem node_of_nodeCount (h : σ.nodeCount n ≠ 0) : ∃ nd, σ.node? n = some nd := by
  rcases hnode : σ.node? n with - | nd
  · rw [nodeCount, hnode] at h
    exact absurd rfl h
  · exact ⟨nd, rfl⟩

/-- What is there stays plain. -/
theorem Plain.of_heap (ht : σ.Plain t) (hfresh : σ.fresh ≤ σ'.fresh) (h : σ'.heap t = σ.heap t ∨ σ'.heap t = none) :
    σ'.Plain t := by
  refine ⟨Nat.lt_of_lt_of_le ht.1 hfresh, fun o ho => ?_⟩
  rcases h with hsame | hnone
  · exact ht.2 o (hsame.symm.trans ho)
  · exact absurd (hnone.symm.trans ho) (by simp)

/-- **`vfs_open`** gives a new node with one reference, and changes no other. -/
theorem Sound.vfsOpen (h : σ.Sound) (name : CString) (mode : ℕ) : ∃ o σ', σ.vfsOpen name mode = some (o, σ') ∧
    Carries σ σ' ∧ (∀ n, o = some n → σ.node? n = none ∧ σ'.nodeCount n = 1) ∧
      ∀ m, o ≠ some m → σ'.node? m = σ.node? m := by
  obtain ⟨opens, ms, hinv⟩ := h
  rcases vfsOpen_cases hinv name mode with
    ⟨-, σ', hrun, hs⟩ | ⟨i, mp, -, -, hmp, ⟨σ', hrun, hs⟩ | ⟨σ', hrun, hs⟩⟩
  · refine ⟨none, σ', hrun, ⟨⟨opens, ms, hinv.idle hs⟩, by rw [hs.fresh]; omega, fun t ht => ?_⟩,
      fun n hn => absurd hn (by simp), fun m _ => ?_⟩
    · exact ht.of_heap (by rw [hs.fresh]; omega) (.inl (by rw [hs.heap]))
    · unfold node?
      rw [hs.heap]
  · refine ⟨none, σ', hrun, ⟨⟨opens, ms, hinv.text hs⟩, by rw [hs.fresh]; omega, fun t ht => ?_⟩,
      fun n hn => absurd hn (by simp), fun m _ => ?_⟩
    · exact ht.of_heap (by rw [hs.fresh]; omega) (.inl (by rw [hs.heap, Function.update_of_ne ht.1.ne]))
    · unfold node?
      rw [hs.heap]
      rcases eq_or_ne m σ.fresh with rfl | hne
      · rw [Function.update_self, hinv.bound _ le_rfl]
      · rw [Function.update_of_ne hne]
  · have hlt := hinv.lt_fresh hmp
    refine ⟨some (σ.fresh + 1), σ', hrun, ⟨⟨_, ms, hinv.openNode hmp hs⟩, by rw [hs.fresh]; omega, fun t ht => ?_⟩,
      fun n hn => ?_, fun m hm => ?_⟩
    · have hne : t ≠ i := by
        rintro rfl
        exact absurd (ht.2 _ hmp) (by simp)
      refine ht.of_heap (by rw [hs.fresh]; omega) (.inl ?_)
      rw [hs.heap, Function.update_of_ne hne, Function.update_of_ne (by have := ht.1; omega),
        Function.update_of_ne ht.1.ne]
    · obtain rfl := Option.some.inj hn
      have hnode : σ'.heap (σ.fresh + 1) = some (.node ⟨i, mode, 1⟩) := by
        rw [hs.heap, Function.update_of_ne (by omega), Function.update_self]
      refine ⟨?_, nodeCount_of_node hnode⟩
      unfold node?
      rw [hinv.bound _ (Nat.le_succ _)]
    · have hnode : m ≠ σ.fresh + 1 := fun he => hm (by rw [he])
      unfold node?
      rw [hs.heap]
      rcases eq_or_ne m i with rfl | hi
      · rw [Function.update_self, hmp]
      rw [Function.update_of_ne hi, Function.update_of_ne hnode]
      rcases eq_or_ne m σ.fresh with rfl | hne
      · rw [Function.update_self, hinv.bound _ le_rfl]
      · rw [Function.update_of_ne hne]

/-- **`vfs_close`** of a node that is counted frees it, and no other. -/
theorem Sound.vfsClose (h : σ.Sound) (hn : σ.nodeCount n ≠ 0) : ∃ σ', σ.vfsClose n = some (0, σ') ∧
    Carries σ σ' ∧ σ'.heap n = none ∧ ∀ m, m ≠ n → σ'.node? m = σ.node? m := by
  obtain ⟨opens, ms, hinv⟩ := h
  obtain ⟨nd, hnd⟩ := node_of_nodeCount hn
  have hmem : n ∈ opens := hinv.opened n nd (node?_eq_some.1 hnd)
  obtain ⟨k, hk⟩ := List.mem_iff_getElem?.1 hmem
  obtain ⟨nd', mp, σ', hnd', hmp, hclose, hs⟩ := vfsClose_spec hinv hmem
  refine ⟨σ', hclose, ⟨⟨_, ms, hinv.dropNode hk hnd' hmp hs⟩, by rw [hs.fresh]; omega, fun t ht => ?_⟩, ?_,
    fun m hm => ?_⟩
  · have hmount : t ≠ nd'.mountpoint := by
      rintro rfl
      exact absurd (ht.2 _ hmp) (by simp)
    refine ht.of_heap (by rw [hs.fresh]; omega) ?_
    rw [hs.heap]
    rcases eq_or_ne t n with rfl | hne
    · exact .inr (Function.update_self ..)
    · exact .inl ((Function.update_of_ne hne ..).trans (Function.update_of_ne hmount ..))
  · rw [hs.heap, Function.update_self]
  · unfold node?
    rw [hs.heap, Function.update_of_ne hm]
    rcases eq_or_ne m nd'.mountpoint with rfl | hmount
    · rw [Function.update_self, hmp]
    · rw [Function.update_of_ne hmount]

/-- An object that is plain is given back. -/
theorem Sound.kfree (h : σ.Sound) (ht : σ.Plain t) (hfree : σ.kfree t = some σ') :
    Carries σ σ' ∧ ∀ m, σ'.node? m = σ.node? m := by
  obtain ⟨opens, ms, hinv⟩ := h
  obtain ⟨hlive, rfl⟩ := kfree_eq hfree
  obtain ⟨o, ho⟩ := Option.isSome_iff_exists.1 hlive
  obtain rfl := ht.2 o ho
  have hcases : ∀ m, m = t ∧ σ.heap m = some .text ∧ Function.update σ.heap t none m = none ∨
      Function.update σ.heap t none m = σ.heap m := fun m => by
    rcases eq_or_ne m t with rfl | hne
    · exact .inl ⟨rfl, ho, Function.update_self ..⟩
    · exact .inr (Function.update_of_ne hne ..)
  refine ⟨⟨⟨opens, ms, hinv.of_view (k := 0) ⟨rfl, rfl, rfl, rfl, rfl, rfl⟩ (fun m mp => ?_) (fun m => ?_)
    fun m hm => ?_⟩, le_rfl, fun s hs => hs.of_heap le_rfl ?_⟩, fun m => ?_⟩
  · rcases hcases m with ⟨-, htext, hnone⟩ | hsame
    · simp [hnone, htext]
    · dsimp only
      rw [hsame]
  · rcases hcases m with ⟨-, htext, hnone⟩ | hsame
    · dsimp only
      rw [hnone, htext]
      rfl
    · exact congrArg nodeMp hsame
  · rcases hcases m with ⟨-, -, hnone⟩ | hsame
    · exact hnone
    · exact hsame.trans (hinv.bound m hm)
  · rcases hcases s with ⟨-, -, hnone⟩ | hsame
    · exact .inr hnone
    · exact .inl hsame
  · unfold node?
    rcases hcases m with ⟨-, htext, hnone⟩ | hsame
    · dsimp only
      rw [hnone, htext]
    · dsimp only
      rw [hsame]

/-- An object for text, or none. -/
theorem Sound.kmalloc (h : σ.Sound) : Carries σ (σ.kmalloc .text).2 ∧ (∀ m, (σ.kmalloc .text).2.node? m = σ.node? m) ∧
    ∀ t, (σ.kmalloc .text).1 = some t → (σ.kmalloc .text).2.Plain t := by
  obtain ⟨opens, ms, hinv⟩ := h
  rcases kmalloc_cases .text σ with ⟨-, σ', hrun, hs⟩ | ⟨-, σ', hrun, hs⟩
  · rw [hrun]
    refine ⟨⟨⟨opens, ms, hinv.idle hs⟩, hs.fresh.ge.trans' (Nat.le_succ _), fun t ht => ?_⟩, fun m => ?_,
      fun t ht => absurd ht (by simp)⟩
    · exact ht.of_heap (hs.fresh.ge.trans' (Nat.le_succ _)) (.inl (by rw [hs.heap]))
    · unfold node?
      rw [hs.heap]
  · rw [hrun]
    refine ⟨⟨⟨opens, ms, hinv.text hs⟩, hs.fresh.ge.trans' (Nat.le_succ _), fun t ht => ?_⟩, fun m => ?_,
      fun t ht => ?_⟩
    · exact ht.of_heap (hs.fresh.ge.trans' (Nat.le_succ _)) (.inl (by rw [hs.heap, Function.update_of_ne ht.1.ne]))
    · unfold node?
      rw [hs.heap]
      rcases eq_or_ne m σ.fresh with rfl | hne
      · rw [Function.update_self, hinv.bound _ le_rfl]
      · rw [Function.update_of_ne hne]
    · obtain rfl := Option.some.inj ht
      refine ⟨hs.fresh.ge.trans_lt' (Nat.lt_succ_self _), fun o ho => ?_⟩
      rw [hs.heap, Function.update_self] at ho
      exact (Option.some.inj ho).symm

end Vfs

namespace Kernel

variable {σ σ' σ₁ : Kernel} {fd m n process : ℕ} {procs : List ℕ} {r : ℤ} {args : SyscallArgs}

/-! ### What a process refers to -/

theorem fdRefsFrom_eq_total (p : Process) (i k n : ℕ) :
    fdRefsFrom p i k n = total (List.range' i k) (fun fd n => if (p.fds fd).node = some n then 1 else 0) n :=
  (total_ite _ (fun fd n => (p.fds fd).node = some n) n).symm

/-- **Another node** for a descriptor. -/
theorem refs_update (p : Process) (hfd : fd < maxProcFds) (desc : VfsFileDescriptor) (n : ℕ) :
    refs { p with fds := Function.update p.fds fd desc } n + (if (p.fds fd).node = some n then 1 else 0) =
      refs p n + if desc.node = some n then 1 else 0 := by
  have hchange := total_change (fun fd n => if (p.fds fd).node = some n then 1 else 0)
    (fun k n => if (Function.update p.fds fd desc k).node = some n then 1 else 0) n List.nodup_range'
    (List.mem_range'_1.2 ⟨Nat.zero_le fd, (Nat.zero_add maxProcFds).symm ▸ hfd⟩) fun k _ hk => by
      rw [Function.update_of_ne hk]
  rw [Function.update_self] at hchange
  unfold refs
  rw [fdRefsFrom_eq_total, fdRefsFrom_eq_total]
  dsimp only
  omega

/-- **Another directory.** -/
theorem refs_cwd (p : Process) (cwd : Option ℕ) (n : ℕ) :
    refs { p with cwd := cwd } n + (if p.cwd = some n then 1 else 0) = refs p n + if cwd = some n then 1 else 0 := by
  have hfds : fdRefsFrom { p with cwd := cwd } 0 maxProcFds n = fdRefsFrom p 0 maxProcFds n := rfl
  unfold refs
  rw [hfds]
  dsimp only
  omega

theorem refs_pos_of_fd {p : Process} (hfd : fd < maxProcFds) (hnode : (p.fds fd).node = some n) : refs p n ≠ 0 := by
  have := refs_update p hfd ⟨none, none, 0⟩ n
  rw [if_pos hnode, if_neg (by simp)] at this
  omega

theorem refs_pos_of_cwd {p : Process} (hcwd : p.cwd = some n) : refs p n ≠ 0 := by
  unfold refs
  rw [if_pos hcwd]
  exact Nat.succ_ne_zero _

/-! ### The invariant -/

/-- How often the processes refer to the node. -/
def holders (procs : List ℕ) (σ : Kernel) (n : ℕ) : ℕ := total procs (fun p => refs (σ.process p)) n

/-- The list of threads or the name. -/
def Owns (p : Process) (t : ℕ) : Prop := p.threads = some t ∨ p.name = some t

/-- The count of every node is the number of its holders. -/
structure Holding (σ : Kernel) (procs : List ℕ) : Prop where
  sound : σ.vfs.Sound
  nodup : procs.Nodup
  old : ∀ p ∈ procs, p < σ.vfs.fresh
  owned : ∀ p ∈ procs, ∀ t, Owns (σ.process p) t → σ.vfs.Plain t
  count : ∀ n, σ.vfs.nodeCount n = holders procs σ n

theorem Holding.held (h : σ.Holding procs) (hp : process ∈ procs) : refs (σ.process process) n ≤ σ.vfs.nodeCount n := by
  rw [h.count]
  exact le_total (fun p => refs (σ.process p)) n hp

theorem Holding.counted (h : σ.Holding procs) (hp : process ∈ procs) (hn : refs (σ.process process) n ≠ 0) :
    σ.vfs.nodeCount n ≠ 0 := by
  have := h.held hp (n := n)
  omega

/-- **One process changes**, and the counts with it. -/
theorem Holding.change (h : σ.Holding procs) (hp : process ∈ procs) (hc : Vfs.Carries σ.vfs σ'.vfs)
    (hother : ∀ q ∈ procs, q ≠ process → σ'.process q = σ.process q)
    (howned : ∀ t, Owns (σ'.process process) t → Owns (σ.process process) t)
    (hcount : ∀ n, σ'.vfs.nodeCount n + refs (σ.process process) n =
      σ.vfs.nodeCount n + refs (σ'.process process) n) : σ'.Holding procs := by
  constructor
  case sound => exact hc.sound
  case nodup => exact h.nodup
  case old => exact fun p hin => Nat.lt_of_lt_of_le (h.old p hin) hc.fresh
  case owned =>
    intro p hin t ht
    refine hc.plain t (h.owned p hin t ?_)
    rcases eq_or_ne p process with rfl | hne
    · exact howned t ht
    · rwa [hother p hin hne] at ht
  case count =>
    intro n
    have hchange := total_change (fun p => refs (σ.process p)) (fun p => refs (σ'.process p)) n h.nodup hp fun q hin hne => by rw [hother q hin hne]
    have hbefore := h.count n
    have hafter := hcount n
    unfold holders at hbefore ⊢
    omega

/-- Nothing that is counted changes. -/
theorem Holding.carry (h : σ.Holding procs) (hc : Vfs.Carries σ.vfs σ'.vfs)
    (hprocess : ∀ q ∈ procs, σ'.process q = σ.process q) (hcount : ∀ n, σ'.vfs.node? n = σ.vfs.node? n) :
    σ'.Holding procs := by
  constructor
  case sound => exact hc.sound
  case nodup => exact h.nodup
  case old => exact fun p hin => Nat.lt_of_lt_of_le (h.old p hin) hc.fresh
  case owned =>
    intro p hin t ht
    rw [hprocess p hin] at ht
    exact hc.plain t (h.owned p hin t ht)
  case count =>
    intro n
    rw [Vfs.nodeCount_congr (hcount n), h.count n]
    exact (total_congr fun q hin => by rw [hprocess q hin]).symm

/-! ### Closing -/

/-- What a process does with its files. -/
inductive FileCall
  | sysOpen (process : ℕ) (args : SyscallArgs)
  | sysClose (process : ℕ) (args : SyscallArgs)
  | sysPipe (process : ℕ) (args : SyscallArgs)
  | sysChdir (process : ℕ) (args : SyscallArgs)
  | procClean (process : ℕ)
  | procFork (process : ℕ)

/-- The call passes the node to `vfs_close`. -/
inductive Closes (σ : Kernel) : FileCall → ℕ → Prop
  | sysClose {process n : ℕ} {args : SyscallArgs} : Accepted args →
      ((σ.process process).fds args.a1).node = some n → Closes σ (.sysClose process args) n
  | sysChdir {process n directory : ℕ} {args : SyscallArgs} {vfs : Vfs} : args.a1 ≠ 0 →
      ¬ (args.a2 ≠ 0 ∨ args.a3 ≠ 0 ∨ args.a4 ≠ 0 ∨ args.a5 ≠ 0) →
      σ.vfs.vfsOpen (σ.text args.a1) 0 = some (some directory, vfs) → (σ.process process).cwd = some n →
      Closes σ (.sysChdir process args) n
  | procClean {process n : ℕ} : (σ.process process).cwd = some n → Closes σ (.procClean process) n

/-- The nodes that are closed are gone, and the others are there. -/
structure Frees (closed : ℕ → Prop) (σ σ' : Kernel) : Prop where
  gone : ∀ n, closed n → σ'.vfs.heap n = none
  rest : ∀ m, ¬ closed m → (∃ nd, σ.vfs.node? m = some nd) → ∃ nd, σ'.vfs.node? m = some nd

/-- The call does nothing to nodes. -/
theorem frees_of_node? {closed : ℕ → Prop} (hnone : ∀ n, ¬ closed n) (h : ∀ m, σ'.vfs.node? m = σ.vfs.node? m) :
    Frees closed σ σ' :=
  ⟨fun n hn => absurd hn (hnone n), fun m _ hnd => by rwa [h]⟩

/-- **`vfs_close`** of a node that is counted. -/
theorem vfsClose_sound (h : σ.vfs.Sound) (node : Option ℕ) (hcounted : ∀ n, node = some n → σ.vfs.nodeCount n ≠ 0) :
    ∃ e vfs, σ.vfsClose node = some (e, { σ with vfs := vfs }) ∧ Vfs.Carries σ.vfs vfs ∧
      (∀ n, node = some n → vfs.heap n = none) ∧ ∀ m, node ≠ some m → vfs.node? m = σ.vfs.node? m := by
  rcases node with - | n
  · exact ⟨-1, σ.vfs, rfl, h.carries, fun n hn => absurd hn (by simp), fun m _ => rfl⟩
  · obtain ⟨vfs, hclose, hc, hgone, hrest⟩ := h.vfsClose (hcounted n rfl)
    refine ⟨0, vfs, ?_, hc, fun m hm => ?_, fun m hm => hrest m fun he => hm (by rw [he])⟩
    · unfold Kernel.vfsClose
      dsimp only
      rw [hclose]
      rfl
    · obtain rfl := Option.some.inj hm
      exact hgone

/-- The last reference to a node is gone with the node. -/
theorem count_closed {node : Option ℕ} {vfs vfs' : Vfs} (hone : ∀ n, node = some n → vfs.nodeCount n = 1)
    (hgone : ∀ n, node = some n → vfs'.heap n = none) (hrest : ∀ m, node ≠ some m → vfs'.node? m = vfs.node? m) (n : ℕ) :
    vfs'.nodeCount n + (if node = some n then 1 else 0) = vfs.nodeCount n := by
  by_cases hn : node = some n
  · have hnone : vfs'.node? n = none := by
      unfold Vfs.node?
      rw [hgone n hn]
    rw [if_pos hn, hone n hn, Vfs.nodeCount_of_none hnone]
  · rw [if_neg hn, Nat.add_zero, Vfs.nodeCount_congr (hrest n hn)]

/-! ### The system calls -/

theorem mem_freeFds {p : Process} (h : (freeFds p).head? = some fd) : fd < maxProcFds ∧ (p.fds fd).node = none := by
  have hmem := List.mem_filter.1 (List.mem_of_mem_head? (Option.mem_def.2 h))
  exact ⟨List.mem_range.1 hmem.1, by simpa using hmem.2⟩

/-- **`sys_open`.** -/
theorem Holding.sysOpen (h : σ.Holding procs) (hp : process ∈ procs) (args : SyscallArgs) : ∃ r σ',
    σ.sysOpen process args = some (r, σ') ∧ σ'.Holding procs ∧ Frees (Closes σ (.sysOpen process args)) σ σ' := by
  have hnone : ∀ n, ¬ Closes σ (.sysOpen process args) n := fun n hn => nomatch hn
  have hidle : σ.Holding procs ∧ Frees (Closes σ (.sysOpen process args)) σ σ :=
    ⟨h, frees_of_node? hnone fun _ => rfl⟩
  unfold Kernel.sysOpen
  by_cases hargs : args.a1 = 0 ∨ args.a2 = 0
  · exact ⟨-1, σ, if_pos hargs, hidle⟩
  rw [if_neg hargs]
  by_cases hrest : args.a3 ≠ 0 ∨ args.a4 ≠ 0 ∨ args.a5 ≠ 0
  · exact ⟨-1, σ, if_pos hrest, hidle⟩
  rw [if_neg hrest]
  rcases hfree : (freeFds (σ.process process)).head? with - | fd
  · exact ⟨-1, σ, rfl, hidle⟩
  obtain ⟨hfd, hnode⟩ := mem_freeFds hfree
  obtain ⟨o, vfs, hopen, hc, hnew, hold⟩ := h.sound.vfsOpen (σ.text args.a1) args.a2
  dsimp only
  rw [hopen]
  rcases o with - | n
  · refine ⟨-1, { σ with vfs := vfs }, rfl, h.carry hc (fun _ _ => rfl) fun m => hold m (by simp), ?_⟩
    exact frees_of_node? hnone fun m => hold m (by simp)
  · refine ⟨fd, { σ with vfs := vfs }.setFd process fd { (σ.process process).fds fd with node := some n }, rfl, ?_, ?_⟩
    · refine h.change hp hc (fun q _ hq => process_setProcess_of_ne hq _) (fun t ht => ?_) fun m => ?_
      · unfold setFd at ht
        rw [process_setProcess] at ht
        exact ht
      · have hrefs := refs_update (σ.process process) hfd { (σ.process process).fds fd with node := some n } m
        rw [if_neg (by rw [hnode]; simp), Nat.add_zero] at hrefs
        unfold setFd
        rw [process_setProcess, hrefs]
        show vfs.nodeCount m + _ = _
        dsimp only
        by_cases hm : n = m
        · subst hm
          rw [if_pos rfl, (hnew n rfl).2, Vfs.nodeCount_of_none (hnew n rfl).1]
          omega
        · rw [if_neg (by simpa using hm), Vfs.nodeCount_congr (hold m (by simpa using hm)), Nat.add_zero]
    · refine ⟨fun m hm => absurd hm (hnone m), fun m _ hnd => ?_⟩
      obtain ⟨nd, hnd⟩ := hnd
      refine ⟨nd, (hold m fun he => ?_).trans hnd⟩
      rw [(hnew m he).1] at hnd
      exact absurd hnd (by simp)

/-- **`sys_close`** by the last holder. -/
theorem Holding.sysClose (h : σ.Holding procs) (hp : process ∈ procs) (args : SyscallArgs)
    (hlast : ∀ n, Closes σ (.sysClose process args) n → holders procs σ n = 1) : ∃ r σ',
      σ.sysClose process args = some (r, σ') ∧ σ'.Holding procs ∧ Frees (Closes σ (.sysClose process args)) σ σ' := by
  by_cases hargs : Accepted args
  · have hiff : ∀ n, Closes σ (.sysClose process args) n ↔ ((σ.process process).fds args.a1).node = some n := fun n =>
      ⟨fun | .sysClose _ hn => hn, .sysClose hargs⟩
    obtain ⟨e, vfs, hclose, hc, hgone, hrest⟩ := vfsClose_sound h.sound _ fun n hn =>
      h.counted hp (refs_pos_of_fd hargs.1.2 hn)
    refine ⟨0, { σ with vfs := vfs }.closedFd process args.a1, ?_, ?_, fun n hn => hgone n ((hiff n).1 hn), fun m hm hnd => ?_⟩
    · rw [sysClose_eq hargs, hclose]
      rfl
    · refine h.change hp hc (fun q _ hq => process_setProcess_of_ne hq _) (fun t ht => ?_) fun m => ?_
      · unfold closedFd setFd at ht
        rw [process_setProcess] at ht
        exact ht
      · have hcount := count_closed (fun n hn => (h.count n).trans (hlast n ((hiff n).2 hn))) hgone hrest m
        have hrefs := refs_update (σ.process process) hargs.1.2
          { (σ.process process).fds args.a1 with node := none } m
        dsimp only at hrefs
        rw [if_neg (show ¬ (none : Option ℕ) = some m by simp)] at hrefs
        unfold closedFd setFd
        rw [process_setProcess]
        show vfs.nodeCount m + _ = _ + refs { σ.process process with fds := Function.update _ _ _ } m
        dsimp only at hcount ⊢
        omega
    · obtain ⟨nd, hnd⟩ := hnd
      exact ⟨nd, (hrest m fun he => hm ((hiff m).2 he)).trans hnd⟩
  · refine ⟨-1, σ, sysClose_refused hargs, h, frees_of_node? (fun n hn => ?_) fun _ => rfl⟩
    cases hn with
    | sysClose haccepted _ => exact hargs haccepted

/-- **`sys_chdir`** by the last holder of the directory. -/
theorem Holding.sysChdir (h : σ.Holding procs) (hp : process ∈ procs) (args : SyscallArgs)
    (hlast : ∀ n, Closes σ (.sysChdir process args) n → holders procs σ n = 1) : ∃ r σ',
      σ.sysChdir process args = some (r, σ') ∧ σ'.Holding procs ∧ Frees (Closes σ (.sysChdir process args)) σ σ' := by
  unfold Kernel.sysChdir
  by_cases hzero : args.a1 = 0
  · refine ⟨-1, σ, if_pos hzero, h, frees_of_node? (fun n hn => ?_) fun _ => rfl⟩
    cases hn with
    | sysChdir hne _ _ _ => exact hne hzero
  rw [if_neg hzero]
  by_cases hargs : args.a2 ≠ 0 ∨ args.a3 ≠ 0 ∨ args.a4 ≠ 0 ∨ args.a5 ≠ 0
  · refine ⟨-1, σ, if_pos hargs, h, frees_of_node? (fun n hn => ?_) fun _ => rfl⟩
    cases hn with
    | sysChdir _ hne _ _ => exact hne hargs
  rw [if_neg hargs]
  obtain ⟨o, vfs, hopen, hc, hnew, hold⟩ := h.sound.vfsOpen (σ.text args.a1) 0
  dsimp only
  rw [hopen]
  rcases o with - | n
  · refine ⟨-1, { σ with vfs := vfs }, rfl, h.carry hc (fun _ _ => rfl) fun m => hold m (by simp), ?_⟩
    refine frees_of_node? (fun m hm => ?_) fun m => hold m (by simp)
    cases hm with
    | sysChdir _ _ hopened _ => exact absurd (hopen.symm.trans hopened) (by simp)
  have hiff : ∀ m, Closes σ (.sysChdir process args) m ↔ (σ.process process).cwd = some m := fun m =>
    ⟨fun | .sysChdir _ _ _ hm => hm, .sysChdir hzero hargs hopen⟩
  -- the old directory is counted, so it is not the new one
  have hother : ∀ m, (σ.process process).cwd = some m → n ≠ m := fun m hm he => by
    have hcounted := h.counted hp (refs_pos_of_cwd hm)
    rw [← he, Vfs.nodeCount_of_none (hnew n rfl).1] at hcounted
    exact hcounted rfl
  have hone : ∀ m, (σ.process process).cwd = some m → vfs.nodeCount m = 1 := fun m hm => by
    rw [Vfs.nodeCount_congr (hold m fun he => hother m hm (Option.some.inj he)), h.count]
    exact hlast m ((hiff m).2 hm)
  obtain ⟨e, vfs', hclose, hc', hgone, hrest⟩ := vfsClose_sound (σ := { σ with vfs := vfs }) hc.sound
    (σ.process process).cwd fun m hm => by rw [hone m hm]; decide
  refine ⟨0, { σ with vfs := vfs' }.setProcess process { σ.process process with cwd := some n }, ?_, ?_,
    fun m hm => hgone m ((hiff m).1 hm), fun m hm hnd => ?_⟩
  · simp only [Option.bind_eq_bind, Option.bind_some, hclose]
    rfl
  · refine h.change hp (hc.trans hc') (fun q _ hq => process_setProcess_of_ne hq _) (fun t ht => ?_) fun m => ?_
    · rw [process_setProcess] at ht
      exact ht
    · have hcount := count_closed hone hgone hrest m
      have hrefs := refs_cwd (σ.process process) (some n) m
      rw [process_setProcess]
      show vfs'.nodeCount m + _ = σ.vfs.nodeCount m + refs { σ.process process with cwd := some n } m
      dsimp only at hcount hrefs ⊢
      by_cases hm : n = m
      · subst hm
        rw [(hnew n rfl).2] at hcount
        rw [if_pos rfl] at hrefs
        rw [Vfs.nodeCount_of_none (hnew n rfl).1]
        omega
      · rw [Vfs.nodeCount_congr (hold m (by simpa using hm))] at hcount
        rw [if_neg (show ¬ some n = some m by simpa using hm)] at hrefs
        omega
  · obtain ⟨nd, hnd⟩ := hnd
    refine ⟨nd, (hrest m fun he => hm ((hiff m).2 he)).trans ((hold m fun he => ?_).trans hnd)⟩
    rw [(hnew m he).1] at hnd
    exact absurd hnd (by simp)

/-! ### Calls that close nothing else -/

/-- Something plain is given back. -/
theorem kfree_carries {ptr : Option ℕ} (h : σ.vfs.Sound) (hplain : ∀ t, ptr = some t → σ.vfs.Plain t)
    (hfree : σ.kfree ptr = some σ') : Vfs.Carries σ.vfs σ'.vfs ∧ σ'.process = σ.process ∧
      (∀ m, σ'.vfs.node? m = σ.vfs.node? m) ∧ ∀ m, σ.vfs.heap m = none → σ'.vfs.heap m = none := by
  rcases ptr with - | t
  · obtain rfl := Option.some.inj hfree
    exact ⟨h.carries, rfl, fun _ => rfl, fun _ hm => hm⟩
  · obtain ⟨vfs, hfreed, rfl⟩ := Option.map_eq_some_iff.1 hfree
    obtain ⟨hc, hnode⟩ := h.kfree (hplain t rfl) hfreed
    exact ⟨hc, rfl, hnode, (Vfs.kfree_shrinks hfreed).heap⟩

theorem vfs_vmmRegionDestroy {region : Option ℕ} (h : σ.vmmRegionDestroy region = some σ') :
    σ'.vfs = σ.vfs ∧ σ'.process = σ.process := by
  rcases region with - | q
  · obtain rfl := Option.some.inj h
    exact ⟨rfl, rfl⟩
  · obtain ⟨vmm, -, rfl⟩ := Option.map_eq_some_iff.1 h
    exact ⟨rfl, rfl⟩

/-- **`proc_clean`** by the last holder of the directory. -/
theorem Holding.procClean (h : σ.Holding procs) (hp : process ∈ procs)
    (hlast : ∀ n, Closes σ (.procClean process) n → holders procs σ n = 1) (hrun : σ.procClean process = some σ') :
    σ'.Holding procs ∧ Frees (Closes σ (.procClean process)) σ σ' := by
  have hiff : ∀ n, Closes σ (.procClean process) n ↔ (σ.process process).cwd = some n := fun n =>
    ⟨fun | .procClean hn => hn, .procClean⟩
  obtain ⟨e, vfs, hclose, hc, hgone, hrest⟩ := vfsClose_sound h.sound (σ.process process).cwd fun n hn =>
    h.counted hp (refs_pos_of_cwd hn)
  obtain ⟨σ₄, hrelease, rfl⟩ := Option.map_eq_some_iff.1 hrun
  unfold procRelease at hrelease
  rw [hclose] at hrelease
  obtain ⟨σ₂, hdestroy, hrest₂⟩ := Option.bind_eq_some_iff.1 (show (Kernel.vmmRegionDestroy _ _).bind _ = _ from hrelease)
  obtain ⟨σ₃, hname, hthreads⟩ := Option.bind_eq_some_iff.1 hrest₂
  obtain ⟨hvfs₂, hprocess₂⟩ := vfs_vmmRegionDestroy hdestroy
  have hc₂ : Vfs.Carries σ.vfs σ₂.vfs := by rwa [hvfs₂]
  obtain ⟨hc₃, hprocess₃, hnode₃, hheap₃⟩ := kfree_carries hc₂.sound
    (fun t ht => hc₂.plain t (h.owned _ hp t (.inr (by rw [hprocess₂] at ht; exact ht)))) hname
  obtain ⟨hc₄, hprocess₄, hnode₄, hheap₄⟩ := kfree_carries hc₃.sound
    (fun t ht => (hc₂.trans hc₃).plain t (h.owned _ hp t (.inl (by rw [hprocess₃, hprocess₂] at ht; exact ht)))) hthreads
  have hprocess : σ₄.process = σ.process := hprocess₄.trans (hprocess₃.trans hprocess₂)
  have hnode : ∀ m, σ₄.vfs.node? m = vfs.node? m := fun m => by rw [hnode₄, hnode₃, hvfs₂]
  refine ⟨?_, fun n hn => ?_, fun m hm hnd => ?_⟩
  · refine h.change hp (hc₂.trans (hc₃.trans hc₄)) (fun q _ hq => ?_) (fun t ht => ?_) fun m => ?_
    · rw [process_setProcess_of_ne hq, hprocess]
    · rw [process_setProcess] at ht
      exact absurd ht (by simp [Owns])
    · have hcount := count_closed (fun n hn => (h.count n).trans (hlast n ((hiff n).2 hn))) hgone hrest m
      have hrefs := refs_cwd (σ.process process) none m
      rw [process_setProcess, hprocess, vfs_setProcess, Vfs.nodeCount_congr (hnode m)]
      rw [if_neg (show ¬ (none : Option ℕ) = some m by simp)] at hrefs
      show _ = _ + refs { σ.process process with cwd := none } m
      dsimp only at hrefs ⊢
      omega
  · refine hheap₄ n (hheap₃ n ?_)
    rw [hvfs₂]
    exact hgone n ((hiff n).1 hn)
  · obtain ⟨nd, hnd⟩ := hnd
    exact ⟨nd, (hnode m).trans ((hrest m fun he => hm ((hiff m).2 he)).trans hnd)⟩

/-- A descriptor gets a pipe. -/
theorem Holding.setPipe (h : σ.Holding procs) (hp : process ∈ procs) (hfd : fd < maxProcFds) (pipe : Option ℕ) :
    (σ.setFd process fd { (σ.process process).fds fd with pipe := pipe }).Holding procs := by
  refine h.change hp h.sound.carries (fun q _ hq => process_setProcess_of_ne hq _) (fun t ht => ?_) fun m => ?_
  · unfold setFd at ht
    rw [process_setProcess] at ht
    exact ht
  · have hrefs := refs_update (σ.process process) hfd { (σ.process process).fds fd with pipe := pipe } m
    unfold setFd
    rw [process_setProcess, vfs_setProcess]
    dsimp only at hrefs ⊢
    omega

/-- **`sys_pipe`** closes nothing. -/
theorem Holding.sysPipe {o : Option (ℕ × ℕ)} (h : σ.Holding procs) (hp : process ∈ procs)
    (hrun : σ.sysPipe process args = some (o, σ')) : σ'.Holding procs ∧ Frees (Closes σ (.sysPipe process args)) σ σ' := by
  have hnone : ∀ n, ¬ Closes σ (.sysPipe process args) n := fun n hn => nomatch hn
  have hidle : σ.Holding procs ∧ Frees (Closes σ (.sysPipe process args)) σ σ :=
    ⟨h, frees_of_node? hnone fun _ => rfl⟩
  unfold Kernel.sysPipe at hrun
  by_cases hzero : args.a1 = 0
  · rw [if_pos hzero] at hrun
    obtain ⟨-, rfl⟩ := Prod.mk.inj (Option.some.inj hrun)
    exact hidle
  rw [if_neg hzero] at hrun
  by_cases hargs : args.a2 ≠ 0 ∨ args.a3 ≠ 0 ∨ args.a4 ≠ 0 ∨ args.a5 ≠ 0
  · rw [if_pos hargs] at hrun
    obtain ⟨-, rfl⟩ := Prod.mk.inj (Option.some.inj hrun)
    exact hidle
  rw [if_neg hargs] at hrun
  obtain ⟨hc, hnode, hplain⟩ := h.sound.kmalloc
  have hmalloc : ({ σ with vfs := (σ.vfs.kmalloc .text).2 } : Kernel).Holding procs :=
    h.carry hc (fun _ _ => rfl) hnode
  unfold Kernel.kmalloc at hrun
  rcases hptr : (σ.vfs.kmalloc .text).1 with - | pipe
  · rw [hptr] at hrun
    obtain ⟨-, rfl⟩ := Prod.mk.inj (Option.some.inj hrun)
    exact ⟨hmalloc, frees_of_node? hnone hnode⟩
  rw [hptr] at hrun
  dsimp only at hrun
  split at hrun
  · next readFd writeFd rest hfree =>
    obtain ⟨-, rfl⟩ := Prod.mk.inj (Option.some.inj hrun)
    have hmem : ∀ fd ∈ freeFds (σ.process process), fd < maxProcFds := fun fd hfd =>
      List.mem_range.1 (List.mem_filter.1 hfd).1
    rw [hfree] at hmem
    have hpipe : ({ σ with
        vfs := (σ.vfs.kmalloc .text).2
        pipe := Function.update σ.pipe pipe (pipeInit (σ.pipe pipe).data) } : Kernel).Holding procs :=
      hmalloc.carry hc.sound.carries (fun _ _ => rfl) fun _ => rfl
    exact ⟨(hpipe.setPipe hp (hmem readFd (by simp)) (some pipe)).setPipe hp (hmem writeFd (by simp)) (some pipe),
      frees_of_node? hnone hnode⟩
  · obtain ⟨σ₁, hfree, he⟩ := Option.map_eq_some_iff.1 hrun
    obtain ⟨-, rfl⟩ := Prod.mk.inj he
    obtain ⟨hc', hprocess, hnode', -⟩ := kfree_carries (σ := { σ with
        vfs := (σ.vfs.kmalloc .text).2
        pipe := Function.update σ.pipe pipe (pipeInit (σ.pipe pipe).data) }) hc.sound
      (fun t ht => hplain t (hptr.trans ht)) hfree
    exact ⟨h.carry (hc.trans hc') (fun _ _ => by rw [hprocess]) fun m => (hnode' m).trans (hnode m),
      frees_of_node? hnone fun m => (hnode' m).trans (hnode m)⟩

/-! ### Forks -/

/-- There is memory for the name, and the counts have room. -/
structure Affordable (parent : ℕ) (σ : Kernel) : Prop where
  name : σ.vfs.grant (σ.vfs.fresh + 2) = true
  room : ∀ n, refs (σ.process parent) n ≠ 0 → σ.vfs.nodeCount n + refs (σ.process parent) n < 2 ^ 32

/-- A child that has a list of threads and no directory and name leaves no object behind. -/
theorem procForkFailed_early (hb : σ.Bounded)
    (h : σ₁.procForkFailedChildDataStructures σ.vfs.fresh = some σ') (hvfs : σ₁.vfs = σ.allocated.vfs)
    (hcwd : (σ₁.process σ.vfs.fresh).cwd = none) (hname : (σ₁.process σ.vfs.fresh).name = none)
    (hthreads : (σ₁.process σ.vfs.fresh).threads = some (σ.vfs.fresh + 1)) :
    σ'.vfs = { σ.allocated.vfs with heap := σ.vfs.heap } ∧ σ'.process = σ₁.process := by
  obtain ⟨σ₄, hrelease, hlast⟩ := Option.bind_eq_some_iff.1 h
  unfold procRelease at hrelease
  rw [hcwd] at hrelease
  obtain ⟨σ₂, hdestroy, hrest⟩ := Option.bind_eq_some_iff.1 (show (Kernel.vmmRegionDestroy _ _).bind _ = _ from hrelease)
  obtain ⟨hvfs₂, hprocess₂⟩ := vfs_vmmRegionDestroy hdestroy
  rw [hprocess₂, hname] at hrest
  have hfree : σ₂.kfree (σ₂.process σ.vfs.fresh).threads = some σ₄ := hrest
  rw [hprocess₂, hthreads] at hfree
  rw [kfree_some hlast, kfree_some hfree]
  refine ⟨?_, hprocess₂⟩
  rw [hvfs₂, hvfs]
  exact congrArg (fun heap => { σ.allocated.vfs with heap := heap }) (heap_released hb)

/-- An object after a fork: an old one, which may be counted, or a new one for text. -/
theorem Forked.object {parent : ℕ} (h : Forked parent σ σ') (hb : σ.Bounded) (n : ℕ) :
    σ'.vfs.heap n = (σ.vfs.heap n).map (KObject.counted (refs (σ.process parent) n)) ∨
      σ.vfs.heap n = none ∧ σ'.vfs.heap n = some .text := by
  rcases Nat.lt_or_ge n σ.vfs.fresh with hlt | hge
  · exact .inl (h.heap n hlt)
  · rw [hb n hge]
    rcases Nat.lt_or_ge n (σ.vfs.fresh + 3) with hlt | hfar
    · exact .inr ⟨rfl, h.texts n hge hlt⟩
    · exact .inl (h.bounded n (by rw [h.fresh]; exact hfar))

theorem Forked.node?_eq {parent : ℕ} (h : Forked parent σ σ') (hb : σ.Bounded) (n : ℕ) :
    σ'.vfs.node? n = (σ.vfs.node? n).map fun nd =>
      { nd with refcount := incs (refs (σ.process parent) n) nd.refcount } := by
  unfold Vfs.node?
  rcases h.object hb n with hold | ⟨hnone, htext⟩
  · rw [hold]
    rcases σ.vfs.heap n with - | o
    · rfl
    · cases o <;> rfl
  · rw [hnone, htext]
    rfl

theorem Forked.sound {parent : ℕ} (h : Forked parent σ σ') (hσ : σ.vfs.Sound) : σ'.vfs.Sound := by
  obtain ⟨opens, ms, hinv⟩ := hσ
  refine ⟨opens, ms, hinv.of_view h.step (fun i mp => ?_) (fun i => ?_) h.bounded⟩
  · rcases h.object hinv.bound i with hold | ⟨hnone, htext⟩
    · rw [hold]
      rcases σ.vfs.heap i with - | o
      · simp
      · cases o <;> simp [KObject.counted]
    · simp [hnone, htext]
  · rcases h.object hinv.bound i with hold | ⟨hnone, htext⟩
    · rw [hold]
      rcases σ.vfs.heap i with - | o
      · rfl
      · cases o <;> rfl
    · rw [hnone, htext]
      rfl

/-- The processes after a fork. -/
def family (parent : ℕ) (r : ℤ) (σ : Kernel) (procs : List ℕ) : List ℕ :=
  if r < 0 then procs else (σ.process parent).children.toList ++ procs

/-- **A fork that succeeds** counts what the child refers to. -/
theorem Holding.forked (h : σ.Holding procs) (hp : process ∈ procs) (hroom : ∀ n, refs (σ.process process) n ≠ 0 →
    σ.vfs.nodeCount n + refs (σ.process process) n < 2 ^ 32) (hforked : Forked process σ σ') :
    σ'.Holding (σ.vfs.fresh :: procs) := by
  obtain ⟨opens, ms, hinv⟩ := h.sound
  have hb : σ.Bounded := hinv.bound
  have hnew : σ.vfs.fresh ∉ procs := fun hin => Nat.lt_irrefl _ (h.old _ hin)
  have hrefs : ∀ q ∈ procs, refs (σ'.process q) = refs (σ.process q) := fun q hq => by
    rcases eq_or_ne q process with rfl | hne
    · rw [hforked.same]
      rfl
    · rw [hforked.other q (ne_of_mem_of_not_mem hq hnew) hne]
  have howned : ∀ q ∈ procs, ∀ t, Owns (σ'.process q) t → Owns (σ.process q) t := fun q hq t ht => by
    rcases eq_or_ne q process with rfl | hne
    · rw [hforked.same] at ht
      exact ht
    · rwa [hforked.other q (ne_of_mem_of_not_mem hq hnew) hne] at ht
  constructor
  case sound => exact hforked.sound h.sound
  case nodup => exact List.nodup_cons.2 ⟨hnew, h.nodup⟩
  case old =>
    intro q hq
    rw [hforked.fresh]
    rcases List.mem_cons.1 hq with rfl | hin
    · omega
    · exact Nat.lt_of_lt_of_le (h.old q hin) (by omega)
  case owned =>
    intro q hq t ht
    rcases List.mem_cons.1 hq with rfl | hin
    · have hrange : σ.vfs.fresh ≤ t ∧ t < σ.vfs.fresh + 3 := by
        rcases ht with ht | ht
        · rw [hforked.threads] at ht
          obtain rfl := Option.some.inj ht
          omega
        · rw [hforked.name] at ht
          obtain rfl := Option.some.inj ht
          omega
      refine ⟨by rw [hforked.fresh]; exact hrange.2, fun o ho => ?_⟩
      exact (Option.some.inj ((hforked.texts t hrange.1 hrange.2).symm.trans ho)).symm
    · obtain ⟨hlt, hplain⟩ := h.owned q hin t (howned q hin t ht)
      refine ⟨by rw [hforked.fresh]; omega, fun o ho => ?_⟩
      rw [hforked.heap t hlt] at ho
      obtain ⟨o', ho', rfl⟩ := Option.map_eq_some_iff.1 ho
      rw [hplain o' ho']
      rfl
  case count =>
    intro n
    have hbefore := h.count n
    have hsame : total procs (fun q => refs (σ'.process q)) n = holders procs σ n :=
      total_congr fun q hq => congrFun (hrefs q hq) n
    rw [holders, total_cons, hsame, ← hbefore, hforked.refs_child]
    unfold Vfs.nodeCount
    rw [hforked.node?_eq hb n]
    rcases hnd : σ.vfs.node? n with - | nd
    · have hzero : refs (σ.process process) n = 0 := by
        by_contra hne
        exact h.counted hp hne (Vfs.nodeCount_of_none hnd)
      rw [hzero]
      rfl
    · have hcount : σ.vfs.nodeCount n = nd.refcount := Vfs.nodeCount_of_node (Vfs.node?_eq_some.1 hnd)
      refine ((incs_eq_add_iff _ _).2 ?_).trans (Nat.add_comm _ _)
      by_cases hzero : refs (σ.process process) n = 0
      · exact .inl hzero
      · exact .inr (hcount ▸ ⟨h.counted hp hzero, hroom n hzero⟩)

/-- **`proc_fork`** that does not fail when it has begun to count. -/
theorem Holding.procFork (h : σ.Holding procs) (hp : process ∈ procs)
    (hafford : σ.CountsFiles process → σ.Affordable process) (hrun : σ.procFork process = some (r, σ')) :
    σ'.Holding (family process r σ' procs) ∧ Frees (Closes σ (.procFork process)) σ σ' := by
  obtain ⟨opens, ms, hinv⟩ := h.sound
  have hb : σ.Bounded := hinv.bound
  have hnone : ∀ n, ¬ Closes σ (.procFork process) n := fun n hn => nomatch hn
  have hold : ∀ q ∈ procs, q ≠ σ.vfs.fresh := fun q hq => Nat.ne_of_lt (h.old q hq)
  -- the heap is as before, and only the child has changed
  have hfailed : ∀ {τ : Kernel} {k : ℕ}, Vfs.HeapStep σ.vfs τ.vfs σ.vfs.heap k →
      (∀ q, q ≠ σ.vfs.fresh → τ.process q = σ.process q) →
        τ.Holding (family process (-1) τ procs) ∧ Frees (Closes σ (.procFork process)) σ τ := fun {τ k} hs hprocess => by
    have hnode : ∀ m, τ.vfs.node? m = σ.vfs.node? m := fun m => by
      unfold Vfs.node?
      rw [hs.heap]
    refine ⟨?_, frees_of_node? hnone hnode⟩
    rw [family, if_pos (by decide)]
    refine h.carry ⟨⟨opens, ms, hinv.idle hs⟩, by rw [hs.fresh]; omega, fun t ht => ?_⟩
      (fun q hq => hprocess q (hold q hq)) hnode
    exact ht.of_heap (by rw [hs.fresh]; omega) (.inl (by rw [hs.heap]))
  cases procFork_ends hb hrun with
  | noProcess k _ => exact hfailed (k := k) ⟨rfl, rfl, rfl, rfl, rfl, rfl⟩ fun _ _ => rfl
  | noMap vmm _ hgrant _ hrelease =>
    obtain rfl := procForkFailed_allocated hb hrelease
    exact hfailed (k := 2) ⟨rfl, rfl, rfl, rfl, rfl, rfl⟩ fun q hq => process_allocated_of_ne hq
  | noCwd q s vmm _ hgrant hregion hcopy hcwd hrelease =>
    have hchild : (σ.mapped process s vmm).process σ.vfs.fresh = _ := process_mapped
    obtain ⟨hvfs, hprocess⟩ := procForkFailed_early hb hrelease rfl (by rw [hchild]; rfl)
      (by rw [hchild]; rfl) (by rw [hchild]; rfl)
    refine hfailed (k := 2) ?_ fun q hq => ?_
    · rw [hvfs]
      exact ⟨rfl, rfl, rfl, rfl, rfl, rfl⟩
    · rw [hprocess]
      exact process_mapped_of_ne hq
  | noName q s c vmm _ hgrant hregion hcopy hcwd hname _ =>
    have hafforded := hafford ⟨hgrant, ⟨q, s, vmm, hregion, hcopy⟩, by rw [hcwd]; simp⟩
    exact absurd (hname.symm.trans hafforded.name) (by decide)
  | forked _ hcounts hforked =>
    refine ⟨?_, fun n hn => absurd hn (hnone n), fun m _ hnd => ?_⟩
    · rw [family, if_neg (by omega), hforked.same]
      exact h.forked hp (hafford hcounts).room hforked
    · obtain ⟨nd, hnd⟩ := hnd
      rw [hforked.node?_eq hb, hnd]
      exact ⟨_, rfl⟩

end Kernel

end Flopperating
