/-
# What the steps of a fork do

Copying descriptors counts the nodes that they refer to, and does nothing else but fill the
table of the child (`procCopyFds_eq`): no node is ever taken for a pipe, so this step cannot
fail, and neither can the one that gives the child its number.  That leaves five ends for
`proc_fork` (`ForkEnd`).
-/

import Flopperating.Sys.Files
import Flopperating.Fs.VfsInvariant

namespace Flopperating

/-! ### Objects that are given back -/

namespace Vfs

variable {σ σ' σ₁ : Vfs} {i m n : ℕ} {mp : VfsMountpoint} {e : ℤ}

/-- Nothing is there that was not there before, and what `kmalloc` gives next is the same. -/
structure Shrinks (σ σ' : Vfs) : Prop where
  heap : ∀ m, σ.heap m = none → σ'.heap m = none
  fresh : σ'.fresh = σ.fresh
  grant : σ'.grant = σ.grant

theorem Shrinks.refl (σ : Vfs) : Shrinks σ σ := ⟨fun _ h => h, rfl, rfl⟩

theorem Shrinks.trans (h : Shrinks σ σ₁) (h' : Shrinks σ₁ σ') : Shrinks σ σ' :=
  ⟨fun m hm => h'.heap m (h.heap m hm), h'.fresh.trans h.fresh, h'.grant.trans h.grant⟩

theorem kfree_eq (h : σ.kfree i = some σ') :
    (σ.heap i).isSome ∧ σ' = { σ with heap := Function.update σ.heap i none } := by
  unfold kfree at h
  split at h
  · next hlive => exact ⟨hlive, (Option.some.inj h).symm⟩
  · exact absurd h (by simp)

theorem kfree_gone (h : σ.kfree i = some σ') : σ'.heap i = none := by
  rw [(kfree_eq h).2]
  exact Function.update_self ..

theorem kfree_shrinks (h : σ.kfree i = some σ') : Shrinks σ σ' := by
  obtain ⟨-, rfl⟩ := kfree_eq h
  refine ⟨fun m hm => ?_, rfl, rfl⟩
  change Function.update σ.heap i none m = none
  rcases eq_or_ne m i with rfl | hne
  · exact Function.update_self ..
  · rw [Function.update_of_ne hne, hm]

theorem setMp_shrinks (h : σ.mp? i = some mp) (mp' : VfsMountpoint) : Shrinks σ (σ.setMp i mp') := by
  refine ⟨fun m hm => ?_, rfl, rfl⟩
  have hne : m ≠ i := fun he => by
    rw [← he, mp?_eq_some, hm] at h
    exact absurd h (by simp)
  exact (Function.update_of_ne hne _ _).trans hm

theorem vfsFreeMountpoint_shrinks (h : σ.vfsFreeMountpoint i = some σ') : Shrinks σ σ' := by
  obtain ⟨mp, -, h⟩ := Option.bind_eq_some_iff.1 h
  obtain ⟨σ₁, h₁, h⟩ := Option.bind_eq_some_iff.1 h
  obtain ⟨σ₂, h₂, h₃⟩ := Option.bind_eq_some_iff.1 h
  exact ((kfree_shrinks h₁).trans (kfree_shrinks h₂)).trans (kfree_shrinks h₃)

theorem mpPut_shrinks (h : σ.mpPut i = some σ') : Shrinks σ σ' := by
  obtain ⟨mp, hmp, h⟩ := Option.bind_eq_some_iff.1 h
  have hset := setMp_shrinks hmp { mp with refcount := (refcountDecAndTest mp.refcount).2 }
  dsimp only at h
  split at h
  · exact hset.trans (vfsFreeMountpoint_shrinks h)
  · rw [← Option.some.inj h]
    exact hset

/-- **`vfs_close`** frees the node, whoever else holds it. -/
theorem vfsClose_frees (h : σ.vfsClose n = some (e, σ')) : σ'.heap n = none ∧ Shrinks σ σ' := by
  obtain ⟨⟨e', σ₁⟩, hnode, he⟩ := Option.map_eq_some_iff.1 h
  obtain ⟨-, rfl⟩ := Prod.mk.inj he
  obtain ⟨nd, -, h⟩ := Option.bind_eq_some_iff.1 hnode
  obtain ⟨mp, -, h⟩ := Option.bind_eq_some_iff.1 h
  have hcall : ∃ σ₀ : Vfs, Shrinks σ σ₀ ∧ ∃ err, ((σ₀.mpPut nd.mountpoint).bind fun σ =>
      (σ.kfree n).map fun σ => (err, σ)) = some (e', σ₁) := by
    rcases hclose : mp.filesystem.opTable.opClose with - | close
    · rw [hclose] at h
      exact ⟨σ, .refl σ, _, h⟩
    · rw [hclose] at h
      exact ⟨σ.tick, ⟨fun _ hm => hm, rfl, rfl⟩, _, h⟩
  obtain ⟨σ₀, hs₀, err, h⟩ := hcall
  obtain ⟨σ₂, hput, h⟩ := Option.bind_eq_some_iff.1 h
  obtain ⟨σ₃, hfree, h⟩ := Option.map_eq_some_iff.1 h
  obtain ⟨-, rfl⟩ := Prod.mk.inj h
  exact ⟨kfree_gone hfree, (hs₀.trans (mpPut_shrinks hput)).trans (kfree_shrinks hfree)⟩

end Vfs

/-! ### Counts -/

/-- A count after `k` times `refcount_inc_not_zero`. -/
def incs (k c : ℕ) : ℕ := (fun c => (refcountIncNotZero c).2)^[k] c

@[simp] theorem incs_zero (c : ℕ) : incs 0 c = c := rfl

theorem incs_add (j k c : ℕ) : incs (j + k) c = incs j (incs k c) := Function.iterate_add_apply ..

theorem incs_succ (k c : ℕ) : incs (k + 1) c = (refcountIncNotZero (incs k c)).2 := Function.iterate_succ_apply' ..

theorem refcountIncNotZero_lt (c : ℕ) : (refcountIncNotZero c).2 < 2 ^ 32 := by
  unfold refcountIncNotZero
  split
  · decide
  · exact u32_lt _

/-- **The count goes up with the references** exactly when there was one and there is room
for all. -/
theorem incs_eq_add_iff (k c : ℕ) : incs k c = c + k ↔ k = 0 ∨ c ≠ 0 ∧ c + k < 2 ^ 32 := by
  induction k with
  | zero => exact iff_of_true rfl (.inl rfl)
  | succ k ih =>
    rw [incs_succ]
    constructor
    · intro h
      have hlt := refcountIncNotZero_lt (incs k c)
      refine .inr ⟨?_, by omega⟩
      rintro rfl
      have hzero : ∀ j, incs j 0 = 0 := fun j => Function.iterate_fixed rfl j
      rw [hzero] at h
      exact absurd h (by simp [refcountIncNotZero])
    · rintro (h | ⟨hpos, hroom⟩)
      · exact absurd h (Nat.succ_ne_zero k)
      · rw [ih.2 (.inr ⟨hpos, by omega⟩), refcountIncNotZero, if_neg (by omega)]
        exact u32_of_lt hroom

/-- The object, if it is a node, is counted `k` times more. -/
def KObject.counted (k : ℕ) : KObject → KObject
  | node nd => node { nd with refcount := incs k nd.refcount }
  | o => o

theorem KObject.counted_zero : KObject.counted 0 = id := by
  funext o
  cases o <;> rfl

theorem KObject.counted_add (j k : ℕ) (o : KObject) : (o.counted k).counted j = o.counted (k + j) := by
  cases o with
  | node nd =>
    rw [Nat.add_comm]
    exact congrArg (fun c => node { nd with refcount := c }) (incs_add j k nd.refcount).symm
  | mountpoint => rfl
  | text => rfl

namespace Kernel

variable {σ σ' σ₁ σ₂ σ₃ σ₄ : Kernel} {i k m n child parent dest src : ℕ} {r status : ℤ} {nd : VfsNode}

/-- Every node `m` is counted `refs m` times more. -/
def countNodes (refs : ℕ → ℕ) (σ : Kernel) : Kernel :=
  { σ with vfs := { σ.vfs with heap := fun m => (σ.vfs.heap m).map (KObject.counted (refs m)) } }

@[simp] theorem heap_countNodes (refs : ℕ → ℕ) (σ : Kernel) (m : ℕ) :
    (σ.countNodes refs).vfs.heap m = (σ.vfs.heap m).map (KObject.counted (refs m)) := rfl

@[simp] theorem process_countNodes (refs : ℕ → ℕ) (σ : Kernel) : (σ.countNodes refs).process = σ.process := rfl

theorem countNodes_zero (σ : Kernel) : σ.countNodes (fun _ => 0) = σ := by
  unfold countNodes
  simp only [KObject.counted_zero, Option.map_id, id]

theorem countNodes_countNodes (refs refs' : ℕ → ℕ) (σ : Kernel) :
    (σ.countNodes refs).countNodes refs' = σ.countNodes fun m => refs m + refs' m := by
  have hheap : (fun m => ((σ.vfs.heap m).map (KObject.counted (refs m))).map (KObject.counted (refs' m))) =
      fun m => (σ.vfs.heap m).map (KObject.counted (refs m + refs' m)) := by
    funext m
    rw [Option.map_map]
    exact congrArg (fun f => (σ.vfs.heap m).map f) (funext (KObject.counted_add _ _))
  unfold countNodes
  rw [← hheap]

theorem nodeInc_eq (h : σ.nodeInc n = some σ') :
    (∃ nd, σ.vfs.node? n = some nd) ∧ σ' = σ.countNodes fun m => if m = n then 1 else 0 := by
  obtain ⟨nd, hnd, rfl⟩ := Option.map_eq_some_iff.1 h
  refine ⟨⟨nd, hnd⟩, ?_⟩
  have hheap : Function.update σ.vfs.heap n
        (some (.node { nd with refcount := (refcountIncNotZero nd.refcount).2 })) =
      fun m => (σ.vfs.heap m).map (KObject.counted (if m = n then 1 else 0)) := by
    funext m
    rcases eq_or_ne m n with rfl | hne
    · rw [Function.update_self, Vfs.node?_eq_some.1 hnd, if_pos rfl]
      rfl
    · rw [Function.update_of_ne hne, if_neg hne, KObject.counted_zero, Option.map_id, id]
  unfold Vfs.setNode countNodes
  rw [hheap]

/-! ### Descriptors -/

theorem nodeIsPipe_eq (n : ℕ) : nodeIsPipe n = false := by
  unfold nodeIsPipe u32 pipeDataOffset
  rw [decide_eq_false_iff_not]
  omega

@[simp] theorem process_setProcess (p : Process) : (σ.setProcess i p).process i = p := Function.update_self ..

theorem process_setProcess_of_ne (hne : m ≠ i) (p : Process) : (σ.setProcess i p).process m = σ.process m :=
  Function.update_of_ne hne ..

@[simp] theorem vfs_setProcess (p : Process) : (σ.setProcess i p).vfs = σ.vfs := rfl

@[simp] theorem setProcess_setProcess (p q : Process) : (σ.setProcess i p).setProcess i q = σ.setProcess i q := by
  unfold setProcess
  simp only [Function.update_idem]

theorem setProcess_self : σ.setProcess i (σ.process i) = σ := by
  unfold setProcess
  rw [Function.update_eq_self]

theorem process_vfsClose {node : Option ℕ} {e : ℤ} (h : σ.vfsClose node = some (e, σ')) :
    σ'.process = σ.process := by
  rcases node with - | n
  · obtain ⟨-, rfl⟩ := Prod.mk.inj (Option.some.inj h)
    rfl
  · obtain ⟨o, -, he⟩ := Option.map_eq_some_iff.1 h
    obtain ⟨-, rfl⟩ := Prod.mk.inj he
    rfl

theorem process_vmmRegionDestroy {region : Option ℕ} (h : σ.vmmRegionDestroy region = some σ') :
    σ'.process = σ.process := by
  rcases region with - | r
  · rw [← Option.some.inj h]
  · obtain ⟨vmm, -, rfl⟩ := Option.map_eq_some_iff.1 h
    rfl

theorem process_kfree {ptr : Option ℕ} (h : σ.kfree ptr = some σ') : σ'.process = σ.process := by
  rcases ptr with - | p
  · rw [← Option.some.inj h]
  · obtain ⟨vfs, -, rfl⟩ := Option.map_eq_some_iff.1 h
    rfl

theorem process_procRelease (h : σ.procRelease i = some σ') : σ'.process = σ.process := by
  obtain ⟨⟨e, σ₁⟩, hclose, h⟩ := Option.bind_eq_some_iff.1 h
  obtain ⟨σ₂, hregion, h⟩ := Option.bind_eq_some_iff.1 h
  obtain ⟨σ₃, hname, hthreads⟩ := Option.bind_eq_some_iff.1 h
  rw [process_kfree hthreads, process_kfree hname, process_vmmRegionDestroy hregion, process_vfsClose hclose]

/-- How many of the descriptors from `i` on, among `k`, refer to the node. -/
def fdRefsFrom (p : Process) (i k n : ℕ) : ℕ := (List.range' i k).countP fun fd => (p.fds fd).node = some n

/-- The table after the descriptors from `i` on, `k` of them, have been copied. -/
def copiedFds (i k : ℕ) (p q : Process) : Process :=
  { p with fds := fun fd => if i ≤ fd ∧ fd < i + k then q.fds fd else p.fds fd }

theorem copiedFds_zero (i : ℕ) (p q : Process) : copiedFds i 0 p q = p := by
  unfold copiedFds
  have hfds : (fun fd => if i ≤ fd ∧ fd < i + 0 then q.fds fd else p.fds fd) = p.fds := by
    funext fd
    exact if_neg (by omega)
  rw [hfds]

theorem copiedFds_succ (i k : ℕ) (p q : Process) :
    copiedFds (i + 1) k { p with fds := Function.update p.fds i (q.fds i) } q = copiedFds i (k + 1) p q := by
  unfold copiedFds
  refine congrArg (fun fds => { p with fds := fds }) ?_
  funext fd
  rcases eq_or_ne fd i with rfl | hne
  · rw [if_neg (by omega), if_pos (by omega)]
    exact Function.update_self ..
  · by_cases hfd : i + 1 ≤ fd ∧ fd < i + 1 + k
    · rw [if_pos hfd, if_pos (by omega)]
    · rw [if_neg hfd, if_neg (by omega)]
      exact Function.update_of_ne hne ..

/-- **The loop of `proc_copy_fds`.** -/
theorem procCopyFdsFrom_eq (hne : dest ≠ src) (h : procCopyFdsFrom dest src k i σ = some (status, σ')) :
    status = 0 ∧ σ' = (σ.setProcess dest (copiedFds i k (σ.process dest) (σ.process src))).countNodes
      (fdRefsFrom (σ.process src) i k) := by
  induction k generalizing i σ with
  | zero =>
    obtain ⟨rfl, rfl⟩ := Prod.mk.inj (Option.some.inj h)
    refine ⟨rfl, ?_⟩
    rw [copiedFds_zero, setProcess_self]
    exact (countNodes_zero σ).symm
  | succ k ih =>
    have hsrc : (σ.setFd dest i ((σ.process src).fds i)).process src = σ.process src :=
      process_setProcess_of_ne hne.symm _
    have hdest : (σ.setFd dest i ((σ.process src).fds i)).process dest =
        { σ.process dest with fds := Function.update (σ.process dest).fds i ((σ.process src).fds i) } :=
      process_setProcess _
    have hrefs : ∀ n, fdRefsFrom (σ.process src) i (k + 1) n =
        (if ((σ.process src).fds i).node = some n then 1 else 0) + fdRefsFrom (σ.process src) (i + 1) k n := fun n => by
      rw [fdRefsFrom, List.range'_succ, List.countP_cons, Nat.add_comm, fdRefsFrom]
      simp only [decide_eq_true_eq]
    have hset : (σ.setFd dest i ((σ.process src).fds i)).setProcess dest (copiedFds (i + 1) k
          ((σ.setFd dest i ((σ.process src).fds i)).process dest) (σ.process src)) =
        σ.setProcess dest (copiedFds i (k + 1) (σ.process dest) (σ.process src)) := by
      rw [hdest, copiedFds_succ]
      exact setProcess_setProcess _ _
    rw [procCopyFdsFrom] at h
    dsimp only at h
    rcases hnode : ((σ.process src).fds i).node with - | n
    · rw [hnode] at h
      obtain ⟨hstatus, rfl⟩ := ih h
      refine ⟨hstatus, ?_⟩
      rw [hsrc, hset]
      refine congrArg (countNodes · _) (funext fun m => ?_)
      rw [hrefs, hnode, if_neg (by simp), Nat.zero_add]
    · rw [hnode] at h
      dsimp only at h
      rw [nodeIsPipe_eq, if_neg (by decide)] at h
      obtain ⟨σ₁, hinc, h⟩ := Option.bind_eq_some_iff.1 h
      obtain ⟨-, rfl⟩ := nodeInc_eq hinc
      obtain ⟨hstatus, rfl⟩ := ih h
      refine ⟨hstatus, ?_⟩
      rw [process_countNodes, hsrc, ← hset]
      refine (countNodes_countNodes (fun m => if m = n then 1 else 0) _ (σ.setFd dest i _ |>.setProcess dest _)).trans
        (congrArg (countNodes · _) (funext fun m => ?_))
      rw [hrefs, hnode]
      simp only [Option.some.injEq, eq_comm]

theorem node?_countNodes {refs : ℕ → ℕ} : (∃ nd, (σ.countNodes refs).vfs.node? n = some nd) ↔
    ∃ nd, σ.vfs.node? n = some nd := by
  simp only [Vfs.node?_eq_some, heap_countNodes, Option.map_eq_some_iff]
  constructor
  · rintro ⟨nd, o, ho, hnd⟩
    cases o with
    | node nd' => exact ⟨nd', ho⟩
    | mountpoint mp => exact absurd hnd (by simp [KObject.counted])
    | text => exact absurd hnd (by simp [KObject.counted])
  · rintro ⟨nd, hnd⟩
    exact ⟨_, _, hnd, rfl⟩

/-- The nodes of the descriptors are there. -/
theorem procCopyFdsFrom_nodes (hne : dest ≠ src) (h : procCopyFdsFrom dest src k i σ = some (status, σ')) :
    ∀ fd, i ≤ fd → fd < i + k → ∀ n, ((σ.process src).fds fd).node = some n → ∃ nd, σ.vfs.node? n = some nd := by
  induction k generalizing i σ with
  | zero => exact fun fd hle hlt => absurd hlt (by omega)
  | succ k ih =>
    intro fd hle hlt n hn
    have hsrc : (σ.setFd dest i ((σ.process src).fds i)).process src = σ.process src :=
      process_setProcess_of_ne hne.symm _
    rw [procCopyFdsFrom] at h
    dsimp only at h
    rcases hnode : ((σ.process src).fds i).node with - | m
    · rw [hnode] at h
      have hfd : fd ≠ i := by
        rintro rfl
        exact absurd (hnode.symm.trans hn) (by simp)
      exact ih h fd (by omega) (by omega) n (by rw [hsrc]; exact hn)
    · rw [hnode] at h
      dsimp only at h
      rw [nodeIsPipe_eq, if_neg (by decide)] at h
      obtain ⟨σ₁, hinc, hrest⟩ := Option.bind_eq_some_iff.1 h
      obtain ⟨hnd, rfl⟩ := nodeInc_eq hinc
      rcases eq_or_ne fd i with rfl | hfd
      · obtain rfl := Option.some.inj (hnode.symm.trans hn)
        exact hnd
      · exact node?_countNodes.1 (ih hrest fd (by omega) (by omega) n (by rw [process_countNodes, hsrc]; exact hn))

/-! ### A new process -/

/-- `kmalloc` has not used any number from `fresh` on. -/
def Bounded (σ : Kernel) : Prop := ∀ i, σ.vfs.fresh ≤ i → σ.vfs.heap i = none

theorem Bounded.lt_fresh (h : σ.Bounded) (hi : σ.Live i) : i < σ.vfs.fresh := by
  by_contra hge
  unfold Live at hi
  rw [h i (Nat.not_lt.1 hge)] at hi
  exact absurd hi (by simp)

/-- `kmalloc` has been asked for another object, and has none. -/
def refused (σ : Kernel) : Kernel := { σ with vfs := { σ.vfs with fresh := σ.vfs.fresh + 1 } }

/-- `kmalloc` has given the next object. -/
def granted (σ : Kernel) : Kernel :=
  { σ with vfs := { σ.vfs with
      heap := Function.update σ.vfs.heap σ.vfs.fresh (some .text)
      fresh := σ.vfs.fresh + 1 } }

theorem kmalloc_eq (σ : Kernel) :
    σ.kmalloc = if σ.vfs.grant σ.vfs.fresh then (some σ.vfs.fresh, σ.granted) else (none, σ.refused) := by
  unfold kmalloc Vfs.kmalloc
  split <;> rfl

theorem heap_granted (hne : m ≠ σ.vfs.fresh) : σ.granted.vfs.heap m = σ.vfs.heap m := Function.update_of_ne hne ..

theorem live_granted : σ.granted.vfs.heap σ.vfs.fresh = some .text := Function.update_self ..

theorem kfree_some (h : σ.kfree (some i) = some σ') :
    σ' = { σ with vfs := { σ.vfs with heap := Function.update σ.vfs.heap i none } } := by
  obtain ⟨vfs, hfree, rfl⟩ := Option.map_eq_some_iff.1 h
  rw [(Vfs.kfree_eq hfree).2]

/-- `proc_alloc` has returned a process. -/
def allocated (σ : Kernel) : Kernel := σ.granted.granted.setProcess σ.vfs.fresh (newProcess (σ.vfs.fresh + 1))

theorem heap_allocated (hlt : m < σ.vfs.fresh) : σ.allocated.vfs.heap m = σ.vfs.heap m :=
  (heap_granted (Nat.ne_of_lt (Nat.lt_succ_of_lt hlt))).trans (heap_granted (Nat.ne_of_lt hlt))

/-- The objects that a fork needs before it copies the page map. -/
def GrantsProcess (σ : Kernel) : Prop := σ.vfs.grant σ.vfs.fresh = true ∧ σ.vfs.grant (σ.vfs.fresh + 1) = true

theorem procAlloc_cases {o : Option ℕ} (hb : σ.Bounded) (h : σ.procAlloc = some (o, σ')) :
    (¬ σ.GrantsProcess ∧ o = none ∧ ∃ k, σ' = { σ with vfs := { σ.vfs with fresh := σ.vfs.fresh + k } }) ∨
      σ.GrantsProcess ∧ o = some σ.vfs.fresh ∧ σ' = σ.allocated := by
  rw [procAlloc, kmalloc_eq] at h
  rcases hfirst : σ.vfs.grant σ.vfs.fresh with - | -
  · rw [hfirst, if_neg (by decide)] at h
    obtain ⟨rfl, rfl⟩ := Prod.mk.inj (Option.some.inj h)
    exact .inl ⟨fun hg => absurd (hfirst.symm.trans hg.1) (by decide), rfl, 1, rfl⟩
  · rw [hfirst, if_pos rfl] at h
    dsimp only at h
    rw [kmalloc_eq] at h
    have hfresh : σ.granted.vfs.fresh = σ.vfs.fresh + 1 := rfl
    have hgrant : σ.granted.vfs.grant = σ.vfs.grant := rfl
    rw [hfresh, hgrant] at h
    rcases hsecond : σ.vfs.grant (σ.vfs.fresh + 1) with - | -
    · rw [hsecond, if_neg (by decide)] at h
      obtain ⟨σ₁, hfree, he⟩ := Option.map_eq_some_iff.1 h
      obtain ⟨rfl, rfl⟩ := Prod.mk.inj he
      refine .inl ⟨fun hg => absurd (hsecond.symm.trans hg.2) (by decide), rfl, 2, ?_⟩
      rw [kfree_some hfree]
      have hheap : Function.update (Function.update σ.vfs.heap σ.vfs.fresh (some .text)) σ.vfs.fresh none =
          σ.vfs.heap := by
        rw [Function.update_idem, ← hb σ.vfs.fresh le_rfl, Function.update_eq_self]
      exact congrArg (fun heap => { σ with vfs := { σ.vfs with heap := heap, fresh := σ.vfs.fresh + 2 } }) hheap
    · rw [hsecond, if_pos rfl] at h
      obtain ⟨rfl, rfl⟩ := Prod.mk.inj (Option.some.inj h)
      exact .inr ⟨⟨hfirst, hsecond⟩, rfl, rfl⟩

/-! ### The ends of a fork -/

/-- How often the process refers to the node. -/
def refs (p : Process) (n : ℕ) : ℕ :=
  fdRefsFrom p 0 maxProcFds n + if p.cwd = some n then 1 else 0

/-- The page map has been copied. -/
def mapped (parent r : ℕ) (vmm : Vmm) (σ : Kernel) : Kernel :=
  { σ.allocated with vmm := vmm }.setProcess σ.vfs.fresh
    { newProcess (σ.vfs.fresh + 1) with region := some r, memUsage := (σ.process parent).memUsage }

/-- The child after `proc_copy_fds`. -/
def childProcess (parent : Process) (threads r : ℕ) : Process :=
  copiedFds 0 maxProcFds
    { newProcess threads with region := some r, memUsage := parent.memUsage, cwd := parent.cwd } parent

/-- The directory and the descriptors have been copied. -/
def copied (parent r : ℕ) (vmm : Vmm) (σ : Kernel) : Kernel :=
  ({ σ.allocated with vmm := vmm }.setProcess σ.vfs.fresh
    (childProcess (σ.process parent) (σ.vfs.fresh + 1) r)).countNodes (refs (σ.process parent))

/-- A fork has succeeded. -/
structure Forked (parent : ℕ) (σ σ' : Kernel) : Prop where
  heap : ∀ m, m < σ.vfs.fresh → σ'.vfs.heap m = (σ.vfs.heap m).map (KObject.counted (refs (σ.process parent) m))
  fresh : σ'.vfs.fresh = σ.vfs.fresh + 3
  bounded : σ'.Bounded
  child : σ'.Live σ.vfs.fresh
  fds : ∀ fd, (σ'.process σ.vfs.fresh).fds fd = if fd < maxProcFds then (σ.process parent).fds fd else ⟨none, none, 0⟩
  cwd : (σ'.process σ.vfs.fresh).cwd = (σ.process parent).cwd
  same : σ'.process parent = { σ.process parent with children := some σ.vfs.fresh }
  other : ∀ m, m ≠ σ.vfs.fresh → m ≠ parent → σ'.process m = σ.process m
  pipe : σ'.pipe = σ.pipe
  nodes : ∀ n, refs (σ.process parent) n ≠ 0 → ∃ nd, σ.vfs.node? n = some nd
  step : Vfs.HeapStep σ.vfs σ'.vfs σ'.vfs.heap 3
  texts : ∀ m, σ.vfs.fresh ≤ m → m < σ.vfs.fresh + 3 → σ'.vfs.heap m = some .text
  threads : (σ'.process σ.vfs.fresh).threads = some (σ.vfs.fresh + 1)
  name : (σ'.process σ.vfs.fresh).name = some (σ.vfs.fresh + 2)

/-- A fork that copies the page map of a process with a directory, and so comes to count. -/
def CountsFiles (parent : ℕ) (σ : Kernel) : Prop :=
  σ.GrantsProcess ∧ (∃ q s vmm, (σ.process parent).region = some q ∧
    Flopperating.vmmCopyPagemap q σ.vmm = some (some s, vmm)) ∧ (σ.process parent).cwd ≠ none

/-- How a fork ends. -/
inductive ForkEnd (parent : ℕ) (σ : Kernel) : ℤ → Kernel → Prop
  | noProcess (k : ℕ) : ¬ σ.GrantsProcess →
      ForkEnd parent σ (-1) { σ with vfs := { σ.vfs with fresh := σ.vfs.fresh + k } }
  | noMap (vmm : Vmm) (σ' : Kernel) : σ.GrantsProcess →
      σ.vmmCopyPagemap (σ.process parent).region = some (none, { σ with vmm := vmm }) →
      { σ.allocated with vmm := vmm }.procForkFailedChildDataStructures σ.vfs.fresh = some σ' →
      ForkEnd parent σ (-1) σ'
  | noCwd (r s : ℕ) (vmm : Vmm) (σ' : Kernel) : σ.GrantsProcess → (σ.process parent).region = some r →
      Flopperating.vmmCopyPagemap r σ.vmm = some (some s, vmm) → (σ.process parent).cwd = none →
      (σ.mapped parent s vmm).procForkFailedChildDataStructures σ.vfs.fresh = some σ' →
      ForkEnd parent σ (-1) σ'
  | noName (r s c : ℕ) (vmm : Vmm) (σ' : Kernel) : σ.GrantsProcess → (σ.process parent).region = some r →
      Flopperating.vmmCopyPagemap r σ.vmm = some (some s, vmm) → (σ.process parent).cwd = some c →
      σ.vfs.grant (σ.vfs.fresh + 2) = false →
      (σ.copied parent s vmm).refused.procForkFailedChildDataStructures σ.vfs.fresh = some σ' →
      ForkEnd parent σ (-1) σ'
  | forked (σ' : Kernel) : σ.CountsFiles parent → Forked parent σ σ' → ForkEnd parent σ σ.nextPid σ'

theorem vmmCopyPagemap_eq {o region : Option ℕ} (σ : Kernel) (h : σ₁.vmmCopyPagemap region = some (o, σ₂))
    (hvmm : σ₁.vmm = σ.vmm) :
    ∃ vmm, σ₂ = { σ₁ with vmm := vmm } ∧ σ.vmmCopyPagemap region = some (o, { σ with vmm := vmm }) := by
  unfold vmmCopyPagemap at h ⊢
  rw [hvmm] at h
  rcases region with - | r
  · dsimp only at h ⊢
    split at h
    · next hzero =>
      rw [if_pos hzero]
      obtain ⟨rfl, rfl⟩ := Prod.mk.inj (Option.some.inj h)
      exact ⟨_, rfl, rfl⟩
    · next hzero =>
      rw [if_neg hzero]
      split at h
      · obtain ⟨rfl, rfl⟩ := Prod.mk.inj (Option.some.inj h)
        exact ⟨_, rfl, rfl⟩
      · exact absurd h (by simp)
  · obtain ⟨⟨o', vmm⟩, hcopy, he⟩ := Option.map_eq_some_iff.1 h
    obtain ⟨rfl, rfl⟩ := Prod.mk.inj he
    dsimp only at hcopy ⊢
    rw [hcopy]
    exact ⟨vmm, rfl, rfl⟩

theorem vmmCopyPagemap_region {s : ℕ} {region : Option ℕ} (h : σ.vmmCopyPagemap region = some (some s, σ')) :
    ∃ r, region = some r ∧ Flopperating.vmmCopyPagemap r σ.vmm = some (some s, σ'.vmm) := by
  unfold vmmCopyPagemap at h
  rcases region with - | r
  · dsimp only at h
    split at h
    · exact absurd h (by simp)
    · split at h <;> exact absurd h (by simp)
  · obtain ⟨⟨o, vmm⟩, hcopy, he⟩ := Option.map_eq_some_iff.1 h
    obtain ⟨rfl, rfl⟩ := Prod.mk.inj he
    exact ⟨r, rfl, hcopy⟩

theorem procCwdAssign_new {c : Option ℕ} (hcwd : (σ.process i).cwd = none)
    (h : σ.procCwdAssign i c = some (status, σ')) :
    (c = none ∧ status = -1 ∧ σ' = σ) ∨ ∃ n, c = some n ∧ status = 0 ∧ (∃ nd, σ.vfs.node? n = some nd) ∧
      σ' = (σ.setProcess i { σ.process i with cwd := some n }).countNodes fun m => if m = n then 1 else 0 := by
  rcases c with - | n
  · obtain ⟨rfl, rfl⟩ := Prod.mk.inj (Option.some.inj h)
    exact .inl ⟨rfl, rfl, rfl⟩
  · unfold procCwdAssign at h
    rw [hcwd] at h
    obtain ⟨⟨e, σ₁⟩, hclose, h⟩ := Option.bind_eq_some_iff.1 h
    obtain ⟨rfl, rfl⟩ := Prod.mk.inj (Option.some.inj hclose)
    obtain ⟨σ₂, hinc, h⟩ := Option.bind_eq_some_iff.1 h
    obtain ⟨rfl, rfl⟩ := Prod.mk.inj (Option.some.inj h)
    obtain ⟨hnd, heq⟩ := nodeInc_eq hinc
    exact .inr ⟨n, rfl, rfl, hnd, heq⟩

theorem process_allocated_of_ne (hne : m ≠ σ.vfs.fresh) : σ.allocated.process m = σ.process m :=
  process_setProcess_of_ne hne _

theorem process_allocated : σ.allocated.process σ.vfs.fresh = newProcess (σ.vfs.fresh + 1) := process_setProcess _

theorem process_mapped_of_ne {vmm : Vmm} (hne : m ≠ σ.vfs.fresh) :
    (σ.mapped parent n vmm).process m = σ.process m :=
  (process_setProcess_of_ne hne _).trans (process_allocated_of_ne hne)

theorem process_mapped {vmm : Vmm} : (σ.mapped parent n vmm).process σ.vfs.fresh =
    { newProcess (σ.vfs.fresh + 1) with region := some n, memUsage := (σ.process parent).memUsage } :=
  process_setProcess _

/-- Directory and descriptors are copied one after the other. -/
theorem copied_eq {s c : ℕ} {vmm : Vmm} (hne : parent ≠ σ.vfs.fresh) (hcwd : (σ.process parent).cwd = some c)
    (h₁ : (σ.mapped parent s vmm).procCwdAssign σ.vfs.fresh (σ.process parent).cwd = some (0, σ₁))
    (h₂ : σ₁.procCopyFds σ.vfs.fresh parent = some (status, σ₂)) :
    status = 0 ∧ σ₂ = σ.copied parent s vmm := by
  have hnone : ((σ.mapped parent s vmm).process σ.vfs.fresh).cwd = none := by
    rw [process_mapped]
    rfl
  rcases procCwdAssign_new hnone h₁ with ⟨-, hstatus, -⟩ | ⟨n, hn, -, -, rfl⟩
  · exact absurd hstatus (by decide)
  obtain rfl := Option.some.inj (hcwd.symm.trans hn)
  obtain ⟨rfl, rfl⟩ := procCopyFdsFrom_eq hne.symm h₂
  refine ⟨rfl, ?_⟩
  rw [process_countNodes, process_setProcess_of_ne hne, process_mapped_of_ne hne, process_setProcess,
    process_mapped]
  refine (countNodes_countNodes (fun m => if m = c then 1 else 0) (fdRefsFrom (σ.process parent) 0 maxProcFds)
    (((σ.mapped parent s vmm).setProcess σ.vfs.fresh _).setProcess σ.vfs.fresh _)).trans ?_
  unfold copied
  have hrefs : (fun m => (if m = c then 1 else 0) + fdRefsFrom (σ.process parent) 0 maxProcFds m) =
      refs (σ.process parent) := by
    funext m
    unfold refs
    rw [hcwd, Nat.add_comm]
    simp only [Option.some.injEq, eq_comm]
  rw [hrefs, setProcess_setProcess]
  refine congrArg (countNodes (refs (σ.process parent))) ?_
  unfold mapped childProcess
  rw [setProcess_setProcess, hcwd]

theorem node?_allocated (h : ∃ nd, σ.allocated.vfs.node? n = some nd) : ∃ nd, σ.vfs.node? n = some nd := by
  obtain ⟨nd, hnd⟩ := h
  refine ⟨nd, ?_⟩
  rw [Vfs.node?_eq_some] at hnd ⊢
  have hgranted : ∀ {τ : Kernel}, τ.granted.vfs.heap n = some (.node nd) → τ.vfs.heap n = some (.node nd) := fun {τ} h => by
    rcases eq_or_ne n τ.vfs.fresh with rfl | hne
    · exact absurd (live_granted.symm.trans h) (by simp)
    · rwa [heap_granted hne] at h
  exact hgranted (hgranted hnd)

/-- What the parent refers to is there. -/
theorem copied_nodes {s : ℕ} {vmm : Vmm} (hne : parent ≠ σ.vfs.fresh)
    (h₁ : (σ.mapped parent s vmm).procCwdAssign σ.vfs.fresh (σ.process parent).cwd = some (0, σ₁))
    (h₂ : σ₁.procCopyFds σ.vfs.fresh parent = some (status, σ₂)) :
    ∀ n, refs (σ.process parent) n ≠ 0 → ∃ nd, σ.vfs.node? n = some nd := by
  intro n hrefs
  have hnone : ((σ.mapped parent s vmm).process σ.vfs.fresh).cwd = none := by
    rw [process_mapped]
    rfl
  rcases procCwdAssign_new hnone h₁ with ⟨-, hstatus, -⟩ | ⟨m, hm, -, hnd, rfl⟩
  · exact absurd hstatus (by decide)
  by_cases hdir : (σ.process parent).cwd = some n
  · obtain rfl := Option.some.inj (hm.symm.trans hdir)
    exact node?_allocated hnd
  · have hfds : fdRefsFrom (σ.process parent) 0 maxProcFds n ≠ 0 := by
      unfold refs at hrefs
      rwa [if_neg hdir, Nat.add_zero] at hrefs
    obtain ⟨fd, hfd, hnode⟩ := List.countP_pos_iff.1 (Nat.pos_of_ne_zero hfds)
    refine node?_allocated (node?_countNodes.1 (procCopyFdsFrom_nodes hne.symm h₂ fd (Nat.zero_le fd)
      (List.mem_range'_1.1 hfd).2 n ?_))
    rw [process_countNodes, process_setProcess_of_ne hne, process_mapped_of_ne hne]
    exact of_decide_eq_true hnode

theorem setProcess_eq_self {p : Process} (hp : σ.process i = p) : σ.setProcess i p = σ := by
  rw [← hp]
  exact setProcess_self

/-- Copying the page map. -/
theorem procCopyChildPagemap_cases (hne : parent ≠ σ.vfs.fresh)
    (h : σ.allocated.procCopyChildPagemap parent σ.vfs.fresh = some (status, σ')) :
    (status = -1 ∧ ∃ vmm, σ' = { σ.allocated with vmm := vmm } ∧
      σ.vmmCopyPagemap (σ.process parent).region = some (none, { σ with vmm := vmm })) ∨
    (status = 0 ∧ ∃ q s vmm, σ' = σ.mapped parent s vmm ∧ (σ.process parent).region = some q ∧
      Flopperating.vmmCopyPagemap q σ.vmm = some (some s, vmm)) := by
  obtain ⟨⟨o, σ₁⟩, hcopy, he⟩ := Option.map_eq_some_iff.1 h
  rw [process_allocated_of_ne hne] at hcopy
  obtain ⟨vmm, rfl, hcopied⟩ := vmmCopyPagemap_eq σ hcopy rfl
  have hchild : { σ.allocated with vmm := vmm }.process σ.vfs.fresh = newProcess (σ.vfs.fresh + 1) :=
    process_allocated
  have hparent : { σ.allocated with vmm := vmm }.process parent = σ.process parent := process_allocated_of_ne hne
  rcases o with - | s
  · obtain ⟨rfl, rfl⟩ := Prod.mk.inj he
    refine .inl ⟨rfl, vmm, ?_, hcopied⟩
    rw [hchild]
    exact setProcess_eq_self hchild
  · obtain ⟨rfl, rfl⟩ := Prod.mk.inj he
    obtain ⟨q, hq, hcopied⟩ := vmmCopyPagemap_region hcopied
    refine .inr ⟨rfl, q, s, vmm, ?_, hq, hcopied⟩
    rw [hchild, hparent]
    rfl

theorem process_copied {s : ℕ} {vmm : Vmm} : (σ.copied parent s vmm).process σ.vfs.fresh =
    childProcess (σ.process parent) (σ.vfs.fresh + 1) s := process_setProcess _

theorem process_copied_of_ne {s : ℕ} {vmm : Vmm} (hne : m ≠ σ.vfs.fresh) :
    (σ.copied parent s vmm).process m = σ.process m :=
  (process_setProcess_of_ne hne _).trans (process_allocated_of_ne hne)

theorem heap_copied {s : ℕ} {vmm : Vmm} (hlt : m < σ.vfs.fresh) :
    (σ.copied parent s vmm).vfs.heap m = (σ.vfs.heap m).map (KObject.counted (refs (σ.process parent) m)) :=
  congrArg (Option.map _) (heap_allocated hlt)

theorem procCopyName_refused (h : σ.vfs.grant σ.vfs.fresh = false) :
    σ.procCopyName parent child = (-1, σ.refused) := by
  rw [procCopyName, kmalloc_eq, h]
  rfl

theorem procCopyName_granted (parent child : ℕ) (h : σ.vfs.grant σ.vfs.fresh = true) :
    ∃ childName, σ.procCopyName parent child = (0, { σ.granted with
      text := Function.update σ.text σ.vfs.fresh childName }.setProcess child
        { σ.process child with name := some σ.vfs.fresh }) := by
  refine ⟨(σ.process parent).name.elim embryoProcess σ.text, ?_⟩
  rw [procCopyName, kmalloc_eq, h]
  rfl

theorem procAssignChildIds_status : ¬ (σ.procAssignChildIds parent child).1 < 0 := by
  unfold procAssignChildIds
  exact lt_irrefl 0

/-- What follows when the child has a name. -/
def finished (parent child name : ℕ) (childName : CString) (σ : Kernel) : Kernel :=
  let σ := { σ with text := Function.update σ.text name childName }.setProcess child
    { σ.process child with name := some name }
  let σ := (σ.procAssignChildIds parent child).2
  let σ := σ.setProcess child { σ.process child with parent := some parent, state := .runnable }
  σ.procCopySignalState parent child

theorem vfs_finished {name : ℕ} {childName : CString} : (σ.finished parent child name childName).vfs = σ.vfs := rfl

theorem finished_child (σ : Kernel) (name : ℕ) (childName : CString) (hne : parent ≠ child) :
    ((σ.finished parent child name childName).process child).fds = (σ.process child).fds ∧
      ((σ.finished parent child name childName).process child).cwd = (σ.process child).cwd ∧
      ((σ.finished parent child name childName).process child).pid = σ.nextPid ∧
      ((σ.finished parent child name childName).process child).threads = (σ.process child).threads ∧
      ((σ.finished parent child name childName).process child).name = some name := by
  simp [finished, procCopySignalState, procAssignChildIds, setProcess, Function.update_of_ne hne.symm]

theorem finished_parent {name : ℕ} {childName : CString} (hne : parent ≠ child) :
    (σ.finished parent child name childName).process parent =
      { σ.process parent with children := some child } := by
  simp [finished, procCopySignalState, procAssignChildIds, setProcess, Function.update_of_ne hne]

theorem finished_other {name : ℕ} {childName : CString} (hchild : m ≠ child) (hparent : m ≠ parent) :
    (σ.finished parent child name childName).process m = σ.process m := by
  simp [finished, procCopySignalState, procAssignChildIds, setProcess, Function.update_of_ne hchild,
    Function.update_of_ne hparent]

theorem forked_finished {s : ℕ} {vmm : Vmm} {childName : CString} (hb : σ.Bounded) (hlt : parent < σ.vfs.fresh)
    (hnodes : ∀ n, refs (σ.process parent) n ≠ 0 → ∃ nd, σ.vfs.node? n = some nd) :
    Forked parent σ ((σ.copied parent s vmm).granted.finished parent σ.vfs.fresh (σ.vfs.fresh + 2) childName) := by
  have hne : parent ≠ σ.vfs.fresh := Nat.ne_of_lt hlt
  have hold : ∀ m, m < σ.vfs.fresh + 2 →
      (σ.copied parent s vmm).granted.vfs.heap m = (σ.copied parent s vmm).vfs.heap m := fun m hm =>
    heap_granted (Nat.ne_of_lt hm)
  obtain ⟨hfds, hcwd, -, hthreads, hname⟩ :=
    finished_child (σ.copied parent s vmm).granted (σ.vfs.fresh + 2) childName hne
  have hchild : (σ.copied parent s vmm).granted.process σ.vfs.fresh =
    childProcess (σ.process parent) (σ.vfs.fresh + 1) s := process_copied
  constructor
  case heap => exact fun m hm => (hold m (by omega)).trans (heap_copied hm)
  case fresh => rfl
  case bounded =>
    intro m hm
    have hm : σ.vfs.fresh + 3 ≤ m := hm
    refine (heap_granted (show m ≠ σ.vfs.fresh + 2 by omega)).trans ?_
    have hnone : σ.allocated.vfs.heap m = none :=
      (heap_granted (show m ≠ σ.vfs.fresh + 1 by omega)).trans
        ((heap_granted (show m ≠ σ.vfs.fresh by omega)).trans (hb m (by omega)))
    exact congrArg (Option.map _) hnone
  case child =>
    have hthere : σ.allocated.vfs.heap σ.vfs.fresh = some .text :=
      (heap_granted (show σ.vfs.fresh ≠ σ.vfs.fresh + 1 by omega)).trans live_granted
    have hheap := (hold σ.vfs.fresh (by omega)).trans (congrArg (Option.map _) hthere)
    unfold Live
    rw [vfs_finished, hheap]
    rfl
  case fds =>
    intro fd
    rw [hfds, hchild]
    unfold childProcess copiedFds
    simp only [Nat.zero_le, true_and, Nat.zero_add]
    rfl
  case cwd =>
    rw [hcwd, hchild]
    rfl
  case same =>
    rw [finished_parent hne]
    exact congrArg (fun p : Process => { p with children := some σ.vfs.fresh }) (process_copied_of_ne hne)
  case other =>
    intro m hchild hparent
    rw [finished_other hchild hparent]
    exact process_copied_of_ne hchild
  case pipe => rfl
  case nodes => exact hnodes
  case step => exact ⟨rfl, rfl, rfl, rfl, rfl, rfl⟩
  case texts =>
    intro m hge hlt
    rcases eq_or_ne m (σ.vfs.fresh + 2) with rfl | htwo
    · exact live_granted
    refine (hold m (by omega)).trans ?_
    have hthere : σ.allocated.vfs.heap m = some .text := by
      rcases eq_or_ne m (σ.vfs.fresh + 1) with rfl | hone
      · exact live_granted
      · obtain rfl : m = σ.vfs.fresh := by omega
        exact (heap_granted (show σ.vfs.fresh ≠ σ.vfs.fresh + 1 by omega)).trans live_granted
    exact congrArg (Option.map _) hthere
  case threads =>
    rw [hthreads, hchild]
    rfl
  case name => exact hname

/-- **A fork** ends in one of five ways. -/
theorem procFork_ends (hb : σ.Bounded) (h : σ.procFork parent = some (r, σ')) : ForkEnd parent σ r σ' := by
  unfold procFork at h
  split at h
  · next hlive =>
    have hne : parent ≠ σ.vfs.fresh := Nat.ne_of_lt (hb.lt_fresh hlive)
    obtain ⟨⟨o, σ₁⟩, halloc, h⟩ := Option.bind_eq_some_iff.1 h
    rcases procAlloc_cases hb halloc with ⟨hgrant, rfl, k, rfl⟩ | ⟨hgrant, rfl, rfl⟩
    · obtain ⟨rfl, rfl⟩ := Prod.mk.inj (Option.some.inj h)
      exact .noProcess k hgrant
    · obtain ⟨⟨status, σ₂⟩, hmap, h⟩ := Option.bind_eq_some_iff.1 h
      dsimp only at h
      rcases procCopyChildPagemap_cases hne hmap with ⟨rfl, vmm, rfl, hcopy⟩ | ⟨rfl, q, s, vmm, rfl, hq, hcopy⟩
      · rw [if_pos (by decide)] at h
        obtain ⟨σ₃, hfailed, h⟩ := Option.bind_eq_some_iff.1 h
        obtain ⟨rfl, rfl⟩ := Prod.mk.inj (Option.some.inj h)
        exact .noMap vmm _ hgrant hcopy hfailed
      · rw [if_neg (by decide), process_mapped_of_ne hne] at h
        obtain ⟨⟨status, σ₃⟩, hassign, h⟩ := Option.bind_eq_some_iff.1 h
        dsimp only at h
        rcases hcwd : (σ.process parent).cwd with - | c
        · rw [hcwd] at hassign
          obtain ⟨rfl, rfl⟩ := Prod.mk.inj (Option.some.inj hassign)
          rw [if_pos (by decide)] at h
          obtain ⟨σ₄, hfailed, h⟩ := Option.bind_eq_some_iff.1 h
          obtain ⟨rfl, rfl⟩ := Prod.mk.inj (Option.some.inj h)
          exact .noCwd q s vmm _ hgrant hq hcopy hcwd hfailed
        · have hstatus : status = 0 := by
            rw [hcwd] at hassign
            obtain ⟨⟨e, τ⟩, -, hassign⟩ := Option.bind_eq_some_iff.1 hassign
            obtain ⟨τ', -, hassign⟩ := Option.bind_eq_some_iff.1 hassign
            exact (Prod.mk.inj (Option.some.inj hassign)).1.symm
          rw [hstatus] at hassign h
          rw [if_neg (by decide)] at h
          obtain ⟨⟨status', σ₄⟩, hfds, h⟩ := Option.bind_eq_some_iff.1 h
          have hnodes := copied_nodes hne hassign hfds
          obtain ⟨rfl, rfl⟩ := copied_eq hne hcwd hassign hfds
          dsimp only at h
          rw [if_neg (by decide)] at h
          rcases hgrant' : (σ.copied parent s vmm).vfs.grant (σ.copied parent s vmm).vfs.fresh with - | -
          · rw [procCopyName_refused hgrant'] at h
            dsimp only at h
            rw [if_pos (by decide)] at h
            obtain ⟨σ₄, hfailed, h⟩ := Option.bind_eq_some_iff.1 h
            obtain ⟨rfl, rfl⟩ := Prod.mk.inj (Option.some.inj h)
            exact .noName q s c vmm _ hgrant hq hcopy hcwd hgrant' hfailed
          · obtain ⟨childName, hname⟩ := procCopyName_granted parent σ.vfs.fresh hgrant'
            rw [hname] at h
            dsimp only at h
            rw [if_neg (by decide), if_neg procAssignChildIds_status] at h
            obtain ⟨hr, rfl⟩ := Prod.mk.inj (Option.some.inj h)
            obtain rfl : (σ.nextPid : ℤ) = r := by
              rw [← hr]
              exact (finished_child (σ.copied parent s vmm).granted (σ.vfs.fresh + 2) _ hne).2.2.1.symm
            exact .forked _ ⟨hgrant, ⟨q, s, vmm, hq, hcopy⟩, by rw [hcwd]; exact Option.some_ne_none c⟩
              (forked_finished hb (hb.lt_fresh hlive) hnodes)
  · exact absurd h (by simp)

/-! ### When a fork succeeds -/

theorem nodeInc_some (h : ∃ nd, σ.vfs.node? n = some nd) :
    σ.nodeInc n = some (σ.countNodes fun m => if m = n then 1 else 0) := by
  obtain ⟨nd, hnd⟩ := h
  have hinc : (σ.nodeInc n).isSome = true := by
    unfold nodeInc
    rw [hnd]
    rfl
  obtain ⟨σ', hσ'⟩ := Option.isSome_iff_exists.1 hinc
  rw [hσ', (nodeInc_eq hσ').2]

theorem procCopyFdsFrom_some (hne : dest ≠ src)
    (h : ∀ fd, i ≤ fd → fd < i + k → ∀ n, ((σ.process src).fds fd).node = some n → ∃ nd, σ.vfs.node? n = some nd) :
    ∃ σ', procCopyFdsFrom dest src k i σ = some (0, σ') := by
  induction k generalizing i σ with
  | zero => exact ⟨σ, rfl⟩
  | succ k ih =>
    have hsrc : (σ.setFd dest i ((σ.process src).fds i)).process src = σ.process src :=
      process_setProcess_of_ne hne.symm _
    rw [procCopyFdsFrom]
    dsimp only
    rcases hnode : ((σ.process src).fds i).node with - | n
    · refine ih fun fd hle hlt n hn => ?_
      rw [hsrc] at hn
      exact h fd (by omega) (by omega) n hn
    · have hnd : ∃ nd, (σ.setFd dest i ((σ.process src).fds i)).vfs.node? n = some nd :=
        h i le_rfl (by omega) n hnode
      dsimp only
      rw [nodeIsPipe_eq, if_neg (by decide), nodeInc_some hnd]
      refine ih fun fd hle hlt n hn => node?_countNodes.2 ?_
      rw [process_countNodes, hsrc] at hn
      exact h fd (by omega) (by omega) n hn

theorem procAlloc_granted (h : σ.GrantsProcess) : σ.procAlloc = some (some σ.vfs.fresh, σ.allocated) := by
  have hsecond : σ.granted.kmalloc = (some (σ.vfs.fresh + 1), σ.granted.granted) := by
    rw [kmalloc_eq]
    exact if_pos h.2
  unfold procAlloc
  rw [kmalloc_eq, if_pos h.1]
  dsimp only
  rw [hsecond]
  rfl

theorem procCopyChildPagemap_some {q s : ℕ} {vmm : Vmm} (hne : parent ≠ σ.vfs.fresh)
    (hregion : (σ.process parent).region = some q) (hcopy : Flopperating.vmmCopyPagemap q σ.vmm = some (some s, vmm)) :
    procCopyChildPagemap parent σ.vfs.fresh σ.allocated = some (0, σ.mapped parent s vmm) := by
  have hchild : { σ.allocated with vmm := vmm }.process σ.vfs.fresh = newProcess (σ.vfs.fresh + 1) :=
    process_allocated
  have hparent : { σ.allocated with vmm := vmm }.process parent = σ.process parent := process_allocated_of_ne hne
  have hregions : σ.allocated.vmmCopyPagemap (some q) = some (some s, { σ.allocated with vmm := vmm }) :=
    congrArg (Option.map fun o : Option ℕ × Vmm => (o.1, ({ σ.allocated with vmm := o.2 } : Kernel))) hcopy
  unfold procCopyChildPagemap
  rw [process_allocated_of_ne hne, hregion, hregions, Option.map_some]
  dsimp only
  rw [hchild, hparent]
  rfl

/-- **A fork succeeds** when there are three objects, the page map is copied and the parent has
a directory. -/
theorem procFork_some {q s c : ℕ} {vmm : Vmm} (hb : σ.Bounded) (hlive : σ.Live parent) (hgrant : σ.GrantsProcess)
    (hname : σ.vfs.grant (σ.vfs.fresh + 2) = true) (hregion : (σ.process parent).region = some q)
    (hcopy : Flopperating.vmmCopyPagemap q σ.vmm = some (some s, vmm)) (hcwd : (σ.process parent).cwd = some c)
    (hnodes : ∀ n, refs (σ.process parent) n ≠ 0 → ∃ nd, σ.vfs.node? n = some nd) :
    ∃ σ', σ.procFork parent = some ((σ.nextPid : ℤ), σ') := by
  have hne : parent ≠ σ.vfs.fresh := Nat.ne_of_lt (hb.lt_fresh hlive)
  have hdir : ∃ nd, σ.vfs.node? c = some nd := hnodes c (by unfold refs; rw [if_pos hcwd]; exact Nat.succ_ne_zero _)
  have hold : ∀ n, (∃ nd, σ.vfs.node? n = some nd) → ∃ nd, σ.allocated.vfs.node? n = some nd := fun n ⟨nd, hnd⟩ => by
    rw [Vfs.node?_eq_some] at hnd
    refine ⟨nd, Vfs.node?_eq_some.2 ((heap_allocated (hb.lt_fresh ?_)).trans hnd)⟩
    rw [Live, hnd]
    rfl
  have hmap := procCopyChildPagemap_some hne hregion hcopy
  have hassign : procCwdAssign σ.vfs.fresh (some c) (σ.mapped parent s vmm) =
      some (0, ((σ.mapped parent s vmm).setProcess σ.vfs.fresh
        { (σ.mapped parent s vmm).process σ.vfs.fresh with cwd := some c }).countNodes
          fun m => if m = c then 1 else 0) := by
    have hnone : ((σ.mapped parent s vmm).process σ.vfs.fresh).cwd = none := by
      rw [process_mapped]
      rfl
    have hinc := nodeInc_some (σ := (σ.mapped parent s vmm).setProcess σ.vfs.fresh
        { (σ.mapped parent s vmm).process σ.vfs.fresh with cwd := some c }) (hold c hdir)
    unfold procCwdAssign
    rw [hnone]
    exact congrArg (fun o => o.bind fun σ' => some ((0 : ℤ), σ')) hinc
  obtain ⟨σ₄, hfds⟩ : ∃ σ₄, procCopyFds σ.vfs.fresh parent (((σ.mapped parent s vmm).setProcess σ.vfs.fresh
        { (σ.mapped parent s vmm).process σ.vfs.fresh with cwd := some c }).countNodes
          fun m => if m = c then 1 else 0) = some (0, σ₄) := by
    refine procCopyFdsFrom_some hne.symm fun fd _ hlt n hn => node?_countNodes.2 (hold n (hnodes n ?_))
    rw [process_countNodes, process_setProcess_of_ne hne, process_mapped_of_ne hne] at hn
    have hpos : 0 < fdRefsFrom (σ.process parent) 0 maxProcFds n :=
      List.countP_pos_iff.2 ⟨fd, List.mem_range'_1.2 ⟨Nat.zero_le fd, hlt⟩, decide_eq_true hn⟩
    exact Nat.ne_of_gt (Nat.lt_of_lt_of_le hpos (Nat.le_add_right _ _))
  obtain ⟨-, rfl⟩ := copied_eq hne hcwd (by rw [hcwd]; exact hassign) hfds
  obtain ⟨childName, hchildName⟩ := procCopyName_granted (σ := σ.copied parent s vmm) parent σ.vfs.fresh hname
  have hstatus : ∀ τ : Kernel, (τ.procAssignChildIds parent σ.vfs.fresh).1 = 0 := fun τ => rfl
  have hpid := (finished_child (σ.copied parent s vmm).granted (σ.vfs.fresh + 2) childName hne).2.2.1
  refine ⟨(σ.copied parent s vmm).granted.finished parent σ.vfs.fresh (σ.vfs.fresh + 2) childName, ?_⟩
  unfold procFork
  rw [if_pos hlive, procAlloc_granted hgrant]
  simp only [Option.bind_eq_bind, Option.bind_some, hmap, process_mapped_of_ne hne, hcwd, hassign, hfds, hchildName, hstatus,
    lt_irrefl, if_false]
  exact congrArg (fun pid => some (pid, (σ.copied parent s vmm).granted.finished parent σ.vfs.fresh
    (σ.vfs.fresh + 2) childName)) hpid

end Kernel

end Flopperating
