/-
# Do the system calls stay in their tables?

Every handler but one looks whether it has a descriptor of the table before it uses it
(`accesses_call`), so that the entries of `proc->fds` that it accesses are there; `sys_getdents` does
not look.  `c_syscall_routine` refuses the one number after the last, and no other.  So the table of
system calls and the table of descriptors are kept to just when the number is not above
`SYSCALL_NUM`, and `sys_getdents` is called with a descriptor (`dispatch_in_bounds_iff`).
-/

import Flopperating.Sys.Dispatch

namespace Flopperating

open TracedM

/-- The index of an entry of `proc->fds`. -/
def InFds (fd : ℤ) : Prop := 0 ≤ fd ∧ fd < maxProcFds

variable {σ : Type} {ops : Rest σ} {args : SyscallArgs} {fuel num : ℕ} {fd : ℤ}

theorem inFds_of_not (h : ¬ (fd < 0 ∨ fd ≥ maxProcFds)) : InFds fd := by
  unfold InFds
  omega

theorem accesses_withDesc {act : VfsFileDescriptor → FdM σ ℤ} (h : InFds fd → ∀ desc, Accesses InFds (act desc)) :
    Accesses InFds (withDesc fd act) :=
  accesses_ite (fun _ => accesses_pure _) fun hfd =>
    accesses_bind (accesses_load (inFds_of_not hfd)) fun desc => h (inFds_of_not hfd) desc

theorem accesses_withNode {act : ℕ → FdM σ ℤ} (h : ∀ n, Accesses InFds (act n)) : Accesses InFds (withNode fd act) := by
  refine accesses_withDesc fun _ desc => ?_
  cases desc.node with
  | none => exact accesses_pure _
  | some n => exact h n

theorem accesses_findFree {n : ℕ} (h : 0 ≤ fd ∧ fd + n ≤ maxProcFds) : Accesses InFds (findFree n fd : FdM σ (Option ℤ)) := by
  induction n generalizing fd with
  | zero => exact accesses_pure _
  | succ n ih =>
    have hin : InFds fd := ⟨h.1, by omega⟩
    refine accesses_bind (accesses_load hin) fun desc => accesses_ite (fun _ => accesses_pure _) fun _ => ?_
    exact ih ⟨by omega, by omega⟩

/-- What `findFree` finds is among those that it looks at. -/
theorem findFree_some {n : ℕ} {s : TracedMemory ℤ VfsFileDescriptor × σ} {k : ℤ}
    (h : (findFree n fd s).1 = some k) : fd ≤ k ∧ k < fd + n := by
  induction n generalizing fd s with
  | zero => exact absurd (show (none : Option ℤ) = some k from h) (by simp)
  | succ n ih =>
    have h : ((if (s.1.value fd).node = none then return some fd else findFree n (fd + 1) : FdM σ (Option ℤ))
      ((s.1.load fd).2, s.2)).1 = some k := h
    by_cases hnode : (s.1.value fd).node = none
    · rw [if_pos hnode] at h
      obtain rfl := Option.some.inj h
      omega
    · rw [if_neg hnode] at h
      have := ih h
      omega

namespace Rest

theorem accesses_sysRead : Accesses InFds (ops.sysRead args) :=
  accesses_ite (fun _ => accesses_pure _) fun _ => accesses_ite (fun _ => accesses_pure _) fun _ =>
    accesses_withDesc fun _ _ => accesses_lift _

theorem accesses_sysSeek : Accesses InFds (ops.sysSeek args) :=
  accesses_ite (fun _ => accesses_pure _) fun _ => accesses_ite (fun _ => accesses_pure _) fun _ =>
    accesses_withNode fun _ => accesses_lift _

theorem accesses_sysFstat : Accesses InFds (ops.sysFstat args) :=
  accesses_ite (fun _ => accesses_pure _) fun _ => accesses_ite (fun _ => accesses_pure _) fun _ =>
    accesses_withNode fun _ => accesses_lift _

theorem accesses_sysFtruncate : Accesses InFds (ops.sysFtruncate args) :=
  accesses_ite (fun _ => accesses_pure _) fun _ => accesses_ite (fun _ => accesses_pure _) fun _ =>
    accesses_withNode fun _ => accesses_lift _

theorem accesses_sysIoctl : Accesses InFds (ops.sysIoctl args) :=
  accesses_ite (fun _ => accesses_pure _) fun _ => accesses_ite (fun _ => accesses_pure _) fun _ =>
    accesses_withNode fun _ => accesses_lift _

theorem accesses_sysWrite : Accesses InFds (ops.sysWrite args) := by
  refine accesses_ite (fun _ => accesses_pure _) fun hfd => accesses_ite (fun _ => accesses_pure _) fun _ => ?_
  refine accesses_ite (fun _ => ?_) fun _ => ?_
  · exact accesses_bind (accesses_lift _) fun _ => accesses_pure _
  · refine accesses_bind (accesses_load (inFds_of_not hfd)) fun desc => ?_
    exact accesses_ite (fun _ => accesses_pure _) fun _ => accesses_lift _

theorem accesses_sysPrint : Accesses InFds (ops.sysPrint args) :=
  accesses_ite (fun _ => accesses_pure _) fun _ => accesses_ite (fun _ => accesses_pure _) fun _ =>
    accesses_bind (accesses_lift _) fun _ => accesses_ite (fun _ => accesses_pure _) fun _ => accesses_sysWrite

theorem accesses_sysClose : Accesses InFds (ops.sysClose args) := by
  refine accesses_ite (fun _ => accesses_pure _) fun _ => accesses_ite (fun _ => accesses_pure _) fun _ => ?_
  refine accesses_withDesc fun hfd desc => ?_
  refine accesses_bind (accesses_lift _) fun _ => accesses_bind (accesses_lift _) fun _ => ?_
  exact accesses_bind (accesses_modify hfd) fun _ => accesses_pure _

theorem accesses_sysMmap : Accesses InFds (ops.sysMmap args) := by
  refine accesses_ite (fun _ => accesses_pure _) fun _ => accesses_bind (accesses_lift _) fun region => ?_
  cases region with
  | none => exact accesses_pure _
  | some region =>
    refine accesses_ite (fun _ => accesses_withNode fun n => ?_) fun _ => accesses_lift _
    refine accesses_bind (accesses_lift _) fun sought => ?_
    exact accesses_ite (fun _ => accesses_pure _) fun _ => accesses_lift _

theorem accesses_copyRange {fdIn fdOut : ℤ} {buffer count chunk total : ℕ} (hin : InFds fdIn) (hout : InFds fdOut) :
    Accesses InFds (ops.copyRange fdIn fdOut buffer count chunk fuel total) := by
  induction fuel generalizing total with
  | zero => exact accesses_pure _
  | succ fuel ih =>
    refine accesses_ite (fun _ => ?_) fun _ => accesses_pure _
    refine accesses_bind (accesses_load hin) fun src => accesses_bind (accesses_lift _) fun r => ?_
    refine accesses_ite (fun _ => accesses_pure _) fun _ => ?_
    refine accesses_bind (accesses_load hout) fun dst => accesses_bind (accesses_lift _) fun w => ?_
    refine accesses_ite (fun _ => accesses_pure _) fun _ => ?_
    exact accesses_ite (fun _ => accesses_pure _) fun _ => ih

theorem accesses_sysCopyFileRange : Accesses InFds (ops.sysCopyFileRange fuel args) := by
  refine accesses_ite (fun _ => accesses_pure _) fun _ => accesses_ite (fun _ => accesses_pure _) fun _ => ?_
  refine accesses_ite (fun _ => accesses_pure _) fun hfds => ?_
  have hin : InFds (toInt args.a1) := inFds_of_not fun h => hfds (h.elim .inl fun h => .inr (.inl h))
  have hout : InFds (toInt args.a2) := inFds_of_not fun h => hfds (.inr (.inr h))
  refine accesses_bind (accesses_load hin) fun src => accesses_ite (fun _ => accesses_pure _) fun _ => ?_
  refine accesses_bind (accesses_load hout) fun dst => accesses_ite (fun _ => accesses_pure _) fun _ => ?_
  refine accesses_bind (accesses_lift _) fun buffer => ?_
  cases buffer with
  | none => exact accesses_pure _
  | some buffer =>
    refine accesses_bind (accesses_copyRange hin hout) fun total => ?_
    exact accesses_bind (accesses_lift _) fun _ => accesses_pure _

theorem accesses_sysOpen : Accesses InFds (ops.sysOpen args) := by
  refine accesses_ite (fun _ => accesses_pure _) fun _ => accesses_ite (fun _ => accesses_pure _) fun _ => ?_
  refine accesses_bind_of (Q := fun o => ∀ k, o = some k → 0 ≤ k ∧ k < 0 + (maxProcFds : ℤ))
    (accesses_findFree (by decide)) (fun s k hk => findFree_some hk) fun fd hfd => ?_
  cases fd with
  | none => exact accesses_pure _
  | some fd =>
    have hin : InFds fd := by
      have := hfd fd rfl
      exact ⟨this.1, by omega⟩
    refine accesses_bind (accesses_lift _) fun file => ?_
    cases file with
    | none => exact accesses_pure _
    | some file => exact accesses_bind (accesses_modify hin) fun _ => accesses_pure _

theorem accesses_sysPipe : Accesses InFds (ops.sysPipe args) := by
  refine accesses_ite (fun _ => accesses_pure _) fun _ => accesses_ite (fun _ => accesses_pure _) fun _ => ?_
  refine accesses_bind (accesses_lift _) fun pipe => ?_
  cases pipe with
  | none => exact accesses_pure _
  | some pipe =>
    refine accesses_bind_of (Q := fun o => ∀ k, o = some k → 0 ≤ k ∧ k < 0 + (maxProcFds : ℤ))
      (accesses_findFree (by decide)) (fun s k hk => findFree_some hk) fun readFd hread => ?_
    cases readFd with
    | none => exact accesses_bind (accesses_lift _) fun _ => accesses_pure _
    | some readFd =>
      have hread := hread readFd rfl
      refine accesses_bind_of (Q := fun o => ∀ k, o = some k → readFd + 1 ≤ k ∧ k < maxProcFds)
        (accesses_findFree ⟨by omega, by omega⟩) (fun s k hk => ?_) fun writeFd hwrite => ?_
      · have := findFree_some hk
        omega
      cases writeFd with
      | none => exact accesses_bind (accesses_lift _) fun _ => accesses_pure _
      | some writeFd =>
        have hwrite := hwrite writeFd rfl
        refine accesses_bind (accesses_modify ⟨hread.1, by omega⟩) fun _ => ?_
        refine accesses_bind (accesses_modify ⟨by omega, by omega⟩) fun _ => ?_
        exact accesses_bind (accesses_lift _) fun _ => accesses_pure _

/-- **Every handler but `sys_getdents`** keeps to the descriptors that there are. -/
theorem accesses_call {h : SysHandler} (hne : h ≠ .sysGetdents) : Accesses InFds (ops.call fuel args h) := by
  cases h with
  | sysRead => exact accesses_map accesses_sysRead
  | sysWrite => exact accesses_map accesses_sysWrite
  | sysOpen => exact accesses_map accesses_sysOpen
  | sysClose => exact accesses_map accesses_sysClose
  | sysMmap => exact accesses_map accesses_sysMmap
  | sysSeek => exact accesses_map accesses_sysSeek
  | sysFstat => exact accesses_map accesses_sysFstat
  | sysFtruncate => exact accesses_map accesses_sysFtruncate
  | sysPipe => exact accesses_map accesses_sysPipe
  | sysIoctl => exact accesses_map accesses_sysIoctl
  | sysPrint => exact accesses_map accesses_sysPrint
  | sysCopyFileRange => exact accesses_sysCopyFileRange
  | sysGetdents => exact absurd rfl hne
  | _ => exact accesses_map (accesses_lift _)

/-- `sys_getdents` accesses the entry that it is given. -/
theorem accesses_sysGetdents (h : args.a1 ≠ 0 → args.a2 ≠ 0 → args.a3 ≠ 0 → InFds (toInt args.a1)) :
    Accesses InFds (ops.sysGetdents args) := by
  refine accesses_ite (fun _ => accesses_pure _) fun hargs => ?_
  obtain ⟨h₁, h₂₃⟩ := not_or.1 hargs
  obtain ⟨h₂, h₃⟩ := not_or.1 h₂₃
  refine accesses_bind (accesses_load (h h₁ h₂ h₃)) fun desc => ?_
  cases desc.node with
  | none => exact accesses_pure _
  | some n => exact accesses_lift _

theorem mem_touched_sysGetdents {s : TracedMemory ℤ VfsFileDescriptor × σ}
    (h : ¬ (args.a1 = 0 ∨ args.a2 = 0 ∨ args.a3 = 0)) : toInt args.a1 ∈ (ops.sysGetdents args s).2.1.touched := by
  unfold sysGetdents
  rw [if_neg h]
  refine mem_touched_load_bind fun desc s c hc => ?_
  cases desc.node with
  | none => exact hc
  | some n => exact hc

end Rest

/-! ### The dispatcher -/

/-- A system call keeps to the two tables. -/
structure InBounds (ops : Rest σ) (fuel num : ℕ) (args : SyscallArgs) (fds : ℤ → VfsFileDescriptor) (s : σ) :
    Prop where
  table : ∀ i ∈ (ops.cSyscallRoutine fuel num args).1, ∃ h, sysInitTbl[i]? = some (some h)
  /-- A number without a handler is refused. -/
  refuses : (∀ h, sysInitTbl[num]? ≠ some (some h)) →
    ops.cSyscallRoutine fuel num args = ([], some (return some (-1)))
  descriptors : ∀ x, (ops.cSyscallRoutine fuel num args).2 = some x →
    ∀ fd ∈ (x (⟨fds, []⟩, s)).2.1.touched, InFds fd

/-- There is a handler for every number below `SYSCALL_NUM`. -/
theorem handler_of_lt : ∀ num < syscallNum, (sysInitTbl[num]?).join.isSome := by decide

theorem num_of_getdents : ∀ num < syscallNum, (sysInitTbl[num]?).join = some .sysGetdents → num = 42 := by decide

/-- **The tables are kept to** exactly when the number is not above `SYSCALL_NUM`, and `sys_getdents`
is called with a descriptor that there is, or with a zero. -/
theorem dispatch_in_bounds_iff (ops : Rest σ) (fuel num : ℕ) (args : SyscallArgs) (fds : ℤ → VfsFileDescriptor) (s : σ) :
    InBounds ops fuel num args fds s ↔ num ≤ syscallNum ∧
      (num = 42 → args.a1 ≠ 0 → args.a2 ≠ 0 → args.a3 ≠ 0 → InFds (toInt args.a1)) := by
  constructor
  · intro hin
    refine ⟨?_, ?_⟩
    · by_contra hnum
      have hreads : (ops.cSyscallRoutine fuel num args).1 = [num] := by
        unfold Rest.cSyscallRoutine
        rw [if_neg (by omega)]
      obtain ⟨h, hh⟩ := hin.table num (by rw [hreads]; exact List.mem_singleton_self num)
      have hlen := (List.getElem?_eq_some_iff.1 hh).1
      exact hnum (Nat.le_of_lt_succ hlen)
    · rintro rfl h₁ h₂ h₃
      refine hin.descriptors (some <$> ops.sysGetdents args) rfl _ ?_
      exact Rest.mem_touched_sysGetdents (by simp [h₁, h₂, h₃])
  · rintro ⟨hnum, hget⟩
    rcases Nat.lt_or_ge num syscallNum with hlt | hge
    · obtain ⟨h, hjoin⟩ := Option.isSome_iff_exists.1 (handler_of_lt num hlt)
      have hentry : sysInitTbl[num]? = some (some h) := Option.join_eq_some_iff.1 hjoin
      have hrun : ops.cSyscallRoutine fuel num args = ([num], some (ops.call fuel args h)) := by
        unfold Rest.cSyscallRoutine
        rw [if_neg hlt.ne, hjoin]
        rfl
      refine ⟨fun i hi => ?_, fun hno => absurd hentry (hno h), fun x hx fd hfd => ?_⟩
      · rw [hrun] at hi
        obtain rfl := List.mem_singleton.1 hi
        exact ⟨h, hentry⟩
      · rw [hrun] at hx
        obtain rfl := Option.some.inj hx
        have hcall : Accesses InFds (ops.call fuel args h) := by
          by_cases hh : h = .sysGetdents
          · rw [hh] at hjoin ⊢
            exact accesses_map (Rest.accesses_sysGetdents (hget (num_of_getdents num hlt hjoin)))
          · exact Rest.accesses_call hh
        exact (hcall _ fd hfd).resolve_left List.not_mem_nil
    · obtain rfl : num = syscallNum := Nat.le_antisymm hnum hge
      have hrun : ops.cSyscallRoutine fuel syscallNum args = ([], some (return some (-1))) := rfl
      refine ⟨?_, fun _ => hrun, fun x hx fd hfd => ?_⟩
      · rw [hrun]
        exact fun i hi => absurd hi List.not_mem_nil
      · rw [hrun] at hx
        obtain rfl := Option.some.inj hx
        exact absurd hfd List.not_mem_nil

/-- Nothing is there, and every call fails. -/
def nullRest : Rest Unit where
  vfsRead _ _ _ s := (-1, s)
  vfsWrite _ _ _ s := (-1, s)
  vfsSeek _ _ _ s := (-1, s)
  vfsFstat _ _ s := (-1, s)
  vfsFtruncate _ _ s := (-1, s)
  vfsGetdents _ _ _ s := (-1, s)
  vfsOpen _ _ s := (none, s)
  vfsClose _ s := (-1, s)
  ioctl _ _ _ s := (-1, s)
  echo _ s := ((), s)
  flopstrlen _ s := (0, s)
  kmalloc _ s := (none, s)
  newPipe s := (none, s)
  kfree _ s := ((), s)
  kfreeDesc _ s := ((), s)
  storePipefd _ _ _ s := ((), s)
  region s := (none, s)
  mmapPages _ _ _ _ _ s := (-1, s)
  other _ _ s := (-1, s)

/-- Number 45 is past the table. -/
theorem not_dispatch_in_bounds : ¬ ∀ (ops : Rest Unit) (fuel num : ℕ) (args : SyscallArgs)
    (fds : ℤ → VfsFileDescriptor), InBounds ops fuel num args fds () := by
  intro hall
  obtain ⟨h, hh⟩ := (hall nullRest 0 45 ⟨0, 0, 0, 0, 0, by decide⟩ fun _ => ⟨none, none, 0⟩).table 45
    (List.mem_singleton_self 45)
  have hend : sysInitTbl[45]? = none := rfl
  exact absurd (hend.symm.trans hh) (by simp)

end Flopperating
