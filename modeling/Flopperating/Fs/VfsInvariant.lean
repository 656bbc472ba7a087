/-
# What holds of the mountpoints

`vfs_mp_struc_alloc` gives a mountpoint one reference and `vfs_add_mountpoint` another one,
so a mountpoint has one more than its place in the list and its open nodes account for
(`VfsInv.count`).  It follows that no count ever drops to zero, that no mountpoint is freed,
and that every operation finds the objects that it looks at: each has a specification that
says what becomes of the heap.
-/

import Flopperating.Fs.Vfs
import Mathlib.Data.List.Perm.Basic

namespace Flopperating

open LinkedList

namespace Vfs

variable {σ σ' σ₁ σ₂ : Vfs} {i j k m n t : ℕ} {mp : VfsMountpoint} {nd : VfsNode} {o : KObject} {name : CString}
  {h₁ h₂ : ℕ → Option KObject} {opens ms : List ℕ} {p : VfsMountpoint → Bool}

theorem mp?_eq_some : σ.mp? i = some mp ↔ σ.heap i = some (.mountpoint mp) := by
  unfold mp?
  constructor
  · intro h
    split at h
    · next hi => rw [hi, Option.some.inj h]
    · exact absurd h (by simp)
  · intro h
    rw [h]

theorem node?_eq_some : σ.node? i = some nd ↔ σ.heap i = some (.node nd) := by
  unfold node?
  constructor
  · intro h
    split at h
    · next hi => rw [hi, Option.some.inj h]
    · exact absurd h (by simp)
  · intro h
    rw [h]

theorem mp?_congr (h : σ'.heap i = σ.heap i) : σ'.mp? i = σ.mp? i := by
  unfold mp?
  rw [h]

theorem nextOf_of_heap (h : σ.heap i = some (.mountpoint mp)) : σ.nextOf i = mp.nextMountpoint := by
  rw [nextOf, mp?_eq_some.2 h, Option.bind_some]

/-! ### Changes of the heap -/

/-- The heap is `heap` now, `k` objects have been asked for, and the lists are as before. -/
structure HeapStep (σ σ' : Vfs) (heap : ℕ → Option KObject) (k : ℕ) : Prop where
  fsList : σ'.fsList = σ.fsList
  head : σ'.head = σ.head
  tail : σ'.tail = σ.tail
  grant : σ'.grant = σ.grant
  heap : σ'.heap = heap
  fresh : σ'.fresh = σ.fresh + k

theorem HeapStep.refl (σ : Vfs) : HeapStep σ σ σ.heap 0 := ⟨rfl, rfl, rfl, rfl, rfl, rfl⟩

theorem HeapStep.trans (a : HeapStep σ σ₁ h₁ j) (b : HeapStep σ₁ σ₂ h₂ k) : HeapStep σ σ₂ h₂ (j + k) where
  fsList := b.fsList.trans a.fsList
  head := b.head.trans a.head
  tail := b.tail.trans a.tail
  grant := b.grant.trans a.grant
  heap := b.heap
  fresh := by rw [b.fresh, a.fresh, Nat.add_assoc]

theorem HeapStep.congr (a : HeapStep σ σ' h₁ k) (h : h₁ = h₂) : HeapStep σ σ' h₂ k := h ▸ a

theorem heapStep_setMp : HeapStep σ (σ.setMp i mp) (Function.update σ.heap i (some (.mountpoint mp))) 0 :=
  ⟨rfl, rfl, rfl, rfl, rfl, rfl⟩

theorem heapStep_tick : HeapStep σ σ.tick σ.heap 0 := ⟨rfl, rfl, rfl, rfl, rfl, rfl⟩

theorem kmalloc_cases (o : KObject) (σ : Vfs) :
    (σ.grant σ.fresh = false ∧ ∃ σ', σ.kmalloc o = (none, σ') ∧ HeapStep σ σ' σ.heap 1) ∨
    (σ.grant σ.fresh = true ∧ ∃ σ', σ.kmalloc o = (some σ.fresh, σ') ∧
      HeapStep σ σ' (Function.update σ.heap σ.fresh (some o)) 1) := by
  unfold kmalloc
  rcases σ.grant σ.fresh with - | -
  · exact .inl ⟨rfl, _, rfl, rfl, rfl, rfl, rfl, rfl, rfl⟩
  · exact .inr ⟨rfl, _, rfl, rfl, rfl, rfl, rfl, rfl, rfl⟩

theorem kfree_spec (h : σ.heap i = some o) :
    ∃ σ', σ.kfree i = some σ' ∧ HeapStep σ σ' (Function.update σ.heap i none) 0 := by
  unfold kfree
  rw [h]
  exact ⟨_, rfl, rfl, rfl, rfl, rfl, rfl, rfl⟩

theorem mpInc_spec (h : σ.heap i = some (.mountpoint mp)) (hpos : 1 ≤ mp.refcount) :
    σ.mpInc i = some (σ.setMp i { mp with refcount := mp.refcount + 1 }) := by
  rw [mpInc, mp?_eq_some.2 h, Option.map_some, refcountIncNotZero, if_neg (by omega)]

/-- A reference that is not the last one. -/
theorem mpPut_spec (h : σ.heap i = some (.mountpoint mp)) (hmore : 2 ≤ mp.refcount) :
    σ.mpPut i = some (σ.setMp i { mp with refcount := mp.refcount - 1 }) := by
  have hdec : refcountDecAndTest mp.refcount = (false, mp.refcount - 1) := by
    rw [refcountDecAndTest, if_neg (by omega), decide_eq_false (by omega)]
  rw [mpPut, mp?_eq_some.2 h, Option.bind_some, hdec]
  rfl

/-! ### Calls of a file system -/

theorem callOp_step (op : Option (ℕ → ℤ)) (σ : Vfs) : HeapStep σ (callOp op σ).2 σ.heap 0 := by
  unfold callOp
  split
  · exact .refl σ
  · exact heapStep_tick

theorem vfsTryOpen_step (ops : VfsOpTbl) (σ : Vfs) : HeapStep σ (vfsTryOpen ops σ).2 σ.heap 0 := callOp_step _ σ

theorem vfsCreateFileIfNeeded_step (ops : VfsOpTbl) (mode : ℕ) (σ : Vfs) :
    HeapStep σ (vfsCreateFileIfNeeded ops mode σ).2 σ.heap 0 := by
  unfold vfsCreateFileIfNeeded
  split
  · exact .refl σ
  · exact callOp_step _ σ

theorem vfsSeekIfAppend_spec (hn : σ.heap n = some (.node nd)) (hmp : σ.heap nd.mountpoint = some (.mountpoint mp)) :
    ∃ σ', σ.vfsSeekIfAppend n = some σ' ∧ HeapStep σ σ' σ.heap 0 := by
  rw [vfsSeekIfAppend, node?_eq_some.2 hn, Option.bind_some]
  split
  · rw [vfsSeek, node?_eq_some.2 hn, Option.bind_some, mp?_eq_some.2 hmp]
    exact ⟨_, rfl, callOp_step _ σ⟩
  · exact ⟨σ, rfl, .refl σ⟩

/-! ### The invariant -/

/-- The mountpoint that an object refers to as a node. -/
def nodeMp : Option KObject → Option ℕ
  | some (.node nd) => some nd.mountpoint
  | _ => none

/-- The number of open nodes on mountpoint `m`. -/
def openOn (heap : ℕ → Option KObject) (opens : List ℕ) (m : ℕ) : ℕ := opens.countP fun n => nodeMp (heap n) = some m

/-- `ms` are the mountpoints in the list, `opens` are the nodes there are, and a mountpoint
has one reference more than these account for. -/
structure Inv (σ : Vfs) (opens ms : List ℕ) : Prop where
  chain : Chain σ.nextOf σ.head ms
  tail : σ.tail = ms.getLast?
  live : ∀ m ∈ ms, ∃ mp, σ.heap m = some (.mountpoint mp)
  bound : ∀ i, σ.fresh ≤ i → σ.heap i = none
  count : ∀ m mp, σ.heap m = some (.mountpoint mp) →
    mp.refcount = 1 + (if m ∈ ms then 1 else 0) + openOn σ.heap opens m
  nodup : opens.Nodup
  node : ∀ n ∈ opens, ∃ nd mp, σ.heap n = some (.node nd) ∧ σ.heap nd.mountpoint = some (.mountpoint mp)
  opened : ∀ n nd, σ.heap n = some (.node nd) → n ∈ opens
  fs : ∀ m mp, σ.heap m = some (.mountpoint mp) → mp.filesystem ∈ σ.fsList

theorem inv_init (fsList : List VfsFs) (grant : ℕ → Bool) : (init fsList grant).Inv [] [] where
  chain := rfl
  tail := rfl
  live _ hm := absurd hm List.not_mem_nil
  bound _ _ := rfl
  count _ _ h := absurd h (by simp [init])
  nodup := List.nodup_nil
  node _ hn := absurd hn List.not_mem_nil
  opened _ _ h := absurd h (by simp [init])
  fs _ _ h := absurd h (by simp [init])

theorem Inv.lt_fresh (h : σ.Inv opens ms) (hi : σ.heap i = some o) : i < σ.fresh := by
  by_contra hge
  rw [h.bound i (Nat.le_of_not_lt hge)] at hi
  exact absurd hi (by simp)

theorem Inv.refcount_pos (h : σ.Inv opens ms) (hm : σ.heap m = some (.mountpoint mp)) : 1 ≤ mp.refcount := by
  rw [h.count m mp hm]
  omega

/-- A mountpoint in the list has at least two references. -/
theorem Inv.refcount_listed (h : σ.Inv opens ms) (hm : m ∈ ms) (hmp : σ.heap m = some (.mountpoint mp)) :
    2 ≤ mp.refcount := by
  rw [h.count m mp hmp, if_pos hm]
  omega

theorem nodeMp_eq_some {o : Option KObject} : nodeMp o = some m ↔ ∃ nd, o = some (.node nd) ∧ nd.mountpoint = m := by
  constructor
  · intro h
    unfold nodeMp at h
    split at h
    · exact ⟨_, rfl, Option.some.inj h⟩
    · exact absurd h (by simp)
  · rintro ⟨nd, rfl, rfl⟩
    rfl

/-- Mountpoints are as they were, and nodes refer to the same ones. -/
theorem Inv.of_view (h : σ.Inv opens ms) (hs : HeapStep σ σ' σ'.heap k)
    (hmp : ∀ i mp, σ'.heap i = some (.mountpoint mp) ↔ σ.heap i = some (.mountpoint mp))
    (hnd : ∀ i, nodeMp (σ'.heap i) = nodeMp (σ.heap i)) (hbound : ∀ i, σ'.fresh ≤ i → σ'.heap i = none) :
    σ'.Inv opens ms := by
  have hopen : ∀ m, openOn σ'.heap opens m = openOn σ.heap opens m := fun m =>
    List.countP_congr fun n _ => by rw [hnd]
  constructor
  case chain =>
    rw [hs.head]
    refine h.chain.congr fun m hm => ?_
    obtain ⟨mp, hlive⟩ := h.live m hm
    rw [nextOf_of_heap hlive, nextOf_of_heap ((hmp m mp).2 hlive)]
  case tail => exact hs.tail.trans h.tail
  case live =>
    intro m hm
    obtain ⟨mp, hlive⟩ := h.live m hm
    exact ⟨mp, (hmp m mp).2 hlive⟩
  case bound => exact hbound
  case count =>
    intro m mp hm
    rw [hopen, h.count m mp ((hmp m mp).1 hm)]
  case nodup => exact h.nodup
  case node =>
    intro n hn
    obtain ⟨nd, mp, hnode, hm⟩ := h.node n hn
    obtain ⟨nd', hnode', hsame⟩ := nodeMp_eq_some.1 ((hnd n).trans (nodeMp_eq_some.2 ⟨nd, hnode, rfl⟩))
    exact ⟨nd', mp, hnode', by rw [hsame]; exact (hmp _ mp).2 hm⟩
  case opened =>
    intro n nd hn
    obtain ⟨nd', hnode, -⟩ := nodeMp_eq_some.1 ((hnd n).symm.trans (nodeMp_eq_some.2 ⟨nd, hn, rfl⟩))
    exact h.opened n nd' hnode
  case fs =>
    intro m mp hm
    rw [hs.fsList]
    exact h.fs m mp ((hmp m mp).1 hm)

/-- Besides objects for text, nothing has been allocated. -/
theorem Inv.of_texts (h : σ.Inv opens ms) {heap : ℕ → Option KObject} (hs : HeapStep σ σ' heap k)
    (hold : ∀ i < σ.fresh, heap i = σ.heap i)
    (hnew : ∀ i, σ.fresh ≤ i → heap i = none ∨ i < σ.fresh + k ∧ heap i = some .text) : σ'.Inv opens ms := by
  -- an object that is not text is an old one
  have hcases : ∀ i, σ'.heap i = σ.heap i ∨ σ.heap i = none ∧ (σ'.heap i = none ∨ σ'.heap i = some .text) := fun i => by
    rw [hs.heap]
    rcases Nat.lt_or_ge i σ.fresh with hlt | hge
    · exact .inl (hold i hlt)
    · exact .inr ⟨h.bound i hge, (hnew i hge).imp_right And.right⟩
  refine h.of_view ⟨hs.fsList, hs.head, hs.tail, hs.grant, rfl, hs.fresh⟩ (fun i mp => ?_) (fun i => ?_) fun i hi => ?_
  · rcases hcases i with he | ⟨hnone, he | he⟩
    · rw [he]
    · rw [he, hnone]
    · rw [he, hnone]
      simp
  · rcases hcases i with he | ⟨hnone, he | he⟩
    · rw [he]
    · rw [he, hnone]
    · rw [he, hnone]
      rfl
  · rw [hs.fresh] at hi
    rw [hs.heap]
    rcases hnew i (by omega) with hnone | ⟨hlt, -⟩
    · exact hnone
    · omega

/-! ### Looking for a mountpoint -/

/-- The last mountpoint of the list, when it is as it is asked for. -/
def lastMatch (p : VfsMountpoint → Bool) (σ : Vfs) (ms : List ℕ) : Option ℕ :=
  ms.getLast?.filter fun m => (σ.mp? m).any p

theorem lastMatch_eq_some : lastMatch p σ ms = some m ↔
    ms.getLast? = some m ∧ ∃ mp, σ.heap m = some (.mountpoint mp) ∧ p mp = true := by
  rw [lastMatch, Option.filter_eq_some_iff, Option.any_eq_true_iff_get]
  refine and_congr_right fun _ => ?_
  constructor
  · rintro ⟨hsome, hp⟩
    exact ⟨_, mp?_eq_some.1 (Option.some_get hsome).symm, hp⟩
  · rintro ⟨mp, hmp, hp⟩
    rw [← mp?_eq_some] at hmp
    exact ⟨by rw [hmp]; rfl, by simpa [hmp] using hp⟩

/-- **The searches** begin at the tail, and it has no successor. -/
theorem Inv.findFrom_tail (h : σ.Inv opens ms) (p : VfsMountpoint → Bool) (fuel : ℕ) :
    findFrom p (fuel + 1) σ.tail σ = some (lastMatch p σ ms) := by
  have htail := h.tail
  rcases List.eq_nil_or_concat ms with rfl | ⟨l, t, rfl⟩
  · rw [htail]
    rfl
  · rw [List.concat_eq_append] at *
    rw [List.getLast?_concat] at htail
    obtain ⟨mp, hmp⟩ := h.live t (List.mem_append_right _ (List.mem_singleton.2 rfl))
    have hnext := h.chain.next_last
    rw [nextOf_of_heap hmp] at hnext
    rw [htail, findFrom, mp?_eq_some.2 hmp, Option.bind_some, hnext, lastMatch, List.getLast?_concat, Option.filter,
      mp?_eq_some.2 hmp]
    cases hp : p mp
    · simp [findFrom, hp]
    · simp [hp]

end Vfs

end Flopperating
