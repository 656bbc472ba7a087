/-
# What the operations on paths do

Each operation in a state of the invariant: what it returns, and the heap that it leaves.
The copy of a name that `vfs_resolve_mountpoint_and_path` makes is freed when no mountpoint
is found, and only then (`resolve_cases`).
-/

import Flopperating.Fs.VfsInvariant

namespace Flopperating

open LinkedList

namespace Vfs

variable {σ σ' σ₁ σ₂ : Vfs} {i j k m n t : ℕ} {mp : VfsMountpoint} {nd : VfsNode} {o : KObject}
  {heap : ℕ → Option KObject} {opens ms : List ℕ} {p : VfsMountpoint → Bool}

theorem lastMatch_congr (h : ∀ m ∈ ms, σ'.heap m = σ.heap m) : lastMatch p σ' ms = lastMatch p σ ms := by
  unfold lastMatch
  rcases hlast : ms.getLast? with - | m
  · rfl
  · rw [Option.filter, Option.filter, mp?_congr (h m (List.mem_of_getLast? hlast))]

/-- The mountpoint that is found for a name. -/
def mountOf (name : CString) (σ : Vfs) (ms : List ℕ) : Option ℕ :=
  lastMatch (fun mp => flopstrncmp mp.mountPoint.2 name (flopstrlen mp.mountPoint.2) = 0) σ ms

theorem Inv.vfsFileToMountpoint (h : σ.Inv opens ms) (name : CString) :
    σ.vfsFileToMountpoint name = some (mountOf name σ ms) := h.findFrom_tail _ _

theorem Inv.mountOf_live (h : σ.Inv opens ms) {name : CString} (hi : mountOf name σ ms = some i) :
    i ∈ ms ∧ ∃ mp, σ.heap i = some (.mountpoint mp) := by
  have hmem : i ∈ ms := List.mem_of_getLast? (lastMatch_eq_some.1 hi).1
  exact ⟨hmem, h.live i hmem⟩

/-- A new object for text. -/
theorem Inv.text (h : σ.Inv opens ms) (hs : HeapStep σ σ' (Function.update σ.heap σ.fresh (some .text)) (k + 1)) :
    σ'.Inv opens ms :=
  h.of_texts hs (fun i hi => Function.update_of_ne hi.ne _ _) fun i hi => by
    rcases eq_or_ne i σ.fresh with rfl | hne
    · exact .inr ⟨by omega, Function.update_self ..⟩
    · rw [Function.update_of_ne hne]
      exact .inl (h.bound i hi)

/-- Objects have been asked for, and there are none more. -/
theorem Inv.idle (h : σ.Inv opens ms) (hs : HeapStep σ σ' σ.heap k) : σ'.Inv opens ms :=
  h.of_texts hs (fun _ _ => rfl) fun i hi => .inl (h.bound i hi)

/-! ### Resolving a name -/

theorem resolve_cases (h : σ.Inv opens ms) (name : CString) :
    ((σ.grant σ.fresh = false ∨ mountOf name σ ms = none) ∧
      ∃ σ', σ.vfsResolveMountpointAndPath name = some (none, σ') ∧ HeapStep σ σ' σ.heap 1) ∨
    ∃ i σ', σ.grant σ.fresh = true ∧ mountOf name σ ms = some i ∧
      σ.vfsResolveMountpointAndPath name = some (some i, σ') ∧
        HeapStep σ σ' (Function.update σ.heap σ.fresh (some .text)) 1 := by
  unfold vfsResolveMountpointAndPath
  rcases kmalloc_cases .text σ with ⟨hgrant, σ₁, hrun, hs⟩ | ⟨hgrant, σ₁, hrun, hs⟩
  · rw [hrun]
    exact .inl ⟨.inl hgrant, σ₁, rfl, hs⟩
  · have hsame : mountOf name σ₁ ms = mountOf name σ ms := lastMatch_congr fun m hm => by
      obtain ⟨mp, hmp⟩ := h.live m hm
      rw [hs.heap]
      exact Function.update_of_ne (h.lt_fresh hmp).ne _ _
    rw [hrun]
    dsimp only
    rw [(h.text hs).vfsFileToMountpoint, Option.bind_some, hsame]
    rcases hfound : mountOf name σ ms with - | i
    · obtain ⟨σ₂, hfree, hs₂⟩ := kfree_spec (σ := σ₁) (i := σ.fresh) (o := .text) (by
        rw [hs.heap]
        exact Function.update_self ..)
      dsimp only
      rw [hfree]
      refine .inl ⟨.inr rfl, σ₂, rfl, (hs.trans hs₂).congr ?_⟩
      rw [hs.heap, Function.update_idem, ← h.bound σ.fresh le_rfl, Function.update_eq_self]
    · exact .inr ⟨i, σ₁, hgrant, rfl, rfl, hs⟩

/-! ### Opening -/

/-- **`vfs_open`**: `NULL` with nothing allocated, `NULL` with the copy of the name, or a
node with the copy of the name. -/
theorem vfsOpen_cases (h : σ.Inv opens ms) (name : CString) (mode : ℕ) :
    ((σ.grant σ.fresh = false ∨ mountOf name σ ms = none) ∧
      ∃ σ', σ.vfsOpen name mode = some (none, σ') ∧ HeapStep σ σ' σ.heap 1) ∨
    ∃ i mp, σ.grant σ.fresh = true ∧ mountOf name σ ms = some i ∧ σ.heap i = some (.mountpoint mp) ∧
      ((∃ σ', σ.vfsOpen name mode = some (none, σ') ∧
          HeapStep σ σ' (Function.update σ.heap σ.fresh (some .text)) 2) ∨
        ∃ σ', σ.vfsOpen name mode = some (some (σ.fresh + 1), σ') ∧
          HeapStep σ σ' (Function.update (Function.update (Function.update σ.heap σ.fresh (some .text)) (σ.fresh + 1)
            (some (.node ⟨i, mode, 1⟩))) i (some (.mountpoint { mp with refcount := mp.refcount + 1 }))) 2) := by
  unfold vfsOpen
  rcases resolve_cases h name with ⟨hnone, σ₁, hrun, hs⟩ | ⟨i, σ₁, hgrant, hfound, hrun, hs⟩
  · rw [hrun]
    exact .inl ⟨hnone, σ₁, rfl, hs⟩
  · obtain ⟨hmem, mp, hmp⟩ := h.mountOf_live hfound
    have hlt := h.lt_fresh hmp
    have hpos := h.refcount_pos hmp
    refine .inr ⟨i, mp, hgrant, hfound, hmp, ?_⟩
    rw [hrun, Option.bind_some]
    dsimp only
    unfold vfsNodeAlloc
    have hfresh : σ₁.fresh = σ.fresh + 1 := hs.fresh
    rcases kmalloc_cases (.node ⟨i, mode, 1⟩) σ₁ with ⟨-, σ₂, hrun₂, hs₂⟩ | ⟨-, σ₂, hrun₂, hs₂⟩
    · rw [hrun₂]
      exact .inl ⟨σ₂, rfl, (hs.trans hs₂).congr hs.heap⟩
    · have hheap₂ : σ₂.heap = Function.update (Function.update σ.heap σ.fresh (some .text)) (σ.fresh + 1)
          (some (.node ⟨i, mode, 1⟩)) := by rw [hs₂.heap, hs.heap, hfresh]
      have hmp₂ : σ₂.heap i = some (.mountpoint mp) := by
        rw [hheap₂, Function.update_of_ne (by omega), Function.update_of_ne hlt.ne, hmp]
      rw [hrun₂, hfresh]
      dsimp only
      rw [mpInc_spec hmp₂ hpos, Option.map_some, Option.bind_some]
      dsimp only
      -- the node is there and refers to the mountpoint
      obtain ⟨σ₃, hσ₃⟩ : ∃ σ₃, σ₃ = σ₂.setMp i { mp with refcount := mp.refcount + 1 } := ⟨_, rfl⟩
      rw [← hσ₃]
      have hheap₃ : σ₃.heap = Function.update (Function.update (Function.update σ.heap σ.fresh (some .text))
          (σ.fresh + 1) (some (.node ⟨i, mode, 1⟩))) i (some (.mountpoint { mp with refcount := mp.refcount + 1 })) := by
        rw [hσ₃, ← hheap₂]
        rfl
      have hs₃ : HeapStep σ σ₃ σ₃.heap 2 := by
        rw [hσ₃]
        exact (hs.trans hs₂).trans heapStep_setMp
      have hmp₃ : σ₃.heap i = some (.mountpoint { mp with refcount := mp.refcount + 1 }) := by
        rw [hheap₃, Function.update_self]
      have hnode₃ : σ₃.heap (σ.fresh + 1) = some (.node ⟨i, mode, 1⟩) := by
        rw [hheap₃, Function.update_of_ne (by omega), Function.update_self]
      rw [mp?_eq_some.2 hmp₃, Option.bind_some]
      dsimp only
      have hopened : ∀ {τ : Vfs}, HeapStep σ₃ τ σ₃.heap 0 →
          ∃ σ', (τ.vfsSeekIfAppend (σ.fresh + 1)).map (fun σ' => (some (σ.fresh + 1), σ')) =
            some (some (σ.fresh + 1), σ') ∧ HeapStep σ σ' σ₃.heap 2 := fun {τ} hτ => by
        obtain ⟨σ', hseek, hs'⟩ := vfsSeekIfAppend_spec (σ := τ) (by rw [hτ.heap]; exact hnode₃)
          (by rw [hτ.heap]; exact hmp₃)
        exact ⟨σ', by rw [hseek]; rfl, (hs₃.trans (hτ.trans hs')).congr hτ.heap⟩
      have htry := vfsTryOpen_step mp.filesystem.opTable σ₃
      rw [← hheap₃]
      split
      · exact .inr (hopened htry)
      · have hcreate := htry.trans (vfsCreateFileIfNeeded_step mp.filesystem.opTable mode
          (vfsTryOpen mp.filesystem.opTable σ₃).2)
        have hagain : HeapStep σ₃ (if (vfsCreateFileIfNeeded mp.filesystem.opTable mode
              (vfsTryOpen mp.filesystem.opTable σ₃).2).1 = 0 then
            vfsTryOpen mp.filesystem.opTable (vfsCreateFileIfNeeded mp.filesystem.opTable mode
              (vfsTryOpen mp.filesystem.opTable σ₃).2).2
            else (-1, (vfsCreateFileIfNeeded mp.filesystem.opTable mode
              (vfsTryOpen mp.filesystem.opTable σ₃).2).2)).2 σ₃.heap 0 := by
          have hheap := hcreate.heap
          rw [htry.heap] at hheap
          split
          · exact (hcreate.trans (vfsTryOpen_step _ _)).congr hheap
          · exact hcreate.congr htry.heap
        revert hagain
        generalize (if (vfsCreateFileIfNeeded mp.filesystem.opTable mode
              (vfsTryOpen mp.filesystem.opTable σ₃).2).1 = 0 then
            vfsTryOpen mp.filesystem.opTable (vfsCreateFileIfNeeded mp.filesystem.opTable mode
              (vfsTryOpen mp.filesystem.opTable σ₃).2).2
            else (-1, (vfsCreateFileIfNeeded mp.filesystem.opTable mode
              (vfsTryOpen mp.filesystem.opTable σ₃).2).2)) = last
        intro hagain
        split
        · exact .inr (hopened hagain)
        · have hmp₄ : last.2.heap i = some (.mountpoint { mp with refcount := mp.refcount + 1 }) := by
            rw [hagain.heap, hmp₃]
          have hput := mpPut_spec hmp₄ (by dsimp only; omega)
          obtain ⟨σ₅, hfree, hs₅⟩ := kfree_spec (σ := last.2.setMp i { mp with refcount := mp.refcount + 1 - 1 })
            (i := σ.fresh + 1) (o := .node ⟨i, mode, 1⟩) (by
              rw [heapStep_setMp.heap, Function.update_of_ne (by omega), hagain.heap, hnode₃])
          rw [hput, Option.bind_some, hfree]
          refine .inl ⟨σ₅, rfl, (((hs₃.trans hagain).trans heapStep_setMp).trans hs₅).congr ?_⟩
          rw [heapStep_setMp.heap, hagain.heap, hheap₃, Nat.add_sub_cancel]
          funext a
          simp only [Function.update_apply]
          split
          · next ha => rw [if_neg (by omega), ha, h.bound _ (Nat.le_succ _)]
          · split
            · next ha =>
              rw [if_neg (by omega), ha]
              exact hmp.symm
            · rfl

/-- A node, and the reference that it has to its mountpoint. -/
theorem Inv.addNode (h : σ.Inv opens ms) (hmp : σ.heap i = some (.mountpoint mp)) {mode : ℕ}
    (hs : HeapStep σ σ' (Function.update (Function.update σ.heap σ.fresh (some (.node ⟨i, mode, 1⟩))) i
      (some (.mountpoint { mp with refcount := mp.refcount + 1 }))) 1) : σ'.Inv (σ.fresh :: opens) ms := by
  have hlt := h.lt_fresh hmp
  have hother : ∀ a, a ≠ i → a ≠ σ.fresh → σ'.heap a = σ.heap a := fun a hi hf => by
    rw [hs.heap, Function.update_of_ne hi, Function.update_of_ne hf]
  have hmp' : σ'.heap i = some (.mountpoint { mp with refcount := mp.refcount + 1 }) := by
    rw [hs.heap, Function.update_self]
  have hnode' : σ'.heap σ.fresh = some (.node ⟨i, mode, 1⟩) := by
    rw [hs.heap, Function.update_of_ne hlt.ne', Function.update_self]
  -- a mountpoint of the new heap was one, and only its count may differ
  have hold : ∀ m mp', σ'.heap m = some (.mountpoint mp') → ∃ mp₀, σ.heap m = some (.mountpoint mp₀) ∧
      mp'.nextMountpoint = mp₀.nextMountpoint ∧ mp'.filesystem = mp₀.filesystem ∧
        mp'.refcount = mp₀.refcount + if m = i then 1 else 0 := fun m mp' hm => by
    rcases eq_or_ne m i with rfl | hne
    · obtain rfl := KObject.mountpoint.inj (Option.some.inj (hm.symm.trans hmp'))
      exact ⟨mp, hmp, rfl, rfl, by rw [if_pos rfl]⟩
    · rcases eq_or_ne m σ.fresh with rfl | hf
      · exact absurd (hm.symm.trans hnode') (by simp)
      · exact ⟨mp', (hother m hne hf).symm.trans hm, rfl, rfl, by rw [if_neg hne, Nat.add_zero]⟩
  have hkeep : ∀ m mp₀, σ.heap m = some (.mountpoint mp₀) → ∃ mp', σ'.heap m = some (.mountpoint mp') ∧
      mp'.nextMountpoint = mp₀.nextMountpoint := fun m mp₀ hm => by
    rcases eq_or_ne m i with rfl | hne
    · obtain rfl := KObject.mountpoint.inj (Option.some.inj (hm.symm.trans hmp))
      exact ⟨_, hmp', rfl⟩
    · exact ⟨mp₀, (hother m hne (h.lt_fresh hm).ne).trans hm, rfl⟩
  have hnodeold : ∀ n ∈ opens, σ'.heap n = σ.heap n := fun n hn => by
    obtain ⟨nd, -, hnd, -⟩ := h.node n hn
    refine hother n (fun he => ?_) (h.lt_fresh hnd).ne
    rw [he, hmp] at hnd
    exact absurd hnd (by simp)
  have hcount : ∀ m, openOn σ'.heap (σ.fresh :: opens) m = openOn σ.heap opens m + if m = i then 1 else 0 := fun m => by
    have hsame : opens.countP (fun n => nodeMp (σ'.heap n) = some m) =
        opens.countP (fun n => nodeMp (σ.heap n) = some m) :=
      List.countP_congr fun n hn => by rw [hnodeold n hn]
    rw [openOn, List.countP_cons, hsame, hnode', openOn]
    rcases eq_or_ne m i with rfl | hne
    · simp [nodeMp]
    · simp [nodeMp, hne, hne.symm]
  refine ⟨?_, hs.tail.trans h.tail, fun m hm => ?_, fun a ha => ?_, fun m mp' hm => ?_, ?_, fun n hn => ?_,
    fun n nd hn => ?_, fun m mp' hm => ?_⟩
  · rw [hs.head]
    refine h.chain.congr fun m hm => ?_
    obtain ⟨mp₀, hlive⟩ := h.live m hm
    obtain ⟨mp', hlive', hnext⟩ := hkeep m mp₀ hlive
    rw [nextOf_of_heap hlive, nextOf_of_heap hlive', hnext]
  · obtain ⟨mp₀, hlive⟩ := h.live m hm
    obtain ⟨mp', hlive', -⟩ := hkeep m mp₀ hlive
    exact ⟨mp', hlive'⟩
  · rw [hs.fresh] at ha
    rw [hother a (by omega) (by omega), h.bound a (by omega)]
  · obtain ⟨mp₀, hm₀, -, -, href⟩ := hold m mp' hm
    rw [href, hcount, h.count m mp₀ hm₀, Nat.add_assoc]
  · exact List.nodup_cons.2 ⟨fun hin => by
      obtain ⟨nd, -, hnd, -⟩ := h.node _ hin
      exact Nat.lt_irrefl _ (h.lt_fresh hnd), h.nodup⟩
  · rcases List.mem_cons.1 hn with rfl | hin
    · exact ⟨_, _, hnode', hmp'⟩
    · obtain ⟨nd, mp₀, hnd, hm₀⟩ := h.node n hin
      obtain ⟨mp', hm', -⟩ := hkeep _ mp₀ hm₀
      exact ⟨nd, mp', (hnodeold n hin).trans hnd, hm'⟩
  · rcases eq_or_ne n σ.fresh with rfl | hf
    · exact List.mem_cons_self
    · refine List.mem_cons_of_mem _ (h.opened n nd ?_)
      rw [← hother n (fun he => ?_) hf, hn]
      rw [he, hmp'] at hn
      exact absurd hn (by simp)
  · obtain ⟨mp₀, hm₀, -, hfs, -⟩ := hold m mp' hm
    rw [hs.fsList, hfs]
    exact h.fs m mp₀ hm₀

/-- An open that succeeds: the copy of the name, and then the node. -/
theorem Inv.openNode (h : σ.Inv opens ms) (hmp : σ.heap i = some (.mountpoint mp)) {mode : ℕ}
    (hs : HeapStep σ σ' (Function.update (Function.update (Function.update σ.heap σ.fresh (some .text)) (σ.fresh + 1)
      (some (.node ⟨i, mode, 1⟩))) i (some (.mountpoint { mp with refcount := mp.refcount + 1 }))) 2) :
    σ'.Inv ((σ.fresh + 1) :: opens) ms := by
  obtain ⟨σ₁, hσ₁⟩ : ∃ σ₁, σ₁ = ({ σ with heap := Function.update σ.heap σ.fresh (some .text), fresh := σ.fresh + 1 } : Vfs) :=
    ⟨_, rfl⟩
  have hs₁ : HeapStep σ σ₁ (Function.update σ.heap σ.fresh (some .text)) 1 := by
    rw [hσ₁]
    exact ⟨rfl, rfl, rfl, rfl, rfl, rfl⟩
  have hmp₁ : σ₁.heap i = some (.mountpoint mp) := by
    rw [hs₁.heap, Function.update_of_ne (h.lt_fresh hmp).ne, hmp]
  have hs₂ : HeapStep σ₁ σ' (Function.update (Function.update σ₁.heap σ₁.fresh (some (.node ⟨i, mode, 1⟩))) i
      (some (.mountpoint { mp with refcount := mp.refcount + 1 }))) 1 := by
    refine ⟨hs.fsList.trans hs₁.fsList.symm, hs.head.trans hs₁.head.symm, hs.tail.trans hs₁.tail.symm,
      hs.grant.trans hs₁.grant.symm, ?_, ?_⟩
    · rw [hs.heap, hs₁.heap, hs₁.fresh]
    · rw [hs.fresh, hs₁.fresh]
  have hinv := (h.text hs₁).addNode hmp₁ hs₂
  rwa [hs₁.fresh] at hinv

/-! ### Closing -/

/-- **`vfs_close`** of an open node frees it and gives back the reference. -/
theorem vfsClose_spec (h : σ.Inv opens ms) (hn : n ∈ opens) : ∃ nd mp σ', σ.heap n = some (.node nd) ∧
    σ.heap nd.mountpoint = some (.mountpoint mp) ∧ σ.vfsClose n = some (0, σ') ∧
      HeapStep σ σ' (Function.update (Function.update σ.heap nd.mountpoint
        (some (.mountpoint { mp with refcount := mp.refcount - 1 }))) n none) 0 := by
  obtain ⟨nd, mp, hnd, hmp⟩ := h.node n hn
  have hmore : 2 ≤ mp.refcount := by
    have hpos : 0 < openOn σ.heap opens nd.mountpoint := by
      rw [openOn, List.countP_pos_iff]
      exact ⟨n, hn, by rw [hnd]; simp [nodeMp]⟩
    rw [h.count _ mp hmp]
    omega
  have hne : n ≠ nd.mountpoint := fun he => by
    rw [he, hmp] at hnd
    exact absurd hnd (by simp)
  have hclosed : ∀ {τ : Vfs} (e : ℤ), HeapStep σ τ σ.heap 0 → ∃ r σ',
      ((τ.mpPut nd.mountpoint).bind fun σ => (σ.kfree n).map fun σ => (if e = 0 then -1 else e, σ)) = some (r, σ') ∧
        HeapStep σ σ' (Function.update (Function.update σ.heap nd.mountpoint
          (some (.mountpoint { mp with refcount := mp.refcount - 1 }))) n none) 0 := fun {τ} e hτ => by
    obtain ⟨σ', hfree, hs⟩ := kfree_spec (σ := τ.setMp nd.mountpoint { mp with refcount := mp.refcount - 1 })
      (i := n) (o := .node nd) (by rw [heapStep_setMp.heap, Function.update_of_ne hne, hτ.heap, hnd])
    rw [mpPut_spec (by rw [hτ.heap, hmp]) hmore, Option.bind_some, hfree]
    refine ⟨_, σ', rfl, ((hτ.trans heapStep_setMp).trans hs).congr ?_⟩
    rw [heapStep_setMp.heap, hτ.heap]
  refine ⟨nd, mp, ?_⟩
  rw [vfsClose, vfsFreeNode, node?_eq_some.2 hnd, Option.bind_some, mp?_eq_some.2 hmp, Option.bind_some]
  rcases mp.filesystem.opTable.opClose with - | close
  · obtain ⟨r, σ', hrun, hs⟩ := hclosed 0 (.refl σ)
    exact ⟨σ', hnd, hmp, by dsimp only; rw [hrun]; rfl, hs⟩
  · obtain ⟨r, σ', hrun, hs⟩ := hclosed (close σ.clock) heapStep_tick
    exact ⟨σ', hnd, hmp, by dsimp only; rw [hrun]; rfl, hs⟩

/-- A node that was just opened is closed again: of what the open made, the copy of the name is left. -/
theorem Inv.close_opened (h : σ.Inv opens ms) (hmp : σ.heap i = some (.mountpoint mp)) {mode : ℕ}
    (hs : HeapStep σ σ' (Function.update (Function.update (Function.update σ.heap σ.fresh (some .text)) (σ.fresh + 1)
      (some (.node ⟨i, mode, 1⟩))) i (some (.mountpoint { mp with refcount := mp.refcount + 1 }))) 2) :
    ∃ σ₂, σ'.vfsClose (σ.fresh + 1) = some (0, σ₂) ∧
      σ₂.heap = Function.update (Function.update σ.heap σ.fresh (some .text)) (σ.fresh + 1) none := by
  have hlt := h.lt_fresh hmp
  obtain ⟨nd, mp', σ₂, hnd, hmp', hclose, hs₂⟩ := vfsClose_spec (h.openNode hmp hs) List.mem_cons_self
  rw [hs.heap, Function.update_of_ne (by omega), Function.update_self] at hnd
  obtain rfl : ⟨i, mode, 1⟩ = nd := KObject.node.inj (Option.some.inj hnd)
  rw [hs.heap, Function.update_self] at hmp'
  obtain rfl := KObject.mountpoint.inj (Option.some.inj hmp')
  refine ⟨σ₂, hclose, funext fun j => ?_⟩
  rw [hs₂.heap]
  rcases eq_or_ne j (σ.fresh + 1) with rfl | hnode
  · rw [Function.update_self, Function.update_self]
  · rw [Function.update_of_ne hnode, Function.update_of_ne hnode]
    rcases eq_or_ne j i with rfl | hne
    · rw [Function.update_self, Function.update_of_ne (by omega), hmp]
      rfl
    · rw [Function.update_of_ne hne, hs.heap, Function.update_of_ne hne, Function.update_of_ne hnode]

/-- A node is gone, and the reference that it had. -/
theorem Inv.dropNode (h : σ.Inv opens ms) (hk : opens[k]? = some n) (hnd : σ.heap n = some (.node nd))
    (hmp : σ.heap nd.mountpoint = some (.mountpoint mp))
    (hs : HeapStep σ σ' (Function.update (Function.update σ.heap nd.mountpoint
      (some (.mountpoint { mp with refcount := mp.refcount - 1 }))) n none) 0) : σ'.Inv (opens.eraseIdx k) ms := by
  obtain ⟨hklt, hget⟩ := List.getElem?_eq_some_iff.1 hk
  have hperm : (n :: opens.eraseIdx k).Perm opens := hget ▸ List.getElem_cons_eraseIdx_perm hklt
  have hnodup : (n :: opens.eraseIdx k).Nodup := hperm.nodup_iff.2 h.nodup
  have hrest : ∀ a ∈ opens.eraseIdx k, a ∈ opens ∧ a ≠ n := fun a ha =>
    ⟨hperm.subset (List.mem_cons_of_mem _ ha), ne_of_mem_of_not_mem ha (List.nodup_cons.1 hnodup).1⟩
  have hne : nd.mountpoint ≠ n := fun he => by
    rw [he, hnd] at hmp
    exact absurd hmp (by simp)
  have hother : ∀ a, a ≠ nd.mountpoint → a ≠ n → σ'.heap a = σ.heap a := fun a ha hf => by
    rw [hs.heap, Function.update_of_ne hf, Function.update_of_ne ha]
  have hgone : σ'.heap n = none := by rw [hs.heap, Function.update_self]
  have hmp' : σ'.heap nd.mountpoint = some (.mountpoint { mp with refcount := mp.refcount - 1 }) := by
    rw [hs.heap, Function.update_of_ne hne, Function.update_self]
  have hpos := h.refcount_pos hmp
  have hold : ∀ m mp', σ'.heap m = some (.mountpoint mp') → ∃ mp₀, σ.heap m = some (.mountpoint mp₀) ∧
      mp'.filesystem = mp₀.filesystem ∧ mp'.refcount + (if m = nd.mountpoint then 1 else 0) = mp₀.refcount :=
    fun m mp' hm => by
      rcases eq_or_ne m nd.mountpoint with rfl | hne'
      · obtain rfl := KObject.mountpoint.inj (Option.some.inj (hm.symm.trans hmp'))
        refine ⟨mp, hmp, rfl, ?_⟩
        rw [if_pos rfl]
        dsimp only
        omega
      · rcases eq_or_ne m n with rfl | hf
        · exact absurd (hm.symm.trans hgone) (by simp)
        · exact ⟨mp', (hother m hne' hf).symm.trans hm, rfl, by rw [if_neg hne', Nat.add_zero]⟩
  have hkeep : ∀ m mp₀, σ.heap m = some (.mountpoint mp₀) → ∃ mp', σ'.heap m = some (.mountpoint mp') ∧
      mp'.nextMountpoint = mp₀.nextMountpoint := fun m mp₀ hm => by
    rcases eq_or_ne m nd.mountpoint with rfl | hne'
    · obtain rfl := KObject.mountpoint.inj (Option.some.inj (hm.symm.trans hmp))
      exact ⟨_, hmp', rfl⟩
    · refine ⟨mp₀, (hother m hne' fun he => ?_).trans hm, rfl⟩
      rw [he, hnd] at hm
      exact absurd hm (by simp)
  have hnodeold : ∀ a ∈ opens.eraseIdx k, σ'.heap a = σ.heap a := fun a ha => by
    obtain ⟨ha, han⟩ := hrest a ha
    obtain ⟨nd', -, hnd', -⟩ := h.node a ha
    refine hother a (fun he => ?_) han
    rw [he, hmp] at hnd'
    exact absurd hnd' (by simp)
  have hcount : ∀ m, openOn σ'.heap (opens.eraseIdx k) m + (if m = nd.mountpoint then 1 else 0) =
      openOn σ.heap opens m := fun m => by
    have hsame : (opens.eraseIdx k).countP (fun n => nodeMp (σ'.heap n) = some m) =
        (opens.eraseIdx k).countP (fun n => nodeMp (σ.heap n) = some m) :=
      List.countP_congr fun a ha => by rw [hnodeold a ha]
    rw [openOn, hsame, openOn, ← hperm.countP_eq, List.countP_cons, hnd]
    rcases eq_or_ne m nd.mountpoint with rfl | hne'
    · simp [nodeMp]
    · simp [nodeMp, hne', hne'.symm]
  refine ⟨?_, hs.tail.trans h.tail, fun m hm => ?_, fun a ha => ?_, fun m mp' hm => ?_, (List.nodup_cons.1 hnodup).2,
    fun a ha => ?_, fun a nd' ha => ?_, fun m mp' hm => ?_⟩
  · rw [hs.head]
    refine h.chain.congr fun m hm => ?_
    obtain ⟨mp₀, hlive⟩ := h.live m hm
    obtain ⟨mp', hlive', hnext⟩ := hkeep m mp₀ hlive
    rw [nextOf_of_heap hlive, nextOf_of_heap hlive', hnext]
  · obtain ⟨mp₀, hlive⟩ := h.live m hm
    obtain ⟨mp', hlive', -⟩ := hkeep m mp₀ hlive
    exact ⟨mp', hlive'⟩
  · rw [hs.fresh, Nat.add_zero] at ha
    rw [hother a (fun he => ?_) (fun he => ?_), h.bound a ha]
    · exact absurd (h.lt_fresh hmp) (by omega)
    · exact absurd (h.lt_fresh hnd) (by omega)
  · obtain ⟨mp₀, hm₀, -, href⟩ := hold m mp' hm
    have hcount₀ := h.count m mp₀ hm₀
    have := hcount m
    omega
  · obtain ⟨nd', mp₀, hnd', hm₀⟩ := h.node a (hrest a ha).1
    obtain ⟨mp', hm', -⟩ := hkeep _ mp₀ hm₀
    exact ⟨nd', mp', (hnodeold a ha).trans hnd', hm'⟩
  · have han : a ≠ n := fun he => by
      rw [he, hgone] at ha
      exact absurd ha (by simp)
    have hin : a ∈ opens := h.opened a nd' (by
      rw [← hother a (fun he => ?_) han, ha]
      rw [he, hmp'] at ha
      exact absurd ha (by simp))
    exact (List.mem_cons.1 (hperm.symm.subset hin)).resolve_left han
  · obtain ⟨mp₀, hm₀, hfs, -⟩ := hold m mp' hm
    rw [hs.fsList, hfs]
    exact h.fs m mp₀ hm₀

/-! ### Operations that hold a mountpoint -/

/-- **`vfs_create`, `vfs_unlink`, `vfs_mkdir` and `vfs_rmdir`** give back the reference that
they take. -/
theorem vfsPathOp_spec (h : σ.Inv opens ms) (op : VfsOpTbl → Option (ℕ → ℤ)) {name : CString}
    (hshort : flopstrlen name < 256) : ∃ r σ', σ.vfsPathOp op name = some (r, σ') ∧ HeapStep σ σ' σ.heap 0 := by
  rw [vfsPathOp, vfsGetMountpointForCreate, if_neg (by omega), h.vfsFileToMountpoint, Option.bind_some]
  rcases hfound : mountOf name σ ms with - | i
  · exact ⟨-1, σ, rfl, .refl σ⟩
  · obtain ⟨-, mp, hmp⟩ := h.mountOf_live hfound
    have hpos := h.refcount_pos hmp
    dsimp only
    rw [mpInc_spec hmp hpos, Option.map_some, Option.bind_some]
    obtain ⟨σ₁, hσ₁⟩ : ∃ σ₁, σ₁ = σ.setMp i { mp with refcount := mp.refcount + 1 } := ⟨_, rfl⟩
    have hs₁ : HeapStep σ σ₁ (Function.update σ.heap i (some (.mountpoint { mp with refcount := mp.refcount + 1 }))) 0 := by
      rw [hσ₁]
      exact heapStep_setMp
    have hmp₁ : σ₁.heap i = some (.mountpoint { mp with refcount := mp.refcount + 1 }) := by
      rw [hs₁.heap, Function.update_self]
    have hcall := callOp_step (op mp.filesystem.opTable) σ₁
    rw [← hσ₁]
    dsimp only
    rw [mp?_eq_some.2 hmp₁, Option.bind_some, mpPut_spec (by rw [hcall.heap, hmp₁]) (by dsimp only; omega)]
    refine ⟨_, _, rfl, ((hs₁.trans hcall).trans heapStep_setMp).congr ?_⟩
    rw [hcall.heap, hs₁.heap, Function.update_idem, Nat.add_sub_cancel]
    exact (congrArg (Function.update σ.heap i) hmp.symm).trans (Function.update_eq_self i σ.heap)

/-- **`vfs_stat`** leaves the copy of the name when a mountpoint is found. -/
theorem vfsStat_cases (h : σ.Inv opens ms) (path : CString) :
    ((σ.grant σ.fresh = false ∨ mountOf path σ ms = none) ∧
      ∃ r σ', σ.vfsStat path = some (r, σ') ∧ HeapStep σ σ' σ.heap 1) ∨
    ∃ i r σ', σ.grant σ.fresh = true ∧ mountOf path σ ms = some i ∧ σ.vfsStat path = some (r, σ') ∧
      HeapStep σ σ' (Function.update σ.heap σ.fresh (some .text)) 1 := by
  unfold vfsStat
  rcases resolve_cases h path with ⟨hnone, σ₁, hrun, hs⟩ | ⟨i, σ₁, hgrant, hfound, hrun, hs⟩
  · rw [hrun]
    exact .inl ⟨hnone, -1, σ₁, rfl, hs⟩
  · obtain ⟨-, mp, hmp⟩ := h.mountOf_live hfound
    have hmp₁ : σ₁.heap i = some (.mountpoint mp) := by
      rw [hs.heap, Function.update_of_ne (h.lt_fresh hmp).ne, hmp]
    rw [hrun, Option.bind_some]
    dsimp only
    rw [mp?_eq_some.2 hmp₁, Option.map_some]
    have htry := vfsTryOpen_step mp.filesystem.opTable σ₁
    by_cases hopen : (vfsTryOpen mp.filesystem.opTable σ₁).1 = 0
    · rw [if_pos hopen]
      rcases mp.filesystem.opTable.opStat with - | stat
      · exact .inr ⟨i, _, _, hgrant, hfound, rfl, (hs.trans htry).congr hs.heap⟩
      · exact .inr ⟨i, _, _, hgrant, hfound, rfl, (hs.trans (htry.trans heapStep_tick)).congr (htry.heap.trans hs.heap)⟩
    · rw [if_neg hopen]
      exact .inr ⟨i, _, _, hgrant, hfound, rfl, (hs.trans htry).congr hs.heap⟩

end Vfs

end Flopperating
