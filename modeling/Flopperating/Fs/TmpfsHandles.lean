/-
# Open nodes of `tmpflopfs`

A `vfs_node` of the mount keeps a pointer to its `struct tmpfs_node`, which has no count:
`tmpfs_op_unlink` frees the node with its pages and `tmpfs_op_unmount` frees the root, whoever has
them open.  In runs whose unlinks and unmounts free no node that is open, every open node points to
a node that is there, with its pages (`handles_live`).
-/

import Flopperating.Fs.TmpfsTreeRuns

namespace Flopperating

open TmpfsTree

variable {σ σ' : TmpfsTree} {kids : ℕ → List ℕ} {s s' : TreeState} {c : TreeCall} {m n parent : ℕ} {nd pd : TmpfsNode}
  {name : CString} {type : TmpfsNodeType} {mode : ℕ}

/-- Every page of a node has not been freed, and is of one node only. -/
structure TmpfsTree.PagesOwned (σ : TmpfsTree) : Prop where
  kept : ∀ m nd f, σ.heap m = some nd → f ∈ nd.pages → f ∈ σ.frames
  apart : ∀ m m' nd nd' f, σ.heap m = some nd → σ.heap m' = some nd' → f ∈ nd.pages → f ∈ nd'.pages → m = m'

namespace TmpfsTree

/-- Nodes that only lose pages. -/
theorem PagesOwned.of_back (h : σ.PagesOwned) (hback : ∀ m nd f, σ'.heap m = some nd → f ∈ nd.pages →
    ∃ md, σ.heap m = some md ∧ f ∈ md.pages ∧ f ∈ σ'.frames) : σ'.PagesOwned := by
  refine ⟨fun m nd f hm hf => ?_, fun m m' nd nd' f hm hm' hf hf' => ?_⟩
  · obtain ⟨md, -, -, hfr⟩ := hback m nd f hm hf
    exact hfr
  · obtain ⟨md, hmd, hf, -⟩ := hback m nd f hm hf
    obtain ⟨md', hmd', hf', -⟩ := hback m' nd' f hm' hf'
    exact h.apart m m' md md' f hmd hmd' hf hf'

theorem PagesOwned.inserted (h : σ.PagesOwned) (hpd : σ.heap parent = some pd) (hlt : parent < σ.fresh) :
    (σ.inserted type mode parent pd name).PagesOwned := by
  refine h.of_back fun m nd f hm hf => ?_
  rcases heap_inserted_cases hpd hm with rfl | ⟨md, hmd, -, hsame⟩
  · obtain rfl := Option.some.inj (hm.symm.trans (heap_inserted_fresh hlt.ne'))
    exact absurd hf List.not_mem_nil
  · rw [← hsame] at hf
    exact ⟨md, hmd, hf, h.kept m md f hmd hf⟩

theorem PagesOwned.removed (h : σ.PagesOwned) (hn : σ.heap n = some nd) (hrem : σ.Removed n nd σ') : σ'.PagesOwned := by
  refine h.of_back fun m md f hm hf => ?_
  obtain ⟨hne, md₀, hmd₀, -, -, hsame, -⟩ := hrem.of_heap hm
  rw [← hsame] at hf
  refine ⟨md₀, hmd₀, hf, ?_⟩
  rw [hrem.frames, List.mem_filter]
  exact ⟨h.kept m md₀ f hmd₀ hf, decide_eq_true fun hfn => hne (h.apart m n md₀ nd f hmd₀ hn hf hfn)⟩

/-- A node gets new pages. -/
theorem PagesOwned.setNode (h : σ.PagesOwned) (nd' : TmpfsNode) (hn : σ.heap n = some nd) {pages : List ℕ}
    (hpages : nd'.pages = nd.pages ++ pages) (hnew : ∀ f ∈ pages, f ∉ σ.frames) :
    PagesOwned { σ.setNode n nd' with frames := σ.frames ++ pages } := by
  have hself : (σ.setNode n nd').heap n = some nd' := by rw [heap_setNode, Function.update_self]
  have hother : ∀ {i}, i ≠ n → (σ.setNode n nd').heap i = σ.heap i := fun hi => by rw [heap_setNode, Function.update_of_ne hi]
  -- a page of a node is one it had, or a new one of `n`
  have hback : ∀ {m md f}, (σ.setNode n nd').heap m = some md → f ∈ md.pages →
      (∃ md₀, σ.heap m = some md₀ ∧ f ∈ md₀.pages) ∨ m = n ∧ f ∈ pages := fun {m md f} hm hf => by
    by_cases hmn : m = n
    · rw [hmn, hself] at hm
      obtain rfl := Option.some.inj hm
      rw [hpages] at hf
      rcases List.mem_append.1 hf with hf | hf
      · exact .inl ⟨nd, hmn ▸ hn, hf⟩
      · exact .inr ⟨hmn, hf⟩
    · rw [hother hmn] at hm
      exact .inl ⟨md, hm, hf⟩
  refine ⟨fun m md f hm hf => ?_, fun m m' md md' f hm hm' hf hf' => ?_⟩
  · rcases hback hm hf with ⟨md₀, hmd₀, hf⟩ | ⟨-, hf⟩
    · exact List.mem_append_left _ (h.kept m md₀ f hmd₀ hf)
    · exact List.mem_append_right _ hf
  · rcases hback hm hf with ⟨md₀, hmd₀, hf⟩ | ⟨rfl, hf⟩
    · rcases hback hm' hf' with ⟨md₀', hmd₀', hf'⟩ | ⟨rfl, hf'⟩
      · exact h.apart m m' md₀ md₀' f hmd₀ hmd₀' hf hf'
      · exact absurd (h.kept m md₀ f hmd₀ hf) (hnew f hf')
    · rcases hback hm' hf' with ⟨md₀', hmd₀', hf'⟩ | ⟨rfl, -⟩
      · exact absurd (h.kept m' md₀' f hmd₀' hf') (hnew f hf)
      · rfl

end TmpfsTree

/-- A call that frees no open node. -/
def TreeCall.Spares : TreeCall → TreeState → Prop
  | unlink name, s => s.mounted = true → ∀ n, s.tree.tmpfsWalkPath name = some (some n) → n ≠ s.tree.root → n ∉ s.handles
  | unmount, s => s.mounted = true → s.tree.root ∉ s.handles
  | _, _ => True

/-- What the open nodes point to is there. -/
structure TreeState.Held (s : TreeState) : Prop where
  ok : s.Ok
  live : ∀ n ∈ s.handles, ∃ nd, s.tree.heap n = some nd
  pages : s.tree.PagesOwned

theorem TreeState.held_init (grant : ℕ → Bool) : (init grant).Held := by
  have hnone : ∀ {m nd f}, (init grant).tree.heap m = some nd → f ∉ nd.pages := fun {m nd f} hm => by
    obtain ⟨kids, h⟩ := ok_init grant rfl
    obtain rfl : m = 0 := Nat.lt_one_iff.1 (h.bound m nd hm)
    obtain rfl := Option.some.inj hm
    exact List.not_mem_nil
  exact ⟨ok_init grant, fun n hn => absurd hn List.not_mem_nil, fun m nd f hm hf => absurd hf (hnone hm),
    fun m m' nd nd' f hm _ hf => absurd hf (hnone hm)⟩

/-- An operation on names that keeps the open nodes. -/
theorem TreeState.Held.onTree {op : TmpfsTree → Option (ℤ × TmpfsTree)} (h : s.Held)
    (hop : ∀ kids r σ', s.mounted = true → s.tree.Inv kids → op s.tree = some (r, σ') → σ'.PagesOwned ∧
      ∀ n ∈ s.handles, ∀ nd, s.tree.heap n = some nd → ∃ nd', σ'.heap n = some nd')
    (hok : s'.Ok) (hstep : s.onTree op = some s') : s'.Held := by
  unfold TreeState.onTree at hstep
  split_ifs at hstep with hm
  · obtain ⟨kids, hk⟩ := h.ok hm
    obtain ⟨⟨r, σ'⟩, heq, rfl⟩ := Option.map_eq_some_iff.1 hstep
    obtain ⟨hpages, hlive⟩ := hop kids r σ' hm hk heq
    refine ⟨hok, fun n hn => ?_, hpages⟩
    obtain ⟨nd, hnd⟩ := h.live n hn
    exact hlive n hn nd hnd
  · obtain rfl := Option.some.inj hstep
    exact h

/-- What a create leaves. -/
theorem TmpfsTree.Inv.added_pages (hk : σ.Inv kids) (h : σ.PagesOwned) {r : ℤ} (hadd : σ.tmpfsAdd type mode name = some (r, σ')) :
    σ'.PagesOwned ∧ ∀ n nd, σ.heap n = some nd → ∃ nd', σ'.heap n = some nd' := by
  rcases hk.tmpfsAdd_cases hadd with ⟨-, -, rfl⟩ | ⟨parent, pd, -, hpd, -, rfl⟩
  · exact ⟨h, fun n nd hn => ⟨nd, hn⟩⟩
  · refine ⟨h.inserted hpd (hk.bound parent pd hpd), fun n nd hn => ?_⟩
    obtain ⟨c, hc⟩ := heap_inserted_of_heap hpd hn (hk.bound n nd hn).ne
    exact ⟨_, hc⟩

/-- One call. -/
theorem TreeCall.step_held (h : s.Held) (hspares : c.Spares s) (hstep : c.step s = some s') : s'.Held := by
  have hok := TreeCall.step_ok h.ok hstep
  cases c with
  | create name =>
    refine h.onTree (fun kids r σ' _ hk hadd => ?_) hok hstep
    obtain ⟨hpages, hlive⟩ := hk.added_pages h.pages hadd
    exact ⟨hpages, fun n _ => hlive n⟩
  | mkdir name mode =>
    refine h.onTree (fun kids r σ' _ hk hadd => ?_) hok hstep
    obtain ⟨hpages, hlive⟩ := hk.added_pages h.pages hadd
    exact ⟨hpages, fun n _ => hlive n⟩
  | unlink name =>
    refine h.onTree (fun kids r σ' hm hk hunlink => ?_) hok hstep
    obtain ⟨o, hwalk, -⟩ := Option.bind_eq_some_iff.1 hunlink
    rcases hk.unlinked hunlink with ⟨-, rfl⟩ | ⟨n, nd, parent, -, hr, hnd, hpar, -, hrem, -⟩
    · exact ⟨h.pages, fun n _ nd hn => ⟨nd, hn⟩⟩
    · refine ⟨h.pages.removed hnd hrem, fun m hmem md hmd => ?_⟩
      have hroot : n ≠ s.tree.root := fun heq => by
        obtain ⟨rd, hrd, hnone⟩ := hk.root
        rw [heq, hrd] at hnd
        obtain rfl := Option.some.inj hnd
        exact absurd (hnone.symm.trans hpar) (by simp)
      have hne : m ≠ n := fun heq => by
        refine hspares hm n ?_ hroot (heq ▸ hmem)
        rw [hwalk, ← hr, (hk.tmpfsWalkPath_eq_some hwalk).2]
      obtain ⟨c, t, hc⟩ := hrem.heap_of_heap hne hmd
      exact ⟨_, hc⟩
  | rename old new =>
    refine h.onTree (fun kids r σ' _ hk hrename => ?_) hok hstep
    rcases hk.tmpfsOpRename_cases hrename with ⟨-, rfl⟩ | ⟨n, nd, -, -, hnd, rfl⟩
    · exact ⟨h.pages, fun n _ nd hn => ⟨nd, hn⟩⟩
    · have hpages := h.pages.setNode { nd with name := new } hnd (List.append_nil _).symm fun f hf => absurd hf List.not_mem_nil
      rw [List.append_nil] at hpages
      refine ⟨hpages, fun m _ md hmd => ?_⟩
      by_cases hmn : m = n
      · exact ⟨_, by rw [hmn, heap_setNode, Function.update_self]⟩
      · exact ⟨md, by rw [heap_setNode, Function.update_of_ne hmn, hmd]⟩
  | vopen name creates =>
    rw [TreeCall.step] at hstep
    split_ifs at hstep with hm
    · obtain ⟨kids, hk⟩ := h.ok hm
      obtain ⟨⟨o, σ'⟩, heq, rfl⟩ := Option.map_eq_some_iff.1 hstep
      obtain ⟨kids', hk'⟩ := hok hm
      rcases hk.tmpfsOpen_cases heq with ⟨rfl, rfl⟩ | ⟨-, -, r, hcreate, hfound⟩
      · refine ⟨hok, fun n hn => ?_, h.pages⟩
        rcases List.mem_append.1 hn with hn | hn
        · exact hk.resolve_live (Option.mem_toList.1 hn)
        · exact h.live n hn
      · obtain ⟨hpages, hlive⟩ := hk.added_pages h.pages hcreate
        refine ⟨hok, fun n hn => ?_, hpages⟩
        rcases List.mem_append.1 hn with hn | hn
        · exact hk'.resolve_live (hfound kids' hk' n (Option.mem_toList.1 hn))
        · obtain ⟨nd, hnd⟩ := h.live n hn
          exact hlive n nd hnd
    · obtain rfl := Option.some.inj hstep
      exact h
  | close k =>
    obtain rfl := Option.some.inj hstep
    exact ⟨hok, fun n hn => h.live n (List.mem_of_mem_eraseIdx hn), h.pages⟩
  | access k pages =>
    rw [TreeCall.step] at hstep
    cases hk : s.handles[k]? with
    | none =>
      rw [hk] at hstep
      obtain rfl := Option.some.inj hstep
      exact h
    | some n =>
      simp only [hk] at hstep
      split_ifs at hstep with hany
      obtain ⟨nd, hnd, rfl⟩ := Option.map_eq_some_iff.1 hstep
      refine ⟨hok, fun m hm => ?_, h.pages.setNode { nd with pages := nd.pages ++ pages } hnd rfl fun f hf hfr => hany (List.any_eq_true.2 ⟨f, hf, decide_eq_true hfr⟩)⟩
      obtain ⟨md, hmd⟩ := h.live m hm
      by_cases hmn : m = n
      · rw [hmn]
        exact ⟨_, Function.update_self ..⟩
      · exact ⟨md, (Function.update_of_ne hmn _ _).trans hmd⟩
  | unmount =>
    rw [TreeCall.step] at hstep
    split_ifs at hstep with hm
    · obtain rfl := Option.some.inj hstep
      refine ⟨hok, fun n hn => ?_, h.pages.of_back fun m nd f hm' hf => ?_⟩
      · obtain ⟨nd, hnd⟩ := h.live n hn
        exact ⟨nd, (Function.update_of_ne (ne_of_mem_of_not_mem hn (hspares hm)) _ _).trans hnd⟩
      · have hne : m ≠ s.tree.root := fun heq => by
          rw [heq] at hm'
          exact absurd ((Function.update_self ..).symm.trans hm') (by simp)
        have hm' := (Function.update_of_ne hne _ _).symm.trans hm'
        exact ⟨nd, hm', hf, h.pages.kept m nd f hm' hf⟩
    · obtain rfl := Option.some.inj hstep
      exact h

/-- **No open node dangles** when no unlink or unmount frees an open one: each points to a node
that is there, and none of its pages has been given back. -/
theorem handles_live (grant : ℕ → Bool) (calls : List TreeCall) (hspares : treeAlong TreeCall.Spares calls (.init grant))
    (hrun : treeRun calls (.init grant) = some s) :
    ∀ n ∈ s.handles, ∃ nd, s.tree.heap n = some nd ∧ ∀ f ∈ nd.pages, f ∈ s.tree.frames := by
  have h : s.Held := treeRun_induction (fun _ _ _ h hspares hstep => TreeCall.step_held h hspares hstep)
    (TreeState.held_init grant) hspares hrun
  intro n hn
  obtain ⟨nd, hnd⟩ := h.live n hn
  exact ⟨nd, hnd, fun f => h.pages.kept n nd f hnd⟩

theorem handles_live_root : ∃ s, treeRun [.vopen [] false, .access 0 [7]] (.init fun _ => true) = some s ∧ s.handles = [0] ∧
    ∀ n ∈ s.handles, ∃ nd, s.tree.heap n = some nd ∧ ∀ f ∈ nd.pages, f ∈ s.tree.frames := by
  have hrun : treeRun [.vopen [] false, .access 0 [7]] (.init fun _ => true) = some _ := rfl
  exact ⟨_, hrun, rfl, handles_live (fun _ => true) [.vopen [] false, .access 0 [7]] ⟨trivial, fun _ _ => ⟨trivial, fun _ _ => trivial⟩⟩ hrun⟩

/-- Unlinking an open file frees what it points to. -/
theorem not_handles_live : ¬ ∀ (grant : ℕ → Bool) (calls : List TreeCall) (s : TreeState), treeRun calls (.init grant) = some s →
    ∀ n ∈ s.handles, ∃ nd, s.tree.heap n = some nd ∧ ∀ f ∈ nd.pages, f ∈ s.tree.frames := by
  intro hall
  obtain ⟨s, hcreate, hm, hroot, hhandles, hold⟩ : ∃ s, (TreeCall.create nameX).step (.init fun _ => true) = some s ∧
      s.mounted = true ∧ s.tree.root = 0 ∧ s.handles = [] ∧ s.tree.tmpfsWalkPath nameX = some (some 1) := by
    refine ⟨_, rfl, rfl, rfl, rfl, ?_⟩
    rw [tmpfsWalkPath, if_neg (by decide), if_neg (by decide), tmpfsWalkFrom]
    rfl
  obtain ⟨kids, h⟩ := TreeCall.step_ok (TreeState.ok_init _) hcreate hm
  have hr := (h.tmpfsWalkPath_eq_some hold).2
  rcases h.tmpfsOpUnlink_cases (show flopstrlen nameX < vfsMaxFileName by decide) with ⟨-, honly⟩ | ⟨n, nd, parent, σ', hop, hr', -, -, -, hrem, -⟩
  · exact absurd (honly 1 hr) (by rw [hroot]; decide)
  · obtain rfl : 1 = n := Option.some.inj (hr.symm.trans hr')
    have hopen : (TreeCall.vopen nameX false).step s = some { s with handles := [1] } := by
      rw [TreeCall.step, if_pos hm, tmpfsOpen, hold, hhandles]
      rfl
    have hunlink : (TreeCall.unlink nameX).step { s with handles := [1] } = some ⟨σ', s.mounted, [1]⟩ := by
      rw [TreeCall.step, TreeState.onTree, if_pos hm, hop]
      rfl
    obtain ⟨nd', hnd', -⟩ := hall (fun _ => true) [.create nameX, .vopen nameX false, .unlink nameX] ⟨σ', s.mounted, [1]⟩ (by
      rw [treeRun, hcreate, Option.bind_some, treeRun, hopen, Option.bind_some, treeRun, hunlink]
      rfl) 1 List.mem_cons_self
    exact absurd (hrem.gone.symm.trans hnd') (by simp)

end Flopperating
