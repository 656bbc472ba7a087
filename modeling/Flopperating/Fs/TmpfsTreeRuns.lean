/-
# The tree over whole runs

Nothing in `tmpflopfs` looks before it changes the tree: a create does not ask whether the name
exists or the parent is a directory, an unlink not whether the node has children, a rename not
whether a sibling has the new name.  In runs whose calls are `Tidy` in this respect the nodes form
a tree with distinct names and nothing is lost (`tree_well_formed`).

An open node points to its `struct tmpfs_node` without a count.  No open node dangles in runs whose
unlinks and unmounts are of nodes that are not open (`handles_live`).
-/

import Mathlib.Data.Set.Finite.Basic
import Flopperating.Fs.TmpfsRename

namespace Flopperating
namespace TmpfsTree

open LinkedList

variable {σ σ' : TmpfsTree} {kids : ℕ → List ℕ} {d i m n parent : ℕ} {nd nd' pd : TmpfsNode} {path name old new : CString}
  {type : TmpfsNodeType} {mode : ℕ}

/-! ### A well-formed tree -/

/-- The node is reached from the root by `children` and `next_sibling`. -/
inductive Attached (σ : TmpfsTree) : ℕ → Prop
  | root : Attached σ σ.root
  | child {d m : ℕ} {nd : TmpfsNode} : Attached σ d → σ.heap d = some nd → Linked σ.nextOf nd.children m → Attached σ m

/-- The attached nodes are a finite tree with right parents and distinct names, only directories
have children, and every node and page of the mount belongs to it. -/
structure WellFormed (σ : TmpfsTree) : Prop where
  root : ∃ nd, σ.heap σ.root = some nd ∧ nd.parent = none
  children : ∀ d, Attached σ d → ∃ nd l, σ.heap d = some nd ∧ Chain σ.nextOf nd.children l ∧ (l.map σ.nameOf).Nodup ∧
    (l ≠ [] → nd.type = .dir) ∧ ∀ m ∈ l, ∃ md, σ.heap m = some md ∧ md.parent = some d
  finite : {m | Attached σ m}.Finite
  nodes : ∀ m nd, σ.heap m = some nd → Attached σ m
  pages : ∀ f ∈ σ.frames, ∃ m nd, Attached σ m ∧ σ.heap m = some nd ∧ f ∈ nd.pages

/-- What tidy calls keep. -/
structure Tidy (σ : TmpfsTree) (kids : ℕ → List ℕ) : Prop where
  inv : σ.Inv kids
  names : ∀ d a b, a ∈ kids d → b ∈ kids d → σ.nameOf a = σ.nameOf b → a = b
  dirs : ∀ d nd, σ.heap d = some nd → kids d ≠ [] → nd.type = .dir
  hung : ∀ m nd, σ.heap m = some nd → m = σ.root ∨ ∃ p pd, nd.parent = some p ∧ σ.heap p = some pd
  pages : ∀ f ∈ σ.frames, ∃ m nd, σ.heap m = some nd ∧ f ∈ nd.pages

/-- Every node hangs on the root, by induction on its number: its parent is older. -/
theorem Tidy.attached (h : σ.Tidy kids) (hm : σ.heap m = some nd) : Attached σ m := by
  induction m using Nat.strong_induction_on generalizing nd with
  | h m ih =>
    rcases h.hung m nd hm with rfl | ⟨p, pd, hpar, hpd⟩
    · exact .root
    · exact .child (ih p (h.inv.older m nd p hm hpar) hpd) hpd
        ((h.inv.chain p pd hpd).linked (h.inv.listed m nd p pd hm hpar hpd))

theorem Inv.attached_live (h : σ.Inv kids) (ha : Attached σ m) : ∃ nd, σ.heap m = some nd := by
  induction ha with
  | root => exact ⟨_, h.root.choose_spec.1⟩
  | child _ hd hlink _ =>
    obtain ⟨nd, hnd, -⟩ := h.kid_live ((h.chain _ _ hd).linked_iff.1 hlink)
    exact ⟨nd, hnd⟩

theorem Tidy.wellFormed (h : σ.Tidy kids) : σ.WellFormed where
  root := h.inv.root
  children d hd := by
    obtain ⟨nd, hnd⟩ := h.inv.attached_live hd
    refine ⟨nd, kids d, hnd, h.inv.chain d nd hnd, ?_, h.dirs d nd hnd, fun m hm => h.inv.kid_live hm⟩
    exact (List.nodup_map_iff_inj_on (h.inv.nodup d)).2 fun a ha b hb => h.names d a b ha hb
  finite := (Set.finite_lt_nat σ.fresh).subset fun m hm => by
    obtain ⟨nd, hnd⟩ := h.inv.attached_live hm
    exact h.inv.bound m nd hnd
  nodes m nd hm := h.attached hm
  pages f hf := by
    obtain ⟨m, nd, hm, hmem⟩ := h.pages f hf
    exact ⟨m, nd, h.attached hm, hm, hmem⟩

/-! ### The operations -/

/-- A new entry of the name fits: its parent is a directory without such an entry. -/
def Vacant (σ : TmpfsTree) (name : CString) : Prop :=
  ∀ parent pd, σ.tmpfsWalkPath (dirPath name) = some (some parent) → σ.heap parent = some pd →
    pd.type = .dir ∧ ∀ m md, σ.heap m = some md → md.parent = some parent → md.name ≠ fileName name

/-- The node to be unlinked has no children. -/
def Childless (σ : TmpfsTree) (name : CString) : Prop :=
  ∀ n nd, σ.tmpfsWalkPath name = some (some n) → σ.heap n = some nd → nd.parent ≠ none → nd.children = none

/-- No sibling of the node to be renamed has the new name. -/
def Unnamed (σ : TmpfsTree) (old new : CString) : Prop :=
  ∀ n nd parent, σ.tmpfsWalkPath old = some (some n) → σ.heap n = some nd → nd.parent = some parent →
    ∀ m md, σ.heap m = some md → md.parent = some parent → m ≠ n → md.name ≠ new

theorem Tidy.inserted (h : σ.Tidy kids) (hpd : σ.heap parent = some pd) (hdir : pd.type = .dir)
    (hfree : ∀ m md, σ.heap m = some md → md.parent = some parent → md.name ≠ name) :
    (σ.inserted type mode parent pd name).Tidy (σ.insertKid parent kids) := by
  have hne : σ.fresh ≠ parent := (h.inv.bound parent pd hpd).ne'
  have hother : ∀ {d m}, m ∈ kids d → m ≠ σ.fresh := fun hm => ne_of_mem_of_not_mem hm (h.inv.fresh_not_mem _)
  have hold : ∀ {m}, m ∈ kids parent → σ.nameOf m ≠ some name := fun hm => by
    obtain ⟨md, hmd, hpar⟩ := h.inv.kid_live hm
    rw [nameOf_of_heap hmd]
    exact fun heq => hfree _ md hmd hpar (Option.some.inj heq)
  refine ⟨h.inv.inserted hpd, fun d a b ha hb heq => ?_, fun d dd hd hkids => ?_, fun m md hm => ?_, fun f hf => ?_⟩
  · rw [nameOf_inserted hpd hne, nameOf_inserted hpd hne] at heq
    rcases mem_insertKid.1 ha with ⟨hdp, rfl⟩ | ha'
    · rcases mem_insertKid.1 hb with ⟨-, rfl⟩ | hb'
      · rfl
      · rw [if_pos rfl, if_neg (hother hb')] at heq
        exact absurd heq.symm (hold (hdp ▸ hb'))
    · rcases mem_insertKid.1 hb with ⟨hdp, rfl⟩ | hb'
      · rw [if_pos rfl, if_neg (hother ha')] at heq
        exact absurd heq (hold (hdp ▸ ha'))
      · rw [if_neg (hother ha'), if_neg (hother hb')] at heq
        exact h.names d a b ha' hb' heq
  · by_cases hdp : d = parent
    · subst hdp
      obtain rfl := Option.some.inj (hd.symm.trans heap_inserted_parent)
      exact hdir
    · rw [insertKid, Function.update_of_ne hdp] at hkids
      have hdf : d ≠ σ.fresh := fun heq => hkids (by rw [heq, h.inv.kids_eq_nil h.inv.heap_fresh])
      rw [heap_inserted_of_ne hdp hdf] at hd
      exact h.dirs d dd hd hkids
  · rcases heap_inserted_cases hpd hm with rfl | ⟨md', hmd', hsame, -⟩
    · obtain rfl := Option.some.inj (hm.symm.trans (heap_inserted_fresh hne))
      exact .inr ⟨parent, _, rfl, heap_inserted_parent⟩
    · rcases h.hung m md' hmd' with hroot | ⟨p, qd, hpar, hqd⟩
      · exact .inl hroot
      · obtain ⟨c, hc⟩ := heap_inserted_of_heap hpd hqd (h.inv.bound p qd hqd).ne
        exact .inr ⟨p, _, hsame.symm.trans hpar, hc⟩
  · obtain ⟨m, md, hm, hmem⟩ := h.pages f hf
    obtain ⟨c, hc⟩ := heap_inserted_of_heap hpd hm (h.inv.bound m md hm).ne
    exact ⟨m, _, hc, hmem⟩

theorem Tidy.removed (h : σ.Tidy kids) (hn : σ.heap n = some nd) (hnone : nd.children = none)
    (hrem : σ.Removed n nd σ') (hinv : σ'.Inv (removeKid n parent kids)) : σ'.Tidy (removeKid n parent kids) := by
  have hnil : kids n = [] := by
    have hchain := h.inv.chain n nd hn
    rw [hnone] at hchain
    exact LinkedList.Chain.unique hchain rfl
  have hkids : ∀ {d m}, m ∈ removeKid n parent kids d → m ∈ kids d := fun hm => ((mem_removeKid (h.inv.nodup parent)).1 hm).2.1
  have hname : ∀ {d m}, m ∈ removeKid n parent kids d → σ'.nameOf m = σ.nameOf m := fun hm => by
    obtain ⟨md, hmd, -⟩ := hinv.kid_live hm
    obtain ⟨-, md₀, hmd₀, -, hsame, -⟩ := hrem.of_heap hmd
    rw [nameOf_of_heap hmd, nameOf_of_heap hmd₀, hsame]
  refine ⟨hinv, fun d a b ha hb heq => ?_, fun d dd hd hne => ?_, fun m md hm => ?_, fun f hf => ?_⟩
  · rw [hname ha, hname hb] at heq
    exact h.names d a b (hkids ha) (hkids hb) heq
  · obtain ⟨-, dd₀, hdd₀, -, -, -, htype⟩ := hrem.of_heap hd
    obtain ⟨m, hm⟩ := List.exists_mem_of_ne_nil _ hne
    rw [← htype]
    exact h.dirs d dd₀ hdd₀ (List.ne_nil_of_mem (hkids hm))
  · obtain ⟨-, md₀, hmd₀, hpar₀, -⟩ := hrem.of_heap hm
    rcases h.hung m md₀ hmd₀ with hroot | ⟨p, qd, hpar, hqd⟩
    · exact .inl (hroot.trans hrem.root.symm)
    · have hpn : p ≠ n := fun heq => by
        have hlisted := h.inv.listed m md₀ p qd hmd₀ hpar hqd
        rw [heq, hnil] at hlisted
        exact absurd hlisted List.not_mem_nil
      obtain ⟨c, s, hc⟩ := hrem.heap_of_heap hpn hqd
      exact .inr ⟨p, _, hpar₀.symm.trans hpar, hc⟩
  · rw [hrem.frames, List.mem_filter] at hf
    obtain ⟨m, md, hm, hpage⟩ := h.pages f hf.1
    have hmn : m ≠ n := fun heq => by
      rw [heq, hn] at hm
      obtain rfl := Option.some.inj hm
      exact of_decide_eq_true hf.2 hpage
    obtain ⟨c, s, hc⟩ := hrem.heap_of_heap hmn hm
    exact ⟨m, _, hc, hpage⟩

/-- A node is written without its links and its type. -/
theorem Tidy.setNode (h : σ.Tidy kids) (nd' : TmpfsNode) (hn : σ.heap n = some nd) (hlinks : linksOf nd' = linksOf nd) (htype : nd'.type = nd.type)
    (hfree : nd'.name = nd.name ∨ ∀ parent, n ∈ kids parent → ∀ m ∈ kids parent, m ≠ n → σ.nameOf m ≠ some nd'.name)
    (pages : List ℕ) (hpages : nd'.pages = nd.pages ++ pages) :
    Tidy { σ.setNode n nd' with frames := σ.frames ++ pages } kids := by
  have hself : (σ.setNode n nd').heap n = some nd' := by rw [heap_setNode, Function.update_self]
  have hother : ∀ {i}, i ≠ n → (σ.setNode n nd').heap i = σ.heap i := fun hi => by rw [heap_setNode, Function.update_of_ne hi]
  have hback : ∀ {i md}, (σ.setNode n nd').heap i = some md → ∃ md₀, σ.heap i = some md₀ ∧ md₀.parent = md.parent ∧
      md₀.type = md.type := fun {i md} hi => by
    by_cases hin : i = n
    · subst hin
      obtain rfl := Option.some.inj (hself.symm.trans hi)
      exact ⟨nd, hn, (congrArg Prod.fst hlinks).symm, htype.symm⟩
    · rw [hother hin] at hi
      exact ⟨md, hi, rfl, rfl⟩
  have hname : ∀ {i}, i ≠ n → (σ.setNode n nd').nameOf i = σ.nameOf i := fun hi => by rw [nameOf, hother hi, nameOf]
  refine ⟨h.inv.of_links (sameLinks_setNode hn hlinks) rfl rfl, fun d a b ha hb heq => ?_, fun d dd hd hne => ?_,
    fun m md hm => ?_, fun f hf => ?_⟩
  · have heq : (σ.setNode n nd').nameOf a = (σ.setNode n nd').nameOf b := heq
    have hn' := nameOf_of_heap hself
    rcases hfree with hsame | hfree
    · have hall : ∀ i, (σ.setNode n nd').nameOf i = σ.nameOf i := fun i => by
        by_cases hin : i = n
        · rw [hin, hn', hsame, nameOf_of_heap hn]
        · exact hname hin
      rw [hall, hall] at heq
      exact h.names d a b ha hb heq
    · by_cases han : a = n
      · by_cases hbn : b = n
        · exact han.trans hbn.symm
        · rw [han, hn', hname hbn] at heq
          exact absurd heq.symm (hfree d (han ▸ ha) b hb hbn)
      · by_cases hbn : b = n
        · rw [hbn, hn', hname han] at heq
          exact absurd heq (hfree d (hbn ▸ hb) a ha han)
        · rw [hname han, hname hbn] at heq
          exact h.names d a b ha hb heq
  · obtain ⟨dd₀, hdd₀, -, hsame⟩ := hback hd
    rw [← hsame]
    exact h.dirs d dd₀ hdd₀ hne
  · obtain ⟨md₀, hmd₀, hsame, -⟩ := hback hm
    rcases h.hung m md₀ hmd₀ with hroot | ⟨p, qd, hpar, hqd⟩
    · exact .inl hroot
    · by_cases hpn : p = n
      · exact .inr ⟨p, nd', hsame.symm.trans hpar, hpn ▸ hself⟩
      · exact .inr ⟨p, qd, hsame.symm.trans hpar, (hother hpn).trans hqd⟩
  · rcases List.mem_append.1 hf with hf | hf
    · obtain ⟨m, md, hm, hmem⟩ := h.pages f hf
      by_cases hmn : m = n
      · rw [hmn, hn] at hm
        obtain rfl := Option.some.inj hm
        exact ⟨n, nd', hself, by rw [hpages]; exact List.mem_append_left _ hmem⟩
      · exact ⟨m, md, (hother hmn).trans hm, hmem⟩
    · exact ⟨n, nd', hself, by rw [hpages]; exact List.mem_append_right _ hf⟩

theorem Tidy.added (h : σ.Tidy kids) {r : ℤ} (hfree : Vacant σ name) (hadd : σ.tmpfsAdd type mode name = some (r, σ')) :
    ∃ kids', σ'.Tidy kids' := by
  rcases h.inv.tmpfsAdd_cases hadd with ⟨-, -, rfl⟩ | ⟨parent, pd, hr, hpd, -, rfl⟩
  · exact ⟨kids, h⟩
  · have hdir : flopstrlen (dirPath name) < vfsMaxFileName := by
      by_contra hlong
      rw [tmpfsAdd, if_pos (.inl (Nat.lt_succ_of_le (Nat.not_lt.1 hlong)))] at hadd
      exact absurd hadd (by simp)
    obtain ⟨hd, hn⟩ := hfree parent pd (by rw [h.inv.tmpfsWalkPath_eq hdir, hr]) hpd
    exact ⟨_, h.inserted hpd hd hn⟩

theorem Tidy.unlinked (h : σ.Tidy kids) {r : ℤ} (hchildless : Childless σ name) (hunlink : σ.tmpfsOpUnlink name = some (r, σ')) :
    ∃ kids', σ'.Tidy kids' := by
  obtain ⟨o, hwalk, -⟩ := Option.bind_eq_some_iff.1 hunlink
  rcases h.inv.unlinked hunlink with ⟨-, rfl⟩ | ⟨n, nd, parent, -, hr, hnd, hpar, -, hrem, hinv⟩
  · exact ⟨kids, h⟩
  · have hnone := hchildless n nd (by rw [hwalk, ← hr, (h.inv.tmpfsWalkPath_eq_some hwalk).2]) hnd (by rw [hpar]; simp)
    exact ⟨_, h.removed hnd hnone hrem hinv⟩

theorem Tidy.renamed (h : σ.Tidy kids) {r : ℤ} (hunnamed : Unnamed σ old new) (hrename : σ.tmpfsOpRename old new = some (r, σ')) :
    ∃ kids', σ'.Tidy kids' := by
  obtain ⟨o, hwalk, -⟩ := Option.bind_eq_some_iff.1 hrename
  rcases h.inv.tmpfsOpRename_cases hrename with ⟨-, rfl⟩ | ⟨n, nd, -, hr, hnd, rfl⟩
  · exact ⟨kids, h⟩
  · have hset := h.setNode { nd with name := new } hnd rfl rfl (.inr fun parent hn m hm hne => ?_) [] (List.append_nil _).symm
    · rw [List.append_nil] at hset
      exact ⟨kids, hset⟩
    · obtain ⟨nd', hnd', hpar⟩ := h.inv.kid_live hn
      obtain rfl := Option.some.inj (hnd.symm.trans hnd')
      obtain ⟨md, hmd, hmpar⟩ := h.inv.kid_live hm
      rw [nameOf_of_heap hmd]
      exact fun heq => hunnamed n nd parent (by rw [hwalk, ← hr, (h.inv.tmpfsWalkPath_eq_some hwalk).2]) hnd hpar m md hmd hmpar
        hne (Option.some.inj heq)

end TmpfsTree

open TmpfsTree LinkedList

variable {s s' : TreeState} {c : TreeCall} {calls : List TreeCall}

/-! ### Runs -/

/-- Every call of a run meets a condition. -/
def treeAlong (P : TreeCall → TreeState → Prop) : List TreeCall → TreeState → Prop
  | [], _ => True
  | c :: calls, s => P c s ∧ ∀ s', c.step s = some s' → treeAlong P calls s'

/-- What one call keeps, a run of such calls keeps. -/
theorem treeRun_induction {P : TreeCall → TreeState → Prop} {I : TreeState → Prop}
    (hstep : ∀ c s s', I s → P c s → c.step s = some s' → I s') (h : I s) (hall : treeAlong P calls s)
    (hrun : treeRun calls s = some s') : I s' := by
  induction calls generalizing s with
  | nil =>
    obtain rfl := Option.some.inj hrun
    exact h
  | cons c calls ih =>
    obtain ⟨t, ht, hrun⟩ := Option.bind_eq_some_iff.1 hrun
    exact ih (hstep c s t h hall.1 ht) (hall.2 t ht) hrun

/-- A call that looks before it changes the tree. -/
def TreeCall.Looks : TreeCall → TreeState → Prop
  | create name, s => Vacant s.tree name
  | mkdir name _, s => Vacant s.tree name
  | vopen name creates, s => creates = true → s.tree.tmpfsWalkPath name = some none → Vacant s.tree name
  | unlink name, s => Childless s.tree name
  | rename old new, s => Unnamed s.tree old new
  | _, _ => True

def TreeState.Tidy (s : TreeState) : Prop := s.mounted = true → ∃ kids, s.tree.Tidy kids

theorem TreeState.tidy_init (grant : ℕ → Bool) : (init grant).Tidy := fun _ => by
  obtain ⟨kids, h⟩ := ok_init grant rfl
  have honly : ∀ {m nd}, (init grant).tree.heap m = some nd → m = 0 := fun {m nd} hm => Nat.lt_one_iff.1 (h.bound m nd hm)
  have hnone : ∀ d m, m ∉ kids d := fun d m hm => by
    obtain ⟨nd, hnd, -⟩ := h.kid_live hm
    have hlt := h.kid_lt hm
    rw [honly hnd] at hlt
    exact absurd hlt (Nat.not_lt_zero d)
  exact ⟨kids, h, fun d a b ha => absurd ha (hnone d a), fun d nd _ hne =>
    absurd (List.eq_nil_iff_forall_not_mem.2 (hnone d)) hne, fun m nd hm => .inl (honly hm), fun f hf => absurd hf List.not_mem_nil⟩

theorem TreeState.Tidy.onTree {op : TmpfsTree → Option (ℤ × TmpfsTree)} (h : s.Tidy)
    (hop : ∀ kids r σ', s.tree.Tidy kids → op s.tree = some (r, σ') → ∃ kids', σ'.Tidy kids') (hstep : s.onTree op = some s') :
    s'.Tidy := by
  unfold TreeState.onTree at hstep
  split_ifs at hstep with hm
  · obtain ⟨kids, hk⟩ := h hm
    obtain ⟨⟨r, σ'⟩, heq, rfl⟩ := Option.map_eq_some_iff.1 hstep
    exact fun _ => hop kids r σ' hk heq
  · obtain rfl := Option.some.inj hstep
    exact h

/-- One call. -/
theorem TreeCall.step_tidy (h : s.Tidy) (hlooks : c.Looks s) (hstep : c.step s = some s') : s'.Tidy := by
  cases c with
  | create name => exact h.onTree (fun kids r σ' hk => hk.added hlooks) hstep
  | mkdir name mode => exact h.onTree (fun kids r σ' hk => hk.added hlooks) hstep
  | unlink name => exact h.onTree (fun kids r σ' hk => hk.unlinked hlooks) hstep
  | rename old new => exact h.onTree (fun kids r σ' hk => hk.renamed hlooks) hstep
  | vopen name creates =>
    rw [TreeCall.step] at hstep
    split_ifs at hstep with hm
    · obtain ⟨kids, hk⟩ := h hm
      obtain ⟨⟨o, σ'⟩, heq, rfl⟩ := Option.map_eq_some_iff.1 hstep
      obtain ⟨found, hwalk, -⟩ := Option.bind_eq_some_iff.1 heq
      rcases hk.inv.tmpfsOpen_cases heq with ⟨rfl, -⟩ | ⟨hcreates, hr, r, hcreate, -⟩
      · exact fun _ => ⟨kids, hk⟩
      · have hnull : s.tree.tmpfsWalkPath name = some none := by
          rw [hwalk, ← hr, (hk.inv.tmpfsWalkPath_eq_some hwalk).2]
        exact fun _ => hk.added (hlooks hcreates hnull) hcreate
    · obtain rfl := Option.some.inj hstep
      exact h
  | close k =>
    obtain rfl := Option.some.inj hstep
    exact h
  | access k pages =>
    rw [TreeCall.step] at hstep
    cases hk : s.handles[k]? with
    | none =>
      rw [hk] at hstep
      obtain rfl := Option.some.inj hstep
      exact h
    | some n =>
      simp only [hk] at hstep
      split_ifs at hstep
      obtain ⟨nd, hnd, rfl⟩ := Option.map_eq_some_iff.1 hstep
      intro hm
      obtain ⟨kids, hk⟩ := h hm
      exact ⟨kids, hk.setNode { nd with pages := nd.pages ++ pages } hnd rfl rfl (.inl rfl) pages rfl⟩
  | unmount =>
    rw [TreeCall.step] at hstep
    split_ifs at hstep with hm
    · obtain rfl := Option.some.inj hstep
      exact fun hm => absurd hm (by simp)
    · obtain rfl := Option.some.inj hstep
      exact h

/-- **The nodes form a tree, and nothing is lost**, when the creates are of vacant names in
directories, the unlinks of nodes without children and the renames to names no sibling has. -/
theorem tree_well_formed (grant : ℕ → Bool) (calls : List TreeCall) (hlooks : treeAlong TreeCall.Looks calls (.init grant))
    (hrun : treeRun calls (.init grant) = some s) (hm : s.mounted = true) : s.tree.WellFormed := by
  obtain ⟨kids, h⟩ := treeRun_induction (fun _ _ _ h hlooks hstep => TreeCall.step_tidy h hlooks hstep)
    (TreeState.tidy_init grant) hlooks hrun hm
  exact h.wellFormed

theorem tree_well_formed_one : ∃ s, treeRun [.create nameX] (.init fun _ => true) = some s ∧ s.tree.WellFormed := by
  have hrun : treeRun [.create nameX] (.init fun _ => true) = some _ := rfl
  refine ⟨_, hrun, tree_well_formed (fun _ => true) [.create nameX] ⟨fun parent pd hwalk hpd => ?_, fun _ _ => trivial⟩ hrun rfl⟩
  obtain rfl : 0 = parent := Option.some.inj (Option.some.inj hwalk)
  obtain rfl := Option.some.inj hpd
  refine ⟨rfl, fun m md hmd hpar => ?_⟩
  obtain ⟨kids, h⟩ := TreeState.ok_init (fun _ => true) rfl
  obtain rfl : m = 0 := Nat.lt_one_iff.1 (h.bound m md hmd)
  obtain rfl := Option.some.inj hmd
  exact absurd hpar (by decide)

/-- Two creates of one name leave two children with that name. -/
theorem not_tree_well_formed : ¬ ∀ (grant : ℕ → Bool) (calls : List TreeCall) (s : TreeState), treeRun calls (.init grant) = some s →
    s.mounted = true → s.tree.WellFormed := by
  intro hall
  have hrun : treeRun [.create nameX, .create nameX] (.init fun _ => true) = some _ := rfl
  obtain ⟨nd, l, hnd, hchain, hnames, -⟩ := (hall _ _ _ hrun rfl).children 0 .root
  obtain rfl := Option.some.inj hnd
  obtain rfl : l = [2, 1] := Chain.unique hchain ⟨rfl, rfl, rfl⟩
  exact absurd hnames (by decide)

end Flopperating
