/-
# Who owns a directory listing

Runs of `procfs_add_entry`, of the operations on mounts of `tmpflopfs`, of `vfs_readdir_path` and of
`vfs_directory_list_free`.  A listing should be made of the entries of its directory, as they were
at the call, until it is freed, and no entry should be freed twice or stay linked when it is freed.

`vfs_directory_list_free` frees the entries with the list, whoever they belong to.  `tmpflopfs`
gives away copies, but a listing of `procfs` is the list that `procfs` keeps: freeing it leaves
`procfs_dir_entries` with a freed entry, and a `procfs_add_entry` makes it longer.  These are the
only things that go wrong (`dirListings_iff`).
-/

import Flopperating.Data.Transition
import Flopperating.Fs.DirectoryLists

namespace Flopperating

open LinkedList Transition

/-- A listing that has been returned, and the entries of its directory at the call. -/
structure Listing where
  list : ℕ
  entries : List (CString × ℤ)

/-- The world, the entries that have been registered with `procfs`, and the listings that have not
been freed. -/
structure DirSystem where
  world : DirWorld
  registered : List (CString × ℤ)
  live : List Listing

inductive DirOp
  | addEntry (name : CString) (type : ℤ)
  | tmpfs (k : ℕ) (call : TreeCall)
  | readdir (path : Option CString)
  | free (l : ℕ)

namespace DirSystem

/-- The entries of a directory of a filesystem. -/
def entriesIn (s : DirSystem) (rel : CString) : ListedFs → List (CString × ℤ)
  | .procfs => s.registered
  | .tmpfs k => ((s.world.tree k).tree.tmpfsWalkPath rel).join.elim [] (s.world.tree k).tree.childEntries
  | .other => []

/-- The entries of the directory at a path. -/
def entriesOf (s : DirSystem) (path : Option CString) : List (CString × ℤ) :=
  path.elim [] fun path => (s.world.vfsFileToMountpoint path).elim [] fun mp =>
    s.entriesIn (path.drop (flopstrlen mp.1)) mp.2

def init (grant : ℕ → Bool) (treeGrant : ℕ → ℕ → Bool) (mounts : List (CString × ListedFs)) : DirSystem :=
  ⟨⟨fun _ => none, fun _ => none, 0, grant, none, 0, mounts, fun k => .init (treeGrant k)⟩, [], []⟩

end DirSystem

/-- One operation.  Only a list that was returned and has not been freed is freed. -/
def DirOp.step : DirOp → DirSystem → Option DirSystem
  | addEntry name type, s => (s.world.procfsAddEntry name type).map fun w => { s with
      world := w
      registered := if s.world.grant s.world.fresh then s.registered ++ [(name.take (vfsMaxFileName - 1), type)] else s.registered }
  | tmpfs k call, s => (call.step (s.world.tree k)).map fun t =>
      { s with world := { s.world with tree := Function.update s.world.tree k t } }
  | readdir path, s => (s.world.vfsReaddirPath path).map fun o =>
      { s with world := o.2, live := o.1.elim s.live fun l => ⟨l, s.entriesOf path⟩ :: s.live }
  | free l, s =>
    if s.live.any (·.list = l) then (s.world.vfsDirectoryListFree l).map fun w =>
      { s with world := w, live := s.live.filter (·.list ≠ l) }
    else some s

/-! ### What should hold -/

/-- The listing is made of its entries, the last of which is its tail. -/
def DirWorld.Lists (w : DirWorld) (x : Listing) : Prop :=
  ∃ d l, w.list x.list = some d ∧ w.Content d.head l x.entries ∧ d.tail = l.getLast?

namespace DirSystem

/-- An entry that `procfs` or a listing leads to. -/
def Reaches (s : DirSystem) (i : ℕ) : Prop :=
  Linked s.world.next s.world.procfsDirEntries i ∨
    ∃ x ∈ s.live, ∃ d, s.world.list x.list = some d ∧ (Linked s.world.next d.head i ∨ d.tail = some i)

/-- No entry that is reached has been freed, and no listing contains one that has. -/
structure Sound (s : DirSystem) : Prop where
  reached : ∀ i, s.Reaches i → (s.world.entry i).isSome
  frees : ∀ x ∈ s.live, (s.world.vfsDirectoryListFree x.list).isSome

end DirSystem

/-- The operation leaves every entry sound, and a listing that it returns is exact. -/
def DirOp.Returns (s : DirSystem) (a : DirOp) : Prop :=
  ∀ t, a.step s = some t → t.Sound ∧ ∀ x, t.live = x :: s.live → t.world.Lists x

/-- The operation leaves every entry sound, and every listing as it was returned. -/
def DirOp.Keeps (s : DirSystem) (a : DirOp) : Prop :=
  ∀ t, a.step s = some t → t.Sound ∧ ∀ x ∈ t.live, t.world.Lists x

/-! ### When it holds -/

/-- The list is not empty, and its entries are those of `procfs`. -/
def DirWorld.Borrowed (w : DirWorld) (l : ℕ) : Prop :=
  ∃ d, w.list l = some d ∧ d.head ≠ none ∧ d.head = w.procfsDirEntries

/-- The entries that are freed are not those of `procfs`. -/
def DirOp.FreesOwned (s : DirSystem) : DirOp → Prop
  | free l => (∃ x ∈ s.live, x.list = l) → ¬ s.world.Borrowed l
  | _ => True

/-- An entry is registered only while no listing has those of `procfs`. -/
def DirOp.AddsApart (s : DirSystem) : DirOp → Prop
  | addEntry _ _ => s.world.grant s.world.fresh = true → ∀ x ∈ s.live, ¬ s.world.Borrowed x.list
  | _ => True

/-! ### What the operations keep -/

namespace DirSystem

open DirWorld

variable {s t : DirSystem} {K : Prop} {procs : List ℕ} {own : ℕ → List ℕ} {x : Listing} {d : VfsDirectoryList} {i l : ℕ}

/-- The entries of `procfs`, handed out; unchanged since where `K` holds. -/
structure Lent (K : Prop) (s : DirSystem) (procs : List ℕ) (d : VfsDirectoryList) (es : List (CString × ℤ)) : Prop where
  head_ne : d.head ≠ none
  head : d.head = s.world.procfsDirEntries
  tail : ∀ i, d.tail = some i → i ∈ procs
  same : K → es = s.registered ∧ d.tail = procs.getLast?

theorem Lent.congr {es : List (CString × ℤ)} (h : s.Lent K procs d es) (hhead : t.world.procfsDirEntries = s.world.procfsDirEntries)
    (hregistered : t.registered = s.registered) : t.Lent K procs d es where
  head_ne := h.head_ne
  head := h.head.trans hhead.symm
  tail := h.tail
  same hK := ⟨(h.same hK).1.trans hregistered.symm, (h.same hK).2⟩

/-- `procs` are the entries of `procfs`, and `own l` those of the list `l` where they are its own. -/
structure Inv (K : Prop) (s : DirSystem) (procs : List ℕ) (own : ℕ → List ℕ) : Prop where
  procfs : s.world.Content s.world.procfsDirEntries procs s.registered
  lists : ∀ x ∈ s.live, ∃ d, s.world.list x.list = some d ∧ (s.Lent K procs d x.entries ∨
    s.world.Content d.head (own x.list) x.entries ∧ d.tail = (own x.list).getLast?)
  own_live : ∀ l i, i ∈ own l → (∃ e, s.world.entry i = some e) ∧ i ∉ procs
  apart : ∀ l l' i, i ∈ own l → i ∈ own l' → l = l'
  entry_lt : ∀ i e, s.world.entry i = some e → i < s.world.fresh
  list_lt : ∀ x ∈ s.live, x.list < s.world.fresh
  trees : ∀ k, (s.world.tree k).Ok

theorem inv_init (grant : ℕ → Bool) (treeGrant : ℕ → ℕ → Bool) (mounts : List (CString × ListedFs)) :
    (init grant treeGrant mounts).Inv K [] fun _ => [] where
  procfs := content_nil
  lists x hx := absurd hx List.not_mem_nil
  own_live l i hi := absurd hi List.not_mem_nil
  apart l l' i hi := absurd hi List.not_mem_nil
  entry_lt i e he := absurd he (by simp [init])
  list_lt x hx := absurd hx List.not_mem_nil
  trees k := TreeState.ok_init (treeGrant k)

/-- The entries of a listing, whoever they belong to. -/
theorem Inv.content (h : s.Inv K procs own) (hx : x ∈ s.live) : ∃ d l es, s.world.list x.list = some d ∧
    s.world.Content d.head l es ∧ ∀ i, d.tail = some i → i ∈ l := by
  obtain ⟨d, hd, hlent | ⟨hcontent, htail⟩⟩ := h.lists x hx
  · exact ⟨d, procs, s.registered, hd, hlent.head ▸ h.procfs, hlent.tail⟩
  · exact ⟨d, own x.list, x.entries, hd, hcontent, fun i hi => List.mem_of_getLast? (htail ▸ hi)⟩

theorem Inv.sound (h : s.Inv K procs own) : s.Sound where
  reached i hi := by
    rcases hi with hi | ⟨x, hx, d, hd, hi⟩
    · exact Option.isSome_iff_exists.2 (h.procfs.live (h.procfs.1.linked_iff.1 hi))
    · obtain ⟨d', l, es, hd', hcontent, htail⟩ := h.content hx
      obtain rfl := Option.some.inj (hd.symm.trans hd')
      rcases hi with hi | hi
      · exact Option.isSome_iff_exists.2 (hcontent.live (hcontent.1.linked_iff.1 hi))
      · exact Option.isSome_iff_exists.2 (hcontent.live (htail i hi))
  frees x hx := by
    obtain ⟨d, l, es, hd, hcontent, -⟩ := h.content hx
    rw [hcontent.vfsDirectoryListFree hd h.entry_lt]
    rfl

/-- Where nothing has changed since, every listing is as it was returned. -/
theorem Inv.exact (h : s.Inv True procs own) (hx : x ∈ s.live) : s.world.Lists x := by
  obtain ⟨d, hd, hlent | ⟨hcontent, htail⟩⟩ := h.lists x hx
  · obtain ⟨hes, htail⟩ := hlent.same trivial
    exact ⟨d, procs, hd, hes ▸ hlent.head ▸ h.procfs, htail⟩
  · exact ⟨d, own x.list, hd, hcontent, htail⟩

/-- A listing that is not borrowed has entries of its own. -/
theorem Inv.owned (h : s.Inv K procs own) (hx : x ∈ s.live) (hown : ¬ s.world.Borrowed x.list) :
    ∃ d, s.world.list x.list = some d ∧ s.world.Content d.head (own x.list) x.entries ∧ d.tail = (own x.list).getLast? := by
  obtain ⟨d, hd, hlent | hcontent⟩ := h.lists x hx
  · exact absurd ⟨d, hd, hlent.head_ne, hlent.head⟩ hown
  · exact ⟨d, hd, hcontent⟩

/-! ### Steps -/

variable {a : DirOp} {name : CString} {type : ℤ} {path : Option CString} {n k : ℕ} {call : TreeCall}

/-- A call of `kmalloc` that fails. -/
theorem Inv.skip (h : s.Inv K procs own) :
    Inv K { s with world := { s.world with fresh := s.world.fresh + 1 } } procs own where
  procfs := h.procfs
  lists x hx := by
    obtain ⟨d, hd, hlent | hcontent⟩ := h.lists x hx
    · exact ⟨d, hd, .inl (hlent.congr rfl rfl)⟩
    · exact ⟨d, hd, .inr hcontent⟩
  own_live := h.own_live
  apart := h.apart
  entry_lt i e he := Nat.lt_succ_of_lt (h.entry_lt i e he)
  list_lt x hx := Nat.lt_succ_of_lt (h.list_lt x hx)
  trees := h.trees

theorem Inv.addEntry (h : s.Inv K procs own) (hapart : K → (DirOp.addEntry name type).AddsApart s)
    (hstep : (DirOp.addEntry name type).step s = some t) :
    t.live = s.live ∧ (∀ l, s.world.Borrowed l → t.world.Borrowed l) ∧ ∃ procs', t.Inv K procs' own := by
  obtain ⟨w, hadd, rfl⟩ := Option.map_eq_some_iff.1 hstep
  refine ⟨rfl, ?_⟩
  cases hgrant : s.world.grant s.world.fresh with
  | false =>
    simp only [procfsAddEntry, newEntry, hgrant, Bool.false_eq_true, if_false] at hadd
    obtain rfl := Option.some.inj hadd
    exact ⟨fun _ hb => hb, procs, h.skip⟩
  | true =>
    obtain ⟨entry', count', hrun, hsame, hlt, hcontent⟩ := h.procfs.procfsAddEntry name type h.entry_lt hgrant
    obtain rfl := Option.some.inj (hrun.symm.trans hadd)
    have hkept : ∀ l i, i ∈ own l → entry' i = s.world.entry i ∧ i ∉ procs ++ [s.world.fresh] := fun l i hi => by
      obtain ⟨⟨e, he⟩, hprocs⟩ := h.own_live l i hi
      have hne : i ≠ s.world.fresh := (h.entry_lt i e he).ne
      refine ⟨hsame i hprocs hne, fun hmem => ?_⟩
      rcases List.mem_append.1 hmem with hmem | hmem
      · exact hprocs hmem
      · exact hne (List.mem_singleton.1 hmem)
    -- a list that is not empty starts where it did
    have hhead : ∀ d : VfsDirectoryList, d.head ≠ none → d.head = s.world.procfsDirEntries →
        d.head = (procs ++ [s.world.fresh]).head? := fun d hne heq => by
      have hfirst := heq.trans h.procfs.1.head_eq
      cases procs with
      | nil => exact absurd hfirst hne
      | cons i procs => exact hfirst
    refine ⟨fun l hl => ?_, procs ++ [s.world.fresh], hcontent, fun x hx => ?_, fun l i hi => ?_, h.apart, hlt,
      fun x hx => Nat.lt_succ_of_lt (h.list_lt x hx), h.trees⟩
    · obtain ⟨d, hd, hne, heq⟩ := hl
      exact ⟨d, hd, hne, hhead d hne heq⟩
    · obtain ⟨d, hd, hlent | ⟨hown, htail⟩⟩ := h.lists x hx
      · exact ⟨d, hd, .inl ⟨hlent.head_ne, hhead d hlent.head_ne hlent.head, fun i hi => List.mem_append_left _ (hlent.tail i hi),
          fun hK => absurd ⟨d, hd, hlent.head_ne, hlent.head⟩ (hapart hK hgrant x hx)⟩⟩
      · exact ⟨d, hd, .inr ⟨hown.congr fun i hi => (hkept _ i hi).1, htail⟩⟩
    · obtain ⟨hentry, hprocs⟩ := hkept l i hi
      obtain ⟨⟨e, he⟩, -⟩ := h.own_live l i hi
      exact ⟨⟨e, hentry.trans he⟩, hprocs⟩

theorem Inv.tmpfs (h : s.Inv K procs own) (hstep : (DirOp.tmpfs k call).step s = some t) :
    t.live = s.live ∧ t.Inv K procs own := by
  obtain ⟨tree', hcall, rfl⟩ := Option.map_eq_some_iff.1 hstep
  refine ⟨rfl, h.procfs, fun x hx => ?_, h.own_live, h.apart, h.entry_lt, h.list_lt, fun j => ?_⟩
  · obtain ⟨d, hd, hlent | hcontent⟩ := h.lists x hx
    · exact ⟨d, hd, .inl (hlent.congr rfl rfl)⟩
    · exact ⟨d, hd, .inr hcontent⟩
  · change (Function.update s.world.tree k tree' j).Ok
    by_cases hj : j = k
    · rw [hj, Function.update_self]
      exact call.step_ok (h.trees k) hcall
    · rw [Function.update_of_ne hj]
      exact h.trees j

/-- A new listing of `procfs`. -/
theorem Inv.lend (h : s.Inv K procs own) :
    Inv K { s with
      world := { s.world with
        list := Function.update s.world.list s.world.fresh (some ⟨s.world.procfsDirEntries, procs.getLast?⟩)
        fresh := s.world.fresh + 1 }
      live := ⟨s.world.fresh, s.registered⟩ :: s.live } procs (Function.update own s.world.fresh []) := by
  have hother : ∀ x ∈ s.live, x.list ≠ s.world.fresh := fun x hx => (h.list_lt x hx).ne
  have hown : ∀ l i, i ∈ Function.update own s.world.fresh [] l → i ∈ own l := fun l i hi => by
    by_cases hl : l = s.world.fresh
    · rw [hl, Function.update_self] at hi
      exact absurd hi List.not_mem_nil
    · rwa [Function.update_of_ne hl] at hi
  refine ⟨h.procfs, fun x hx => ?_, fun l i hi => h.own_live l i (hown l i hi),
    fun l l' i hi hi' => h.apart l l' i (hown l i hi) (hown l' i hi'), fun i e he => Nat.lt_succ_of_lt (h.entry_lt i e he),
    fun x hx => ?_, h.trees⟩
  · rcases List.mem_cons.1 hx with rfl | hx
    · refine ⟨_, Function.update_self .., ?_⟩
      by_cases hnil : procs = []
      · -- an empty list has no entries that it could share
        have hreg : s.registered = [] := by
          have hlen := h.procfs.length_eq
          rw [hnil] at hlen
          exact List.length_eq_zero_iff.1 hlen.symm
        have hhead : s.world.procfsDirEntries = none := by
          rw [h.procfs.1.head_eq, hnil]
          rfl
        refine .inr ⟨?_, ?_⟩
        · rw [Function.update_self, hhead, hreg]
          exact content_nil
        · rw [Function.update_self, hnil]
      · refine .inl ⟨?_, rfl, fun i hi => List.mem_of_getLast? hi, fun _ => ⟨rfl, rfl⟩⟩
        rw [h.procfs.1.head_eq]
        exact fun hnone => hnil (List.head?_eq_none_iff.1 hnone)
    · obtain ⟨d, hd, hlent | hcontent⟩ := h.lists x hx
      · exact ⟨d, (Function.update_of_ne (hother x hx) ..).trans hd, .inl (hlent.congr rfl rfl)⟩
      · refine ⟨d, (Function.update_of_ne (hother x hx) ..).trans hd, .inr ?_⟩
        rw [Function.update_of_ne (hother x hx)]
        exact hcontent
  · rcases List.mem_cons.1 hx with rfl | hx
    · exact Nat.lt_succ_self _
    · exact Nat.lt_succ_of_lt (h.list_lt x hx)

/-- A new listing with entries of its own. -/
theorem Inv.build {w : DirWorld} {new : List ℕ} {es : List (CString × ℤ)} (h : s.Inv K procs own)
    (hnew : Builds s.world s.world.fresh new es w) :
    Inv K { s with world := w, live := ⟨s.world.fresh, es⟩ :: s.live } procs (Function.update own s.world.fresh new) := by
  have hother : ∀ x ∈ s.live, x.list ≠ s.world.fresh := fun x hx => (h.list_lt x hx).ne
  have hold : ∀ l i, i ∈ own l → i < s.world.fresh := fun l i hi => by
    obtain ⟨⟨e, he⟩, -⟩ := h.own_live l i hi
    exact h.entry_lt i e he
  have hprocs : ∀ i ∈ procs, i < s.world.fresh := fun i hi => by
    obtain ⟨e, he⟩ := h.procfs.live hi
    exact h.entry_lt i e he
  -- an entry of a list is a new one, or one that the list had
  have hown : ∀ l i, i ∈ Function.update own s.world.fresh new l → l = s.world.fresh ∧ i ∈ new ∨ i ∈ own l := fun l i hi => by
    by_cases hl : l = s.world.fresh
    · rw [hl, Function.update_self] at hi
      exact .inl ⟨hl, hi⟩
    · rw [Function.update_of_ne hl] at hi
      exact .inr hi
  obtain ⟨dn, hdn, hcontentn, htailn⟩ := hnew.list
  refine ⟨?_, fun x hx => ?_, fun l i hi => ?_, fun l l' i hi hi' => ?_, hnew.entry_lt, fun x hx => ?_, ?_⟩
  · exact hnew.procfs.symm ▸ h.procfs.congr fun i hi => hnew.entries i (hprocs i hi)
  · rcases List.mem_cons.1 hx with rfl | hx
    · refine ⟨dn, hdn, .inr ?_⟩
      rw [Function.update_self]
      exact ⟨hcontentn, htailn⟩
    · obtain ⟨d, hd, hlent | ⟨hcontent, htail⟩⟩ := h.lists x hx
      · exact ⟨d, (hnew.lists _ (hother x hx)).trans hd, .inl (hlent.congr hnew.procfs rfl)⟩
      · refine ⟨d, (hnew.lists _ (hother x hx)).trans hd, .inr ?_⟩
        rw [Function.update_of_ne (hother x hx)]
        exact ⟨hcontent.congr fun i hi => hnew.entries i (hold _ i hi), htail⟩
  · rcases hown l i hi with ⟨-, hi⟩ | hi
    · exact ⟨hcontentn.live hi, fun hmem => Nat.not_lt.2 (hnew.own i hi) (hprocs i hmem)⟩
    · obtain ⟨⟨e, he⟩, hi'⟩ := h.own_live l i hi
      exact ⟨⟨e, (hnew.entries i (hold l i hi)).trans he⟩, hi'⟩
  · rcases hown l i hi with ⟨hl, hi⟩ | hi
    · rcases hown l' i hi' with ⟨hl', -⟩ | hi'
      · exact hl.trans hl'.symm
      · exact absurd (hold l' i hi') (Nat.not_lt.2 (hnew.own i hi))
    · rcases hown l' i hi' with ⟨-, hi'⟩ | hi'
      · exact absurd (hold l i hi) (Nat.not_lt.2 (hnew.own i hi'))
      · exact h.apart l l' i hi hi'
  · rcases List.mem_cons.1 hx with rfl | hx
    · exact hnew.fresh_lt
    · exact (h.list_lt x hx).trans hnew.fresh_lt
  · change ∀ k, (w.tree k).Ok
    rw [hnew.tree]
    exact h.trees

/-- What `vfs_readdir_path` returns: `NULL`, the list of `procfs`, or one with entries of its own. -/
theorem Inv.readdir_cases {o : Option ℕ} {w : DirWorld} (h : s.Inv K procs own)
    (hrun : s.world.vfsReaddirPath path = some (o, w)) :
    o = none ∧ (w = s.world ∨ w = { s.world with fresh := s.world.fresh + 1 }) ∨
    o = some s.world.fresh ∧ (s.entriesOf path = s.registered ∧ w = { s.world with
        list := Function.update s.world.list s.world.fresh (some ⟨s.world.procfsDirEntries, procs.getLast?⟩)
        fresh := s.world.fresh + 1 } ∨
      ∃ new, Builds s.world s.world.fresh new (s.entriesOf path) w) := by
  have hnull : (none, s.world) = (o, w) → o = none ∧ (w = s.world ∨ w = { s.world with fresh := s.world.fresh + 1 }) :=
    fun heq => ⟨(Prod.mk.inj heq).1.symm, .inl (Prod.mk.inj heq).2.symm⟩
  cases path with
  | none => exact .inl (hnull (Option.some.inj hrun))
  | some path =>
    cases hmp : s.world.vfsFileToMountpoint path with
    | none =>
      rw [vfsReaddirPath, hmp] at hrun
      exact .inl (hnull (Option.some.inj hrun))
    | some mp =>
      obtain ⟨point, fs⟩ := mp
      rw [vfsReaddirPath, hmp] at hrun
      simp only [entriesOf, hmp, Option.elim_some]
      cases fs with
      | other => exact .inl (hnull (Option.some.inj hrun))
      | procfs =>
        cases hgrant : s.world.grant s.world.fresh with
        | false =>
          simp only [listdir, procfsBuildDirlist, newList, hgrant, Bool.false_eq_true, if_false] at hrun
          obtain ⟨rfl, rfl⟩ := Prod.mk.inj (Option.some.inj hrun)
          exact .inl ⟨rfl, .inr rfl⟩
        | true =>
          have hlent := h.procfs.procfsBuildDirlist h.entry_lt hgrant
          obtain ⟨rfl, rfl⟩ := Prod.mk.inj (Option.some.inj (hrun.symm.trans hlent))
          exact .inr ⟨rfl, .inl ⟨rfl, rfl⟩⟩
      | tmpfs n =>
        have hmounted : (s.world.tree n).mounted = true := by
          have hfound := List.find?_some hmp
          exact (of_decide_eq_true hfound).1
        obtain ⟨kids, hkids⟩ := h.trees n hmounted
        rcases tmpfsOpListdir_spec hkids h.entry_lt hrun with ⟨rfl, rfl⟩ | ⟨dir, new, hwalk, rfl, hnew⟩
        · exact .inl ⟨rfl, .inl rfl⟩
        · refine .inr ⟨rfl, .inr ⟨new, ?_⟩⟩
          rw [entriesIn, hwalk]
          exact hnew

theorem Inv.readdir (h : s.Inv K procs own) (hstep : (DirOp.readdir path).step s = some t) :
    (∃ own', t.Inv K procs own') ∧ (t.live = s.live ∨ ∃ x, t.live = x :: s.live ∧ t.world.Lists x) := by
  obtain ⟨⟨o, w⟩, hrun, rfl⟩ := Option.map_eq_some_iff.1 hstep
  rcases h.readdir_cases hrun with ⟨rfl, rfl | rfl⟩ | ⟨rfl, ⟨hentries, rfl⟩ | ⟨new, hnew⟩⟩
  · exact ⟨⟨own, h⟩, .inl rfl⟩
  · exact ⟨⟨own, h.skip⟩, .inl rfl⟩
  · rw [hentries]
    exact ⟨⟨_, h.lend⟩, .inr ⟨_, rfl, _, procs, Function.update_self .., h.procfs, rfl⟩⟩
  · obtain ⟨d, hd, hcontent, htail⟩ := hnew.list
    exact ⟨⟨_, h.build hnew⟩, .inr ⟨_, rfl, d, new, hd, hcontent, htail⟩⟩

/-- The freed list has entries of its own, which no other list has. -/
theorem Inv.free (h : s.Inv K procs own) (hfree : (DirOp.free l).FreesOwned s) (hstep : (DirOp.free l).step s = some t) :
    ∃ own', t.Inv K procs own' := by
  rw [DirOp.step] at hstep
  split_ifs at hstep with hany
  · obtain ⟨x, hx, hxl⟩ := List.any_eq_true.1 hany
    obtain rfl := of_decide_eq_true hxl
    obtain ⟨w, hrun, rfl⟩ := Option.map_eq_some_iff.1 hstep
    obtain ⟨d, hd, hcontent, -⟩ := h.owned hx (hfree ⟨x, hx, rfl⟩)
    obtain rfl := Option.some.inj ((hcontent.vfsDirectoryListFree hd h.entry_lt).symm.trans hrun)
    have hkept : ∀ i, i ∉ own x.list → (if i ∈ own x.list then none else s.world.entry i) = s.world.entry i := fun i hi => if_neg hi
    have hprocs : ∀ i ∈ procs, i ∉ own x.list := fun i hi hmem => (h.own_live _ i hmem).2 hi
    have hother : ∀ l i, i ∈ Function.update own x.list [] l → l ≠ x.list ∧ i ∈ own l ∧ i ∉ own x.list := fun l i hi => by
      by_cases hl : l = x.list
      · rw [hl, Function.update_self] at hi
        exact absurd hi List.not_mem_nil
      · rw [Function.update_of_ne hl] at hi
        exact ⟨hl, hi, fun hmem => hl (h.apart l _ i hi hmem)⟩
    refine ⟨Function.update own x.list [], h.procfs.congr fun i hi => hkept i (hprocs i hi), fun y hy => ?_, fun l i hi => ?_,
      fun l l' i hi hi' => h.apart l l' i (hother l i hi).2.1 (hother l' i hi').2.1, fun i e he => ?_, fun y hy => ?_, h.trees⟩
    · obtain ⟨hy, hne⟩ := List.mem_filter.1 hy
      have hne : y.list ≠ x.list := of_decide_eq_true hne
      obtain ⟨dy, hdy, hlent | ⟨hcontenty, htaily⟩⟩ := h.lists y hy
      · exact ⟨dy, (Function.update_of_ne hne ..).trans hdy, .inl (hlent.congr rfl rfl)⟩
      · refine ⟨dy, (Function.update_of_ne hne ..).trans hdy, .inr ?_⟩
        rw [Function.update_of_ne hne]
        exact ⟨hcontenty.congr fun i hi => hkept i fun hmem => hne (h.apart _ _ i hi hmem), htaily⟩
    · obtain ⟨-, hi, hnot⟩ := hother l i hi
      obtain ⟨⟨e, he⟩, hi'⟩ := h.own_live l i hi
      exact ⟨⟨e, (hkept i hnot).trans he⟩, hi'⟩
    · have he : (if i ∈ own x.list then none else s.world.entry i) = some e := he
      split_ifs at he
      exact h.entry_lt i e he
    · exact h.list_lt y (List.mem_filter.1 hy).1
  · obtain rfl := Option.some.inj hstep
    exact ⟨own, h⟩

theorem Inv.weaken (h : s.Inv K procs own) : s.Inv False procs own where
  procfs := h.procfs
  lists x hx := by
    obtain ⟨d, hd, hlent | hcontent⟩ := h.lists x hx
    · exact ⟨d, hd, .inl ⟨hlent.head_ne, hlent.head, hlent.tail, False.elim⟩⟩
    · exact ⟨d, hd, .inr hcontent⟩
  own_live := h.own_live
  apart := h.apart
  entry_lt := h.entry_lt
  list_lt := h.list_lt
  trees := h.trees

/-! ### What goes wrong -/

/-- **A listing of `procfs` is freed**: `procfs` keeps its entries. -/
theorem Inv.free_borrowed (h : s.Inv K procs own) (hx : x ∈ s.live) (hborrowed : s.world.Borrowed x.list) :
    ∃ t, (DirOp.free x.list).step s = some t ∧ ¬ t.Sound := by
  obtain ⟨d, hd, hne, hhead⟩ := hborrowed
  have hany : s.live.any (·.list = x.list) = true := List.any_eq_true.2 ⟨x, hx, decide_eq_true rfl⟩
  have hcontent : s.world.Content d.head procs s.registered := hhead ▸ h.procfs
  refine ⟨_, by rw [DirOp.step, if_pos hany, hcontent.vfsDirectoryListFree hd h.entry_lt, Option.map_some], fun hsound => ?_⟩
  cases procs with
  | nil => exact hne hcontent.1
  | cons i procs =>
    have hfirst : s.world.procfsDirEntries = some i := h.procfs.1.1
    have hfreed := hsound.reached i (.inl (hfirst ▸ Linked.here i))
    change (if i ∈ i :: procs then none else s.world.entry i).isSome = true at hfreed
    rw [if_pos List.mem_cons_self] at hfreed
    exact absurd hfreed (by simp)

/-- A borrowed listing that is exact has all entries of `procfs`. -/
theorem Inv.borrowed_length (h : s.Inv K procs own) (hborrowed : s.world.Borrowed x.list) (hlists : s.world.Lists x) :
    x.entries.length = s.registered.length := by
  obtain ⟨d, hd, -, hhead⟩ := hborrowed
  obtain ⟨d', l, hd', hcontent, -⟩ := hlists
  obtain rfl := Option.some.inj (hd.symm.trans hd')
  have hsame : l = procs := Chain.unique hcontent.1 (hhead ▸ h.procfs.1)
  rw [← hcontent.length_eq, ← h.procfs.length_eq, hsame]

/-- **An entry is registered while a listing of `procfs` is there**: it is in the listing. -/
theorem Inv.addEntry_borrowed (h : s.Inv True procs own) (name : CString) (type : ℤ) (hgrant : s.world.grant s.world.fresh = true)
    (hx : x ∈ s.live) (hborrowed : s.world.Borrowed x.list) :
    ∃ t, (DirOp.addEntry name type).step s = some t ∧ x ∈ t.live ∧ ¬ t.world.Lists x := by
  obtain ⟨entry', count', hrun, -⟩ := h.procfs.procfsAddEntry name type h.entry_lt hgrant
  obtain ⟨t, hstep, hregistered⟩ : ∃ t, (DirOp.addEntry name type).step s = some t ∧
      t.registered = s.registered ++ [(name.take (vfsMaxFileName - 1), type)] :=
    ⟨_, by rw [DirOp.step, hrun, Option.map_some], if_pos hgrant⟩
  obtain ⟨hlive, hkept, procs', h'⟩ := h.weaken.addEntry False.elim hstep
  refine ⟨t, hstep, hlive ▸ hx, fun hlists => ?_⟩
  have hafter := h'.borrowed_length (hkept _ hborrowed) hlists
  rw [h.borrowed_length hborrowed (h.exact hx), hregistered, List.length_append, List.length_singleton] at hafter
  omega

end DirSystem

/-! ### Runs -/

open DirSystem

variable {s t : DirSystem} {a : DirOp} {K : Prop} {procs : List ℕ} {own : ℕ → List ℕ}

/-- One operation that frees no entry of `procfs`. -/
theorem DirOp.step_inv (h : s.Inv K procs own) (hfree : a.FreesOwned s) (hapart : K → a.AddsApart s) (hstep : a.step s = some t) :
    ∃ procs' own', t.Inv K procs' own' := by
  cases a with
  | addEntry name type =>
    obtain ⟨-, -, procs', h'⟩ := h.addEntry hapart hstep
    exact ⟨procs', own, h'⟩
  | tmpfs k call => exact ⟨procs, own, (h.tmpfs hstep).2⟩
  | readdir path => exact ⟨procs, (h.readdir hstep).1⟩
  | free l => exact ⟨procs, h.free hfree hstep⟩

/-- What it returns is exact. -/
theorem DirOp.step_returns (h : s.Inv K procs own) (hstep : a.step s = some t) {x : Listing} (hx : t.live = x :: s.live) :
    t.world.Lists x := by
  have hne : t.live ≠ s.live := hx ▸ List.cons_ne_self x s.live
  cases a with
  | addEntry name type => exact absurd (h.weaken.addEntry False.elim hstep).1 hne
  | tmpfs k call => exact absurd (h.tmpfs hstep).1 hne
  | readdir path =>
    rcases (h.readdir hstep).2 with heq | ⟨y, hy, hlists⟩
    · exact absurd heq hne
    · rw [(List.cons.inj (hx.symm.trans hy)).1]
      exact hlists
  | free l =>
    have hle : t.live.length ≤ s.live.length := by
      rw [DirOp.step] at hstep
      split_ifs at hstep
      · obtain ⟨w, -, rfl⟩ := Option.map_eq_some_iff.1 hstep
        exact List.length_filter_le _ _
      · rw [Option.some.inj hstep]
    rw [hx, List.length_cons] at hle
    omega

theorem DirOp.freesOwned_of_sound (h : s.Inv K procs own) (hsound : ∀ t, a.step s = some t → t.Sound) : a.FreesOwned s := by
  cases a with
  | free l =>
    rintro ⟨x, hx, rfl⟩ hborrowed
    obtain ⟨t, hstep, hnot⟩ := h.free_borrowed hx hborrowed
    exact hnot (hsound t hstep)
  | addEntry name type => trivial
  | tmpfs k call => trivial
  | readdir path => trivial

theorem DirOp.addsApart_of_lists (h : s.Inv True procs own) (hlists : ∀ t, a.step s = some t → ∀ x ∈ t.live, t.world.Lists x) :
    a.AddsApart s := by
  cases a with
  | addEntry name type =>
    intro hgrant x hx hborrowed
    obtain ⟨t, hstep, hmem, hnot⟩ := h.addEntry_borrowed name type hgrant hx hborrowed
    exact hnot (hlists t hstep x hmem)
  | free l => trivial
  | tmpfs k call => trivial
  | readdir path => trivial

/-- **When listings are exact and nothing is freed twice or reached when freed**: exactly in the
runs that never free a listing with entries of `procfs`; and listings stay as they were returned
exactly when, moreover, no entry is registered while there is such a listing. -/
theorem dirListings_iff (grant : ℕ → Bool) (treeGrant : ℕ → ℕ → Bool) (mounts : List (CString × ListedFs)) (ops : List DirOp) :
    (EveryStep DirOp.step DirOp.Returns (init grant treeGrant mounts) ops ↔
      EveryStep DirOp.step DirOp.FreesOwned (init grant treeGrant mounts) ops) ∧
    (EveryStep DirOp.step DirOp.Keeps (init grant treeGrant mounts) ops ↔
      EveryStep DirOp.step (fun s a => a.FreesOwned s ∧ a.AddsApart s) (init grant treeGrant mounts) ops) := by
  constructor
  · refine everyStep_congr (P := fun s => ∃ procs own, s.Inv False procs own) ⟨_, _, inv_init ..⟩ ?_
    rintro s a ⟨procs, own, h⟩
    refine ⟨⟨fun hreturns => a.freesOwned_of_sound h fun t ht => (hreturns t ht).1, fun hfree t ht => ?_⟩,
      fun hfree t ht => a.step_inv h hfree False.elim ht⟩
    obtain ⟨procs', own', h'⟩ := a.step_inv h hfree False.elim ht
    exact ⟨h'.sound, fun x hx => a.step_returns h ht hx⟩
  · refine everyStep_congr (P := fun s => ∃ procs own, s.Inv True procs own) ⟨_, _, inv_init ..⟩ ?_
    rintro s a ⟨procs, own, h⟩
    refine ⟨⟨fun hkeeps => ⟨a.freesOwned_of_sound h fun t ht => (hkeeps t ht).1, a.addsApart_of_lists h fun t ht => (hkeeps t ht).2⟩,
      fun hcareful t ht => ?_⟩, fun hcareful t ht => a.step_inv h hcareful.1 (fun _ => hcareful.2) ht⟩
    obtain ⟨procs', own', h'⟩ := a.step_inv h hcareful.1 (fun _ => hcareful.2) ht
    exact ⟨h'.sound, fun x hx => h'.exact hx⟩

/-- `"/proc/"`. -/
def procPath : CString := .ofBytes [47, 112, 114, 111, 99, 47]

/-- `"cpuinfo"`. -/
def cpuinfo : CString := .ofBytes [99, 112, 117, 105, 110, 102, 111]

/-- `procfs` with one entry is listed once. -/
theorem exists_procListed : ∃ s, [DirOp.addEntry cpuinfo 0, .readdir (some procPath)].foldlM (fun s a => DirOp.step a s)
    (init (fun _ => true) (fun _ _ => true) [(procPath, .procfs)]) = some s ∧ s.live = [⟨1, [(cpuinfo, 0)]⟩] ∧
    s.world.Borrowed 1 ∧ s.world.grant s.world.fresh = true :=
  ⟨_, rfl, rfl, ⟨_, rfl, by decide, rfl⟩, rfl⟩

/-- Freeing the listing leaves `procfs` with a freed entry, and registering an entry changes it. -/
theorem not_dirListings :
    (¬ ∀ grant treeGrant mounts ops, EveryStep DirOp.step DirOp.Returns (init grant treeGrant mounts) ops) ∧
    ¬ ∀ grant treeGrant mounts ops, EveryStep DirOp.step (fun s a => ∀ t, a.step s = some t → ∀ x ∈ t.live, t.world.Lists x)
      (init grant treeGrant mounts) ops := by
  obtain ⟨s, hrun, hlive, hborrowed, hgrant⟩ := exists_procListed
  have hall : EveryStep DirOp.step (fun s a => a.FreesOwned s ∧ (True → a.AddsApart s))
      (init (fun _ => true) (fun _ _ => true) [(procPath, .procfs)]) [DirOp.addEntry cpuinfo 0, .readdir (some procPath)] :=
    ⟨⟨trivial, fun _ _ x hx => absurd hx List.not_mem_nil⟩, fun _ _ => ⟨⟨trivial, fun _ => trivial⟩, fun _ _ => trivial⟩⟩
  obtain ⟨procs, own, h⟩ := hall.keeps (P := fun s => ∃ procs own, s.Inv True procs own) hrun ⟨_, _, inv_init ..⟩ (by
    rintro s a t hC ⟨procs, own, h⟩ ht
    exact a.step_inv h hC.1 hC.2 ht)
  have hx : ⟨1, [(cpuinfo, 0)]⟩ ∈ s.live := hlive ▸ List.mem_cons_self
  constructor
  · intro hreturns
    obtain ⟨t, ht, hnot⟩ := h.free_borrowed hx hborrowed
    have hlast := ((hreturns _ _ _ ([DirOp.addEntry cpuinfo 0, .readdir (some procPath)] ++ [.free 1])).append hrun).2
    exact hnot (hlast.1 t ht).1
  · intro hlists
    obtain ⟨t, ht, hmem, hnot⟩ := h.addEntry_borrowed cpuinfo 0 hgrant hx hborrowed
    have hlast := ((hlists _ _ _ ([DirOp.addEntry cpuinfo 0, .readdir (some procPath)] ++ [.addEntry cpuinfo 0])).append
      hrun).2
    exact hnot (hlast.1 t ht _ hmem)

end Flopperating
