/-
# Directory listings

`vfs_readdir_path` and `vfs_directory_list_free` of `src/fs/vfs/vfs.c`, with the two filesystems
that can be listed.  `tmpfs_op_listdir` copies the children of a directory; `procfs_build_dirlist`
hands out the entries that `procfs_add_entry` has linked, which stay those of `procfs`.

| source | here |
| --- | --- |
| a `struct vfs_directory_entry` or `_list` of `kmalloc` | at a number that is not used again |
| whether `kmalloc` has memory, call after call | `grant` |
| `mp_list`, from its tail | `mounts`, of which a tmpfs is there while its tree is mounted |

An operation returns `none` when it follows a pointer to memory that is not there, or that has been
freed.
-/

import Flopperating.Fs.TmpfsTreeInv

namespace Flopperating

/-- `struct vfs_directory_entry`. -/
structure VfsDirectoryEntry where
  name : CString
  type : ℤ
  next : Option ℕ

/-- `struct vfs_directory_list`. -/
structure VfsDirectoryList where
  head : Option ℕ
  tail : Option ℕ

/-- The filesystem of a mountpoint: `other` has no `listdir`. -/
inductive ListedFs
  | procfs
  | tmpfs (k : ℕ)
  | other

/-- `VFS_FILE` and `VFS_DIR`. -/
def TmpfsNodeType.code : TmpfsNodeType → ℤ
  | file => 0
  | dir => 1

structure DirWorld where
  entry : ℕ → Option VfsDirectoryEntry
  list : ℕ → Option VfsDirectoryList
  fresh : ℕ
  grant : ℕ → Bool
  procfsDirEntries : Option ℕ
  procfsCount : ℕ
  mounts : List (CString × ListedFs)
  tree : ℕ → TreeState

namespace DirWorld

/-- `kmalloc` of an entry, and its first contents. -/
def newEntry (e : VfsDirectoryEntry) (w : DirWorld) : Option ℕ × DirWorld :=
  if w.grant w.fresh then
    (some w.fresh, { w with entry := Function.update w.entry w.fresh (some e), fresh := w.fresh + 1 })
  else (none, { w with fresh := w.fresh + 1 })

/-- `kmalloc` of a list, and its first contents. -/
def newList (d : VfsDirectoryList) (w : DirWorld) : Option ℕ × DirWorld :=
  if w.grant w.fresh then
    (some w.fresh, { w with list := Function.update w.list w.fresh (some d), fresh := w.fresh + 1 })
  else (none, { w with fresh := w.fresh + 1 })

/-- `t->next = i`. -/
def setNext (t i : ℕ) (w : DirWorld) : Option DirWorld :=
  (w.entry t).map fun e => { w with entry := Function.update w.entry t (some { e with next := some i }) }

def setList (l : ℕ) (d : VfsDirectoryList) (w : DirWorld) : DirWorld :=
  { w with list := Function.update w.list l (some d) }

/-! ### `procfs` -/

/-- `while (iter->next)`, for at most `fuel` rounds. -/
def lastFrom : ℕ → ℕ → DirWorld → Option ℕ
  | 0, _, _ => none
  | fuel + 1, iter, w => (w.entry iter).bind fun e =>
      match e.next with
      | none => some iter
      | some i => lastFrom fuel i w

/-- The entry goes behind the others. -/
def linkEntry (i : ℕ) (w : DirWorld) : Option DirWorld :=
  match w.procfsDirEntries with
  | none => some { w with procfsDirEntries := some i }
  | some p => (lastFrom w.fresh p w).bind fun t => w.setNext t i

/-- `procfs_add_entry`: `flopstrcopy` cuts the name to fit. -/
def procfsAddEntry (name : CString) (type : ℤ) (w : DirWorld) : Option DirWorld :=
  match w.newEntry ⟨name.take (vfsMaxFileName - 1), type, none⟩ with
  | (none, w) => some w
  | (some i, w) => (w.linkEntry i).map fun w => { w with procfsCount := (w.procfsCount + 1) % 2 ^ 32 }

/-- The loop of `procfs_build_dirlist`, at `iter` with the tail so far, for at most `fuel`
rounds. -/
def tailFrom : ℕ → Option ℕ → Option ℕ → DirWorld → Option (Option ℕ)
  | _, tail, none, _ => some tail
  | 0, _, some _, _ => none
  | fuel + 1, _, some iter, w => (w.entry iter).bind fun e => tailFrom fuel (some iter) e.next w

/-- `procfs_build_dirlist`. -/
def procfsBuildDirlist (w : DirWorld) : Option (Option ℕ × DirWorld) :=
  match w.newList ⟨w.procfsDirEntries, none⟩ with
  | (none, w) => some (none, w)
  | (some l, w) => (tailFrom w.fresh none w.procfsDirEntries w).map fun tail =>
      (some l, w.setList l ⟨w.procfsDirEntries, tail⟩)

/-! ### `tmpflopfs` -/

/-- An entry goes to the end of a list. -/
def appendEntry (l i : ℕ) (w : DirWorld) : Option DirWorld :=
  (w.list l).bind fun d =>
    match d.head with
    | none => some (w.setList l ⟨some i, some i⟩)
    | some _ => d.tail.bind fun t => (w.setNext t i).map (setList l ⟨d.head, some i⟩)

/-- The loop of `tmpfs_op_listdir` over the children, from `curr` on, for at most `fuel` rounds. -/
def listFrom (σ : TmpfsTree) (l : ℕ) : ℕ → Option ℕ → DirWorld → Option DirWorld
  | _, none, w => some w
  | 0, some _, _ => none
  | fuel + 1, some curr, w => (σ.heap curr).bind fun nd =>
      if flopstrlen nd.name + 1 > vfsMaxFileName then none
      else match w.newEntry ⟨nd.name, nd.type.code, none⟩ with
        | (none, _) => none
        | (some i, w) => (w.appendEntry l i).bind (listFrom σ l fuel nd.nextSibling)

/-- `tmpfs_op_listdir`. -/
def tmpfsOpListdir (σ : TmpfsTree) (path : CString) (w : DirWorld) : Option (Option ℕ × DirWorld) :=
  (σ.tmpfsWalkPath path).bind fun found =>
    match found with
    | none => some (none, w)
    | some dir => (σ.heap dir).bind fun nd =>
        if nd.type ≠ .dir then some (none, w)
        else match w.newList ⟨none, none⟩ with
          | (none, _) => none
          | (some l, w) => (listFrom σ l (σ.fresh + 1) nd.children w).map fun w => (some l, w)

/-! ### `vfs` -/

/-- The mountpoint is in `mp_list`. -/
def mounted (w : DirWorld) : ListedFs → Bool
  | .tmpfs k => (w.tree k).mounted
  | _ => true

/-- `vfs_file_to_mountpoint`. -/
def vfsFileToMountpoint (name : CString) (w : DirWorld) : Option (CString × ListedFs) :=
  w.mounts.find? fun mp => w.mounted mp.2 ∧ flopstrncmp mp.1 name (flopstrlen mp.1) = 0

/-- `op_table.listdir`. -/
def listdir (fs : ListedFs) (rel : CString) (w : DirWorld) : Option (Option ℕ × DirWorld) :=
  match fs with
  | .procfs => w.procfsBuildDirlist
  | .tmpfs k => w.tmpfsOpListdir (w.tree k).tree rel
  | .other => some (none, w)

/-- `vfs_readdir_path`. -/
def vfsReaddirPath (path : Option CString) (w : DirWorld) : Option (Option ℕ × DirWorld) :=
  match path with
  | none => some (none, w)
  | some path =>
    match w.vfsFileToMountpoint path with
    | none => some (none, w)
    | some mp => w.listdir mp.2 (path.drop (flopstrlen mp.1))

/-- The loop of `vfs_directory_list_free`, from `entry` on, for at most `fuel` rounds. -/
def freeFrom : ℕ → Option ℕ → DirWorld → Option DirWorld
  | _, none, w => some w
  | 0, some _, _ => none
  | fuel + 1, some i, w => (w.entry i).bind fun e =>
      freeFrom fuel e.next { w with entry := Function.update w.entry i none }

/-- `vfs_directory_list_free`. -/
def vfsDirectoryListFree (l : ℕ) (w : DirWorld) : Option DirWorld :=
  (w.list l).bind fun d => (freeFrom w.fresh d.head w).map fun w => { w with list := Function.update w.list l none }

end DirWorld

/-! ### What a list contains -/

/-- The name and the type of a node. -/
def TmpfsTree.entryOf (σ : TmpfsTree) (m : ℕ) : Option (CString × ℤ) := (σ.heap m).map fun nd => (nd.name, nd.type.code)

/-- The children of a directory, in the order of their list. -/
def TmpfsTree.childEntries (σ : TmpfsTree) (dir : ℕ) : List (CString × ℤ) :=
  (((σ.heap dir).bind fun nd => LinkedList.walk σ.nextOf σ.fresh nd.children).getD []).filterMap σ.entryOf

namespace DirWorld

open LinkedList

variable {w w' : DirWorld} {p t : Option ℕ} {l own : List ℕ} {es : List (CString × ℤ)} {i j : ℕ}
  {e : VfsDirectoryEntry} {σ : TmpfsTree}

/-- `i->next`. -/
def next (w : DirWorld) (i : ℕ) : Option ℕ := (w.entry i).bind (·.next)

/-- The name and the type of an entry. -/
def entryAt (w : DirWorld) (i : ℕ) : Option (CString × ℤ) := (w.entry i).map fun e => (e.name, e.type)

/-- The list from `p` on is `l`, whose entries are there with the names and types of `es`. -/
def Content (w : DirWorld) (p : Option ℕ) (l : List ℕ) (es : List (CString × ℤ)) : Prop :=
  Chain w.next p l ∧ l.map w.entryAt = es.map some

theorem next_of_entry (h : w.entry i = some e) : w.next i = e.next := by rw [next, h, Option.bind_some]

theorem entryAt_of_entry (h : w.entry i = some e) : w.entryAt i = some (e.name, e.type) := by
  rw [entryAt, h, Option.map_some]

theorem content_nil : w.Content none [] [] := ⟨rfl, rfl⟩

theorem Content.live (h : w.Content p l es) (hi : i ∈ l) : ∃ e, w.entry i = some e := by
  have hmem : w.entryAt i ∈ es.map some := h.2 ▸ List.mem_map_of_mem hi
  obtain ⟨x, -, hx⟩ := List.mem_map.1 hmem
  obtain ⟨e, he, -⟩ := Option.map_eq_some_iff.1 hx.symm
  exact ⟨e, he⟩

theorem Content.length_eq (h : w.Content p l es) : l.length = es.length := by
  simpa using congrArg List.length h.2

/-- Only the entries of a list matter to it. -/
theorem Content.congr (h : w.Content p l es) (hsame : ∀ i ∈ l, w'.entry i = w.entry i) : w'.Content p l es := by
  refine ⟨h.1.congr fun i hi => ?_, ?_⟩
  · rw [next, hsame i hi, next]
  · rw [← h.2]
    exact List.map_congr_left fun i hi => by rw [entryAt, hsame i hi, entryAt]

/-- A list has no more entries than numbers have been given out. -/
theorem Content.length_le (h : w.Content p l es) (hbound : ∀ i e, w.entry i = some e → i < w.fresh) : l.length ≤ w.fresh := by
  have hsub : l ⊆ List.range w.fresh := fun i hi => by
    obtain ⟨e, he⟩ := h.live hi
    exact List.mem_range.2 (hbound i e he)
  have hle := (h.1.nodup.subperm hsub).length_le
  rwa [List.length_range] at hle

/-- A list of one entry. -/
theorem content_singleton (hi : w.entry i = some e) (hend : e.next = none) : w.Content (some i) [i] [(e.name, e.type)] := by
  refine ⟨⟨rfl, ?_⟩, ?_⟩
  · rw [next_of_entry hi, hend]
    rfl
  · rw [List.map_singleton, entryAt_of_entry hi]
    rfl

/-- **An entry is linked behind the last one.** -/
theorem Content.setNext {a : List ℕ} {last : ℕ} (h : w.Content p (a ++ [last]) es) (hi : w.entry i = some e) (hend : e.next = none)
    (hnew : i ∉ a ++ [last]) : ∃ entry', w.setNext last i = some { w with entry := entry' } ∧ (∀ j, j ≠ last → entry' j = w.entry j) ∧
      (∀ j, (entry' j).isSome = (w.entry j).isSome) ∧
      Content { w with entry := entry' } p (a ++ [last] ++ [i]) (es ++ [(e.name, e.type)]) := by
  obtain ⟨el, hel⟩ := h.live (List.mem_append_right a List.mem_cons_self)
  have hne : i ≠ last := fun heq => hnew (heq ▸ List.mem_append_right a List.mem_cons_self)
  have hset : w.setNext last i = some { w with entry := Function.update w.entry last (some { el with next := some i }) } := by
    rw [DirWorld.setNext, hel, Option.map_some]
  refine ⟨_, hset, fun j hj => Function.update_of_ne hj _ _, fun j => ?_, ?_⟩
  · by_cases hj : j = last
    · rw [hj, Function.update_self, hel]
      rfl
    · rw [Function.update_of_ne hj]
  · -- only the link of the last entry is written
    generalize hw' : ({ w with entry := Function.update w.entry last (some { el with next := some i }) } : DirWorld) = w'
    have hlast : w'.entry last = some { el with next := some i } := by rw [← hw']; exact Function.update_self ..
    have hother : ∀ j, j ≠ last → w'.entry j = w.entry j := fun j hj => by rw [← hw']; exact Function.update_of_ne hj _ _
    refine ⟨(Chain.snoc h.1 hnew ((next_of_entry hi).trans hend)).congr fun j _ => ?_, ?_⟩
    · by_cases hj : j = last
      · rw [hj, Function.update_self, next_of_entry hlast]
      · rw [Function.update_of_ne hj, next, hother j hj, next]
    · have hmap : (a ++ [last]).map w'.entryAt = es.map some := h.2 ▸ List.map_congr_left fun j _ => by
        by_cases hj : j = last
        · rw [hj, entryAt_of_entry hlast, entryAt_of_entry hel]
        · rw [entryAt, hother j hj, entryAt]
      rw [List.map_append, hmap, List.map_append, List.map_singleton, List.map_singleton, entryAt_of_entry ((hother i hne).trans hi)]

/-- What is behind the first entry is a list again. -/
theorem Content.cons (h : w.Content p (i :: l) es) : ∃ e es', p = some i ∧ w.entry i = some e ∧ es = (e.name, e.type) :: es' ∧
    w.Content e.next l es' := by
  obtain ⟨e, he⟩ := h.live List.mem_cons_self
  obtain ⟨⟨rfl, hchain⟩, hmap⟩ := h
  cases es with
  | nil => exact absurd hmap (by simp)
  | cons x es =>
    obtain ⟨hx, hrest⟩ := List.cons.inj hmap
    rw [entryAt_of_entry he] at hx
    rw [next_of_entry he] at hchain
    obtain rfl := Option.some.inj hx
    exact ⟨e, es, rfl, he, rfl, hchain, hrest⟩

/-! ### The loops -/

/-- The tail is the last entry. -/
theorem Content.tailFrom {fuel : ℕ} (h : w.Content p l es) (hfuel : l.length ≤ fuel) :
    tailFrom fuel t p w = some (l.getLast?.or t) := by
  induction l generalizing p t fuel es with
  | nil =>
    obtain rfl : p = none := h.1
    cases fuel with
    | zero => rfl
    | succ fuel => rfl
  | cons i l ih =>
    obtain ⟨e, es', rfl, he, rfl, hrest⟩ := h.cons
    obtain ⟨fuel, rfl⟩ := Nat.exists_eq_succ_of_ne_zero (Nat.ne_zero_of_lt hfuel)
    rw [DirWorld.tailFrom, he, Option.bind_some, ih hrest (Nat.le_of_succ_le_succ hfuel), List.getLast?_cons]
    cases l.getLast? with
    | none => rfl
    | some last => rfl

theorem Content.lastFrom {fuel last : ℕ} {a : List ℕ} (h : w.Content (some i) (a ++ [last]) es) (hfuel : a.length < fuel) :
    lastFrom fuel i w = some last := by
  induction a generalizing i fuel es with
  | nil =>
    obtain ⟨e, es', hp, he, -, hrest⟩ := h.cons
    obtain rfl := Option.some.inj hp
    obtain ⟨fuel, rfl⟩ := Nat.exists_eq_succ_of_ne_zero (Nat.ne_zero_of_lt hfuel)
    have hend : e.next = none := hrest.1
    simp only [DirWorld.lastFrom, he, Option.bind_some, hend]
  | cons j a ih =>
    obtain ⟨e, es', hp, he, -, hrest⟩ := h.cons
    obtain rfl := Option.some.inj hp
    obtain ⟨fuel, rfl⟩ := Nat.exists_eq_succ_of_ne_zero (Nat.ne_zero_of_lt hfuel)
    cases hnext : e.next with
    | none =>
      have hnil := hrest.1
      rw [hnext] at hnil
      cases a with
      | nil => exact absurd hnil.1 (by simp)
      | cons k a => exact absurd hnil.1 (by simp)
    | some k =>
      rw [hnext] at hrest
      simp only [DirWorld.lastFrom, he, Option.bind_some, hnext]
      exact ih hrest (Nat.lt_of_succ_lt_succ hfuel)

/-- **Freeing a list frees its entries, each once.** -/
theorem Content.freeFrom {fuel : ℕ} (h : w.Content p l es) (hfuel : l.length ≤ fuel) :
    freeFrom fuel p w = some { w with entry := fun i => if i ∈ l then none else w.entry i } := by
  induction l generalizing p fuel es w with
  | nil =>
    obtain rfl : p = none := h.1
    cases fuel with
    | zero => rfl
    | succ fuel => rfl
  | cons i l ih =>
    have hi : i ∉ l := (List.nodup_cons.1 h.1.nodup).1
    obtain ⟨e, es', rfl, he, -, hrest⟩ := h.cons
    obtain ⟨fuel, rfl⟩ := Nat.exists_eq_succ_of_ne_zero (Nat.ne_zero_of_lt hfuel)
    have hrest' : Content { w with entry := Function.update w.entry i none } e.next l es' :=
      hrest.congr fun j hj => Function.update_of_ne (ne_of_mem_of_not_mem hj hi) _ _
    rw [DirWorld.freeFrom, he, Option.bind_some, ih hrest' (Nat.le_of_succ_le_succ hfuel)]
    refine congrArg (fun entry' => some { w with entry := entry' }) (funext fun j => ?_)
    by_cases hj : j = i
    · rw [hj, if_neg hi, if_pos List.mem_cons_self]
      exact Function.update_self ..
    · simp only [List.mem_cons, hj, false_or]
      exact if_congr Iff.rfl rfl (Function.update_of_ne hj _ _)

/-! ### The operations -/

/-- The world with a new entry. -/
def withEntry (e : VfsDirectoryEntry) (w : DirWorld) : DirWorld :=
  { w with entry := Function.update w.entry w.fresh (some e), fresh := w.fresh + 1 }

theorem newEntry_of_grant (hgrant : w.grant w.fresh = true) : w.newEntry e = (some w.fresh, w.withEntry e) := if_pos hgrant

theorem entry_withEntry_self : (w.withEntry e).entry w.fresh = some e := Function.update_self ..

theorem entry_withEntry_of_ne (hj : j ≠ w.fresh) : (w.withEntry e).entry j = w.entry j := Function.update_of_ne hj _ _

theorem withEntry_lt (hbound : ∀ i e, w.entry i = some e → i < w.fresh) {e' : VfsDirectoryEntry}
    (hj : (w.withEntry e).entry j = some e') : j < w.fresh + 1 := by
  by_cases heq : j = w.fresh
  · omega
  · rw [entry_withEntry_of_ne heq] at hj
    exact Nat.lt_succ_of_lt (hbound j e' hj)

theorem Content.fresh_not_mem (h : w.Content p l es) (hbound : ∀ i e, w.entry i = some e → i < w.fresh) : w.fresh ∉ l := fun hmem => by
  obtain ⟨e, he⟩ := h.live hmem
  exact lt_irrefl _ (hbound _ e he)

theorem Content.withEntry (h : w.Content p l es) (hbound : ∀ i e, w.entry i = some e → i < w.fresh) (e : VfsDirectoryEntry) :
    (w.withEntry e).Content p l es :=
  h.congr fun _ hj => entry_withEntry_of_ne (ne_of_mem_of_not_mem hj (h.fresh_not_mem hbound))

/-- **What `procfs_add_entry` does** when there is memory. -/
theorem Content.procfsAddEntry {procs : List ℕ} (name : CString) (type : ℤ) (h : w.Content w.procfsDirEntries procs es)
    (hbound : ∀ i e, w.entry i = some e → i < w.fresh) (hgrant : w.grant w.fresh = true) :
    ∃ entry' count', w.procfsAddEntry name type = some { w with
        entry := entry', fresh := w.fresh + 1, procfsDirEntries := (procs ++ [w.fresh]).head?, procfsCount := count' } ∧
      (∀ j, j ∉ procs → j ≠ w.fresh → entry' j = w.entry j) ∧ (∀ j e, entry' j = some e → j < w.fresh + 1) ∧
      Content { w with entry := entry' } (procs ++ [w.fresh]).head? (procs ++ [w.fresh])
        (es ++ [(name.take (vfsMaxFileName - 1), type)]) := by
  obtain ⟨e, he⟩ : ∃ e : VfsDirectoryEntry, e = ⟨name.take (vfsMaxFileName - 1), type, none⟩ := ⟨_, rfl⟩
  have hrun : w.procfsAddEntry name type =
      ((w.withEntry e).linkEntry w.fresh).map fun w => { w with procfsCount := (w.procfsCount + 1) % 2 ^ 32 } := by
    rw [DirWorld.procfsAddEntry, ← he, newEntry_of_grant hgrant]
  have hend : e.next = none := by rw [he]
  have hpair : (name.take (vfsMaxFileName - 1), type) = (e.name, e.type) := by rw [he]
  have hnew := h.fresh_not_mem hbound
  have hold := h.withEntry hbound e
  rw [hpair]
  rcases List.eq_nil_or_concat' procs with rfl | ⟨a, last, rfl⟩
  · obtain rfl : es = [] := List.length_eq_zero_iff.1 h.length_eq.symm
    have hnone : (w.withEntry e).procfsDirEntries = none := h.1
    refine ⟨(w.withEntry e).entry, (w.procfsCount + 1) % 2 ^ 32, ?_, fun j _ hj => entry_withEntry_of_ne hj,
      fun j e' hj => withEntry_lt hbound hj, (content_singleton entry_withEntry_self hend).congr fun _ _ => rfl⟩
    rw [hrun]
    simp only [linkEntry, hnone, Option.map_some]
    rfl
  · obtain ⟨entry', hset, hsame, hlive, hcontent⟩ := hold.setNext entry_withEntry_self hend hnew
    have hfirst : (a ++ [last] ++ [w.fresh]).head? = w.procfsDirEntries := by
      rw [h.1.head_eq]
      cases a with
      | nil => rfl
      | cons b a => rfl
    rw [hfirst]
    refine ⟨entry', (w.procfsCount + 1) % 2 ^ 32, ?_, fun j hj hne => ?_, fun j e' hj => ?_, hcontent.congr fun _ _ => rfl⟩
    · cases hp : w.procfsDirEntries with
      | none => exact absurd (hp ▸ h.1.head_eq) (by simp)
      | some p =>
        have hlen : a.length < (w.withEntry e).fresh := by
          have hle := h.length_le hbound
          rw [List.length_append, List.length_singleton] at hle
          exact Nat.lt_succ_of_lt hle
        have hhead : (w.withEntry e).procfsDirEntries = some p := hp
        rw [hp] at hold
        rw [hrun]
        simp only [linkEntry, hhead, hold.lastFrom hlen, Option.bind_some, hset, Option.map_some]
        rw [← hp]
        rfl
    · rw [hsame j fun heq => hj (heq ▸ List.mem_append_right a List.mem_cons_self), entry_withEntry_of_ne hne]
    · have hsome : ((w.withEntry e).entry j).isSome := by
        rw [← hlive j, hj]
        rfl
      obtain ⟨e₁, he₁⟩ := Option.isSome_iff_exists.1 hsome
      exact withEntry_lt hbound he₁

/-- `procfs_build_dirlist` hands out the entries as they are. -/
theorem Content.procfsBuildDirlist {procs : List ℕ} (h : w.Content w.procfsDirEntries procs es)
    (hbound : ∀ i e, w.entry i = some e → i < w.fresh) (hgrant : w.grant w.fresh = true) :
    w.procfsBuildDirlist = some (some w.fresh, { w with
      list := Function.update w.list w.fresh (some ⟨w.procfsDirEntries, procs.getLast?⟩), fresh := w.fresh + 1 }) := by
  generalize hw₁ : ({ w with
    list := Function.update w.list w.fresh (some ⟨w.procfsDirEntries, none⟩), fresh := w.fresh + 1 } : DirWorld) = w₁
  have hc : w₁.Content w.procfsDirEntries procs es := h.congr fun _ _ => by rw [← hw₁]
  have hrun : w.procfsBuildDirlist = (DirWorld.tailFrom w₁.fresh none w₁.procfsDirEntries w₁).map fun tail =>
      (some w.fresh, w₁.setList w.fresh ⟨w₁.procfsDirEntries, tail⟩) := by
    rw [DirWorld.procfsBuildDirlist, newList, if_pos hgrant, hw₁]
  have hhead : w₁.procfsDirEntries = w.procfsDirEntries := by rw [← hw₁]
  have hfuel : procs.length ≤ w₁.fresh := by
    rw [← hw₁]
    exact Nat.le_succ_of_le (h.length_le hbound)
  rw [hrun, hhead, hc.tailFrom hfuel, Option.map_some, Option.or_none, ← hw₁, setList]
  simp only [Function.update_idem]

theorem Content.vfsDirectoryListFree {k : ℕ} {d : VfsDirectoryList} (h : w.Content d.head l es) (hd : w.list k = some d)
    (hbound : ∀ i e, w.entry i = some e → i < w.fresh) :
    w.vfsDirectoryListFree k = some { w with
      entry := fun i => if i ∈ l then none else w.entry i, list := Function.update w.list k none } := by
  rw [DirWorld.vfsDirectoryListFree, hd, Option.bind_some, h.freeFrom (h.length_le hbound), Option.map_some]

theorem Content.appendEntry {k : ℕ} {d : VfsDirectoryList} (h : w.Content d.head own es) (hd : w.list k = some d)
    (htail : d.tail = own.getLast?) (hi : w.entry i = some e) (hend : e.next = none) (hnew : i ∉ own) :
    ∃ entry' p, w.appendEntry k i = some (setList k ⟨p, some i⟩ { w with entry := entry' }) ∧
      (∀ j, j ∉ own → entry' j = w.entry j) ∧ (∀ j, (entry' j).isSome = (w.entry j).isSome) ∧
      Content { w with entry := entry' } p (own ++ [i]) (es ++ [(e.name, e.type)]) := by
  rcases List.eq_nil_or_concat' own with rfl | ⟨a, last, rfl⟩
  · obtain rfl : es = [] := List.length_eq_zero_iff.1 h.length_eq.symm
    have hnone : d.head = none := h.1
    refine ⟨w.entry, some i, ?_, fun _ _ => rfl, fun _ => rfl, content_singleton hi hend⟩
    rw [DirWorld.appendEntry, hd, Option.bind_some, hnone]
  · obtain ⟨entry', hset, hsame, hlive, hcontent⟩ := h.setNext hi hend hnew
    refine ⟨entry', d.head, ?_, fun j hj => hsame j fun heq => hj (heq ▸ List.mem_append_right a List.mem_cons_self), hlive, hcontent⟩
    rw [List.getLast?_append, List.getLast?_singleton, Option.some_or] at htail
    cases hp : d.head with
    | none => exact absurd (hp ▸ h.1.head_eq) (by simp)
    | some p =>
      rw [DirWorld.appendEntry, hd, Option.bind_some]
      simp only [hp, htail, Option.bind_some, hset, Option.map_some]

/-- The list `k` is made of new entries, and nothing else has been changed. -/
structure Builds (w₀ : DirWorld) (k : ℕ) (own : List ℕ) (es : List (CString × ℤ)) (w : DirWorld) : Prop where
  list : ∃ d, w.list k = some d ∧ w.Content d.head own es ∧ d.tail = own.getLast?
  own : ∀ i ∈ own, w₀.fresh ≤ i
  entries : ∀ i, i < w₀.fresh → w.entry i = w₀.entry i
  lists : ∀ j, j ≠ k → w.list j = w₀.list j
  entry_lt : ∀ i e, w.entry i = some e → i < w.fresh
  fresh_lt : w₀.fresh < w.fresh
  procfs : w.procfsDirEntries = w₀.procfsDirEntries
  tree : w.tree = w₀.tree

/-- One more entry. -/
theorem Builds.append {w₀ : DirWorld} {k : ℕ} (h : Builds w₀ k own es w) (hend : e.next = none)
    (hrun : (w.withEntry e).appendEntry k w.fresh = some w') :
    Builds w₀ k (own ++ [w.fresh]) (es ++ [(e.name, e.type)]) w' := by
  obtain ⟨d, hd, hcontent, htail⟩ := h.list
  have hd₁ : (w.withEntry e).list k = some d := hd
  obtain ⟨entry', p, happend, hsame, hlive, hcontent'⟩ := (hcontent.withEntry h.entry_lt e).appendEntry hd₁ htail
    entry_withEntry_self hend (hcontent.fresh_not_mem h.entry_lt)
  rw [happend] at hrun
  obtain rfl := Option.some.inj hrun
  refine ⟨⟨_, Function.update_self .., hcontent'.congr fun _ _ => rfl, ?_⟩, fun j hj => ?_, fun j hj => ?_,
    fun j hj => (Function.update_of_ne hj _ _).trans (h.lists j hj), fun j e' hj => ?_, Nat.lt_succ_of_lt h.fresh_lt, h.procfs, h.tree⟩
  · rw [List.getLast?_append, List.getLast?_singleton, Option.some_or]
  · rcases List.mem_append.1 hj with hj | hj
    · exact h.own j hj
    · rw [List.mem_singleton.1 hj]
      exact h.fresh_lt.le
  · have hj' : j ∉ own := fun hmem => Nat.not_lt.2 (h.own j hmem) hj
    exact (hsame j hj').trans ((entry_withEntry_of_ne (hj.trans h.fresh_lt).ne).trans (h.entries j hj))
  · have hsome : ((w.withEntry e).entry j).isSome := by
      rw [← hlive j]
      exact Option.isSome_of_eq_some hj
    obtain ⟨e₁, he₁⟩ := Option.isSome_iff_exists.1 hsome
    exact withEntry_lt h.entry_lt he₁

/-- The loop over the children. -/
theorem Builds.listFrom {w₀ : DirWorld} {k fuel : ℕ} {kids : List ℕ} (h : Builds w₀ k own es w) (hchain : Chain σ.nextOf p kids)
    (hrun : listFrom σ k fuel p w = some w') : ∃ own', Builds w₀ k own' (es ++ kids.filterMap σ.entryOf) w' := by
  induction kids generalizing p fuel w own es with
  | nil =>
    obtain rfl : p = none := hchain
    have hsame : w = w' := by
      cases fuel with
      | zero => exact Option.some.inj hrun
      | succ fuel => exact Option.some.inj hrun
    rw [List.filterMap_nil, List.append_nil, ← hsame]
    exact ⟨own, h⟩
  | cons m kids ih =>
    obtain ⟨rfl, hchain⟩ := hchain
    cases fuel with
    | zero => exact absurd hrun (by simp [DirWorld.listFrom])
    | succ fuel =>
      obtain ⟨nd, hnd, hrun⟩ := Option.bind_eq_some_iff.1 hrun
      split_ifs at hrun
      cases hgrant : w.grant w.fresh with
      | false => simp [newEntry, hgrant] at hrun
      | true =>
        simp only [newEntry, hgrant, if_true] at hrun
        obtain ⟨w₂, happend, hrun⟩ := Option.bind_eq_some_iff.1 hrun
        rw [TmpfsTree.nextOf_of_heap hnd] at hchain
        obtain ⟨own', h'⟩ := ih (h.append rfl happend) hchain hrun
        have hentry : σ.entryOf m = some (nd.name, nd.type.code) := by rw [TmpfsTree.entryOf, hnd, Option.map_some]
        rw [List.filterMap_cons_some hentry, List.append_cons]
        exact ⟨own', h'⟩

/-- **What `tmpfs_op_listdir` returns** is a list of its own, with the children of the directory. -/
theorem tmpfsOpListdir_spec {kids : ℕ → List ℕ} {path : CString} {o : Option ℕ} (hσ : σ.Inv kids)
    (hbound : ∀ i e, w.entry i = some e → i < w.fresh) (hrun : w.tmpfsOpListdir σ path = some (o, w')) :
    o = none ∧ w' = w ∨ ∃ dir own, σ.tmpfsWalkPath path = some (some dir) ∧ o = some w.fresh ∧
      Builds w w.fresh own (σ.childEntries dir) w' := by
  obtain ⟨found, hwalk, hrun⟩ := Option.bind_eq_some_iff.1 hrun
  cases found with
  | none =>
    obtain ⟨rfl, rfl⟩ := Prod.mk.inj (Option.some.inj hrun)
    exact .inl ⟨rfl, rfl⟩
  | some dir =>
    obtain ⟨nd, hnd, hrun⟩ := Option.bind_eq_some_iff.1 hrun
    by_cases htype : nd.type ≠ .dir
    · rw [if_pos htype] at hrun
      obtain ⟨rfl, rfl⟩ := Prod.mk.inj (Option.some.inj hrun)
      exact .inl ⟨rfl, rfl⟩
    · rw [if_neg htype] at hrun
      cases hgrant : w.grant w.fresh with
      | false => simp [newList, hgrant] at hrun
      | true =>
        simp only [newList, hgrant, if_true] at hrun
        obtain ⟨w₂, hlist, heq⟩ := Option.map_eq_some_iff.1 hrun
        obtain ⟨rfl, rfl⟩ := Prod.mk.inj heq
        have hchildren : σ.childEntries dir = (kids dir).filterMap σ.entryOf := by
          have hwalk' := walk_eq_some_iff.2 ⟨hσ.chain dir nd hnd, hσ.length_le dir⟩
          rw [TmpfsTree.childEntries, hnd, Option.bind_some, hwalk', Option.getD_some]
        have hstart : Builds w w.fresh [] [] { w with
            list := Function.update w.list w.fresh (some ⟨none, none⟩), fresh := w.fresh + 1 } :=
          ⟨⟨_, Function.update_self .., content_nil, rfl⟩, fun i hi => absurd hi List.not_mem_nil, fun _ _ => rfl,
            fun j hj => Function.update_of_ne hj _ _, fun i e he => Nat.lt_succ_of_lt (hbound i e he), Nat.lt_succ_self _, rfl, rfl⟩
        obtain ⟨own, h⟩ := hstart.listFrom (hσ.chain dir nd hnd) hlist
        rw [List.nil_append, ← hchildren] at h
        exact .inr ⟨dir, own, hwalk, rfl, h⟩

end DirWorld

end Flopperating
