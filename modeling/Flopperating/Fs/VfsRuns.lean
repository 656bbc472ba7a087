/-
# Runs of the virtual file system

What one call may do to the mountpoints (`VfsCall.Effect`), from it what a run does, and two
questions about every state that a run reaches: whether a name finds its mountpoint
(`mounts_resolve`) and whether the counts are what the list and the open nodes say
(`mounts_counted`).

`vfs_add_mountpoint` appends behind the tail and the searches start at the tail, so they see
one mountpoint of however many there are.  `vfs_mp_struc_alloc` starts the count of a
mountpoint at one and `vfs_add_mountpoint` raises it, and nothing gives the first back.
-/

import Flopperating.Fs.VfsMounts

namespace Flopperating

open LinkedList

namespace Vfs

variable {σ σ' : Vfs} {i t : ℕ} {path : CString}
  {h₁ h₂ : ℕ → Option KObject} {o : Option KObject} {opens ms l : List ℕ}

/-! ### Where the mountpoints are mounted -/

/-- The path of an object that is a mountpoint. -/
def pathAt : Option KObject → Option CString
  | some (.mountpoint mp) => some mp.mountPoint.2
  | _ => none

theorem pathAt_eq_some : pathAt o = some path ↔ ∃ mp, o = some (.mountpoint mp) ∧ mp.mountPoint.2 = path := by
  constructor
  · intro h
    unfold pathAt at h
    split at h
    · exact ⟨_, rfl, Option.some.inj h⟩
    · exact absurd h (by simp)
  · rintro ⟨mp, rfl, rfl⟩
    rfl

/-- The same mountpoints, where they were. -/
def SameMounts (h₁ h₂ : ℕ → Option KObject) : Prop := ∀ i, pathAt (h₂ i) = pathAt (h₁ i)

/-- A mountpoint more. -/
def NewMount (path : CString) (σ σ' : Vfs) : Prop :=
  pathAt (σ'.heap σ.fresh) = some path ∧ ∀ i, i ≠ σ.fresh → pathAt (σ'.heap i) = pathAt (σ.heap i)

theorem SameMounts.refl (heap : ℕ → Option KObject) : SameMounts heap heap := fun _ => rfl

/-- Another object where there is no mountpoint, or the mountpoint with another count. -/
theorem SameMounts.update (h : SameMounts h₁ h₂) (hi : pathAt o = pathAt (h₁ i)) :
    SameMounts h₁ (Function.update h₂ i o) := fun j => by
  rcases eq_or_ne j i with rfl | hne
  · rw [Function.update_self, hi]
  · rw [Function.update_of_ne hne, h j]

theorem Keeps.sameMounts (h : Keeps σ σ') : SameMounts σ.heap σ'.heap := fun i => by
  by_cases hex : ∃ mp, σ.heap i = some (.mountpoint mp)
  · obtain ⟨mp, hmp⟩ := hex
    obtain ⟨mp', hmp', hsame⟩ := h.mount i mp hmp
    rw [hmp, hmp', pathAt, pathAt, hsame.mountPoint]
  · rw [h.other i fun mp hmp => hex ⟨mp, hmp⟩]

/-- There is no mountpoint where nothing has been allocated. -/
theorem Inv.pathAt_fresh (h : σ.Inv opens ms) (hi : σ.fresh ≤ i) : pathAt (σ.heap i) = none := by
  rw [h.bound i hi]
  rfl

/-- The paths of the mountpoints of a list. -/
def pathsOf (σ : Vfs) (ms : List ℕ) : List CString := ms.filterMap fun m => pathAt (σ.heap m)

theorem pathsOf_congr (h : ∀ m ∈ ms, pathAt (σ'.heap m) = pathAt (σ.heap m)) : σ'.pathsOf ms = σ.pathsOf ms :=
  List.filterMap_congr h

theorem pathsOf_snoc (h : pathAt (σ.heap t) = some path) : σ.pathsOf (l ++ [t]) = σ.pathsOf l ++ [path] := by
  rw [pathsOf, List.filterMap_append]
  congr 1
  simp [h]

end Vfs

open Vfs

namespace VfsCall

/-! ### What one call does -/

/-- The paths that are mounted after a call that `paths` are mounted before. -/
def mounted : VfsCall → Vfs → List CString → List CString
  | mount device path type, σ, paths => if (σ.vfsMount device path type).map (·.1) = some 0 then paths ++ [path] else paths
  | unmount path, σ, paths => if (σ.vfsUnmount path).map (·.1) = some 0 then paths.erase path else paths
  | _, _, paths => paths

/-- A mount that gets as far as a mountpoint. -/
def Creates : VfsCall → Vfs → Prop
  | mount _ _ type, σ => σ.CanCreate type
  | _, _ => False

/-- What a call does to the mountpoints, in the list and out of it. -/
inductive Effect (c : VfsCall) (σ : Vfs) (ms : List ℕ) (σ' : Vfs) : List ℕ → Prop
  | same (hnot : ¬ c.Creates σ) (h : SameMounts σ.heap σ'.heap) (hpaths : ∀ paths, c.mounted σ paths = paths) : Effect c σ ms σ' ms
  | removed (l : List ℕ) (t : ℕ) (path : CString) (hlist : ms = l ++ [t]) (hnot : ¬ c.Creates σ) (h : SameMounts σ.heap σ'.heap)
      (hpath : pathAt (σ.heap t) = some path) (hpaths : ∀ paths, c.mounted σ paths = paths.erase path) : Effect c σ ms σ' l
  | added (path : CString) (hcreate : c.Creates σ) (h : NewMount path σ σ')
      (hpaths : ∀ paths, c.mounted σ paths = paths ++ [path]) : Effect c σ ms σ' (ms ++ [σ.fresh])
  | failed (path : CString) (hcreate : c.Creates σ) (h : NewMount path σ σ')
      (hpaths : ∀ paths, c.mounted σ paths = paths) : Effect c σ ms σ' ms

variable {σ σ' : Vfs} {c : VfsCall} {k n : ℕ} {path : CString} {opens opens' ms ms' : List ℕ} {s' : Vfs × List ℕ}

theorem Effect.of_heap {heap : ℕ → Option KObject} (hnot : ¬ c.Creates σ) (hs : HeapStep σ σ' heap k)
    (h : SameMounts σ.heap heap) (hpaths : ∀ paths, c.mounted σ paths = paths) : c.Effect σ ms σ' ms :=
  .same hnot (by rw [hs.heap]; exact h) hpaths

theorem mount_step (h : σ.Inv opens ms) (device path : CString) (type : ℤ) :
    ∃ σ' ms', (mount device path type).step (σ, opens) = some (σ', opens) ∧ σ'.Inv opens ms' ∧ σ'.fsList = σ.fsList ∧
      (mount device path type).Effect σ ms σ' ms' := by
  rcases vfsMount_cases h device path type with ⟨hnot, k, σ', hrun, hs⟩ | ⟨hcan, fs, σ₁, r, σ', hs, hk, hrun, hr⟩
  · have hpaths : ∀ paths, (mount device path type).mounted σ paths = paths := fun paths => by
      rw [mounted, hrun]
      exact if_neg (by simp)
    exact ⟨σ', ms, by rw [step, hrun]; rfl, h.idle hs, hs.fsList, .of_heap hnot hs (.refl _) hpaths⟩
  · have hstep : (mount device path type).step (σ, opens) = some (σ', opens) := by
      rw [step, hrun]
      rfl
    have hnew : NewMount path σ σ' := by
      refine ⟨?_, fun i hi => ?_⟩
      · rw [hk.sameMounts, hs.heap, Function.update_self]
        rfl
      · rw [hk.sameMounts, hs.heap, Function.update_of_ne hi]
        rcases eq_or_ne i (σ.fresh + 2) with rfl | h₂
        · rw [Function.update_self, h.bound _ (by omega)]
          rfl
        · rw [Function.update_of_ne h₂]
          rcases eq_or_ne i (σ.fresh + 1) with rfl | h₁
          · rw [Function.update_self, h.bound _ (by omega)]
            rfl
          · rw [Function.update_of_ne h₁]
    have hfs : σ'.fsList = σ.fsList := hk.fsList.trans hs.fsList
    rcases hr with ⟨rfl, hinv⟩ | ⟨rfl, hinv⟩
    · refine ⟨σ', ms ++ [σ.fresh], hstep, hinv, hfs, .added path hcan hnew fun paths => ?_⟩
      rw [mounted, hrun]
      exact if_pos rfl
    · refine ⟨σ', ms, hstep, hinv, hfs, .failed path hcan hnew fun paths => ?_⟩
      rw [mounted, hrun]
      exact if_neg (by simp)

theorem unmount_step (h : σ.Inv opens ms) (hshort : flopstrlen path < 256) :
    ∃ σ' ms', (unmount path).step (σ, opens) = some (σ', opens) ∧ σ'.Inv opens ms' ∧ σ'.fsList = σ.fsList ∧
      (unmount path).Effect σ ms σ' ms' := by
  rcases vfsUnmount_cases h hshort with ⟨-, hrun⟩ | ⟨l, t, mp, σ', rfl, hmp, rfl, -, hrun, hinv, hk⟩
  · refine ⟨σ, ms, by rw [step, hrun]; rfl, h, rfl, .same id (.refl _) fun paths => ?_⟩
    rw [mounted, hrun]
    exact if_neg (by simp)
  · refine ⟨σ', l, by rw [step, hrun]; rfl, hinv, hk.fsList,
      .removed l t _ rfl id hk.sameMounts (pathAt_eq_some.2 ⟨mp, hmp, rfl⟩) fun paths => ?_⟩
    rw [mounted, hrun]
    exact if_pos rfl

theorem vopen_step (h : σ.Inv opens ms) (name : CString) (mode : ℕ) :
    ∃ σ' opens', (vopen name mode).step (σ, opens) = some (σ', opens') ∧ σ'.Inv opens' ms ∧ σ'.fsList = σ.fsList ∧
      (vopen name mode).Effect σ ms σ' ms := by
  rcases vfsOpen_cases h name mode with ⟨-, σ', hrun, hs⟩ | ⟨i, mp, -, -, hmp, ⟨σ', hrun, hs⟩ | ⟨σ', hrun, hs⟩⟩
  · exact ⟨σ', opens, by rw [step, hrun]; rfl, h.idle hs, hs.fsList, .of_heap id hs (.refl _) fun _ => rfl⟩
  · exact ⟨σ', opens, by rw [step, hrun]; rfl, h.text hs, hs.fsList,
      .of_heap id hs ((SameMounts.refl _).update (h.pathAt_fresh le_rfl).symm) fun _ => rfl⟩
  · have hsame := ((SameMounts.refl σ.heap).update (o := some .text) (h.pathAt_fresh le_rfl).symm).update
      (o := some (.node ⟨i, mode, 1⟩)) (h.pathAt_fresh (Nat.le_succ _)).symm
    refine ⟨σ', (σ.fresh + 1) :: opens, by rw [step, hrun]; rfl, h.openNode hmp hs, hs.fsList,
      .of_heap id hs (hsame.update ?_) fun _ => rfl⟩
    rw [hmp]
    rfl

theorem close_step (h : σ.Inv opens ms) (k : ℕ) :
    ∃ σ' opens', (close k).step (σ, opens) = some (σ', opens') ∧ σ'.Inv opens' ms ∧ σ'.fsList = σ.fsList ∧
      (close k).Effect σ ms σ' ms := by
  rcases hk : opens[k]? with - | n
  · exact ⟨σ, opens, by rw [step, hk], h, rfl, .same id (.refl _) fun _ => rfl⟩
  · obtain ⟨nd, mp, σ', hnd, hmp, hrun, hs⟩ := vfsClose_spec h (List.mem_of_getElem? hk)
    have hstep : (close k).step (σ, opens) = some (σ', opens.eraseIdx k) := by
      rw [step, hk]
      dsimp only
      rw [hrun]
      rfl
    refine ⟨σ', opens.eraseIdx k, hstep, h.dropNode hk hnd hmp hs, hs.fsList,
      .of_heap id hs (((SameMounts.refl _).update ?_).update ?_) fun _ => rfl⟩
    · rw [hmp]
      rfl
    · rw [hnd]
      rfl

/-- The operations on a path beside the list. -/
theorem path_step (h : σ.Inv opens ms) (op : VfsOpTbl → Option (ℕ → ℤ)) (hshort : flopstrlen path < 256)
    (hnot : ¬ c.Creates σ) (hpaths : ∀ paths, c.mounted σ paths = paths)
    (hc : c.step (σ, opens) = (σ.vfsPathOp op path).map fun o => (o.2, opens)) :
    ∃ σ' opens', c.step (σ, opens) = some (σ', opens') ∧ σ'.Inv opens' ms ∧ σ'.fsList = σ.fsList ∧ c.Effect σ ms σ' ms := by
  obtain ⟨r, σ', hrun, hs⟩ := vfsPathOp_spec h op hshort
  rw [hrun] at hc
  exact ⟨σ', opens, hc, h.idle hs, hs.fsList, .of_heap hnot hs (.refl _) hpaths⟩

theorem stat_step (h : σ.Inv opens ms) (path : CString) :
    ∃ σ' opens', (stat path).step (σ, opens) = some (σ', opens') ∧ σ'.Inv opens' ms ∧ σ'.fsList = σ.fsList ∧
      (stat path).Effect σ ms σ' ms := by
  rcases vfsStat_cases h path with ⟨-, r, σ', hrun, hs⟩ | ⟨-, r, σ', -, -, hrun, hs⟩
  · exact ⟨σ', opens, by rw [step, hrun]; rfl, h.idle hs, hs.fsList, .of_heap id hs (.refl _) fun _ => rfl⟩
  · exact ⟨σ', opens, by rw [step, hrun]; rfl, h.text hs, hs.fsList,
      .of_heap id hs ((SameMounts.refl _).update (h.pathAt_fresh le_rfl).symm) fun _ => rfl⟩

/-- **A call** finds the objects that it looks at, and does to the mountpoints what
`Effect` says. -/
theorem step_spec (h : σ.Inv opens ms) (hshort : c.Short) :
    ∃ σ' opens' ms', c.step (σ, opens) = some (σ', opens') ∧ σ'.Inv opens' ms' ∧ σ'.fsList = σ.fsList ∧
      c.Effect σ ms σ' ms' := by
  cases c with
  | mount device path type =>
    obtain ⟨σ', ms', hspec⟩ := mount_step h device path type
    exact ⟨σ', opens, ms', hspec⟩
  | unmount path =>
    obtain ⟨σ', ms', hspec⟩ := unmount_step h hshort
    exact ⟨σ', opens, ms', hspec⟩
  | vopen name mode =>
    obtain ⟨σ', opens', hspec⟩ := vopen_step h name mode
    exact ⟨σ', opens', ms, hspec⟩
  | close k =>
    obtain ⟨σ', opens', hspec⟩ := close_step h k
    exact ⟨σ', opens', ms, hspec⟩
  | create name =>
    obtain ⟨σ', opens', hspec⟩ := path_step (c := create name) h _ hshort id (fun _ => rfl) rfl
    exact ⟨σ', opens', ms, hspec⟩
  | unlink path =>
    obtain ⟨σ', opens', hspec⟩ := path_step (c := unlink path) h _ hshort id (fun _ => rfl) rfl
    exact ⟨σ', opens', ms, hspec⟩
  | mkdir path =>
    obtain ⟨σ', opens', hspec⟩ := path_step (c := mkdir path) h _ hshort id (fun _ => rfl) rfl
    exact ⟨σ', opens', ms, hspec⟩
  | rmdir path =>
    obtain ⟨σ', opens', hspec⟩ := path_step (c := rmdir path) h _ hshort id (fun _ => rfl) rfl
    exact ⟨σ', opens', ms, hspec⟩
  | stat path =>
    obtain ⟨σ', opens', hspec⟩ := stat_step h path
    exact ⟨σ', opens', ms, hspec⟩

/-- A name that does not fit has no step. -/
theorem short_of_step {s : Vfs × List ℕ} (hstep : c.step s = some s') : c.Short := by
  have hpath : ∀ (op : VfsOpTbl → Option (ℕ → ℤ)) (σ : Vfs) (path : CString) (r : ℤ × Vfs → Vfs × List ℕ),
      (σ.vfsPathOp op path).map r = some s' → flopstrlen path < 256 := fun op σ path r hrun => by
    by_contra hlong
    rw [vfsPathOp, vfsGetMountpointForCreate, if_pos (by omega)] at hrun
    exact absurd hrun (by simp)
  obtain ⟨σ, opens⟩ := s
  cases c with
  | mount device path type => trivial
  | unmount path =>
    by_contra hlong
    have hlong : ¬ flopstrlen path < 256 := hlong
    rw [step, vfsUnmount, if_pos (by omega)] at hstep
    exact absurd hstep (by simp)
  | vopen name mode => trivial
  | close k => trivial
  | create name => exact hpath _ σ name _ hstep
  | unlink path => exact hpath _ σ path _ hstep
  | mkdir path => exact hpath _ σ path _ hstep
  | rmdir path => exact hpath _ σ path _ hstep
  | stat path => trivial

/-! ### What a run does -/

/-- The paths that are mounted after a run. -/
def mountedAfter : List VfsCall → Vfs × List ℕ → List CString → List CString
  | [], _, paths => paths
  | c :: calls, s, paths => (c.step s).elim paths fun s' => mountedAfter calls s' (c.mounted s.1 paths)

/-- Some mount of the run gets as far as a mountpoint. -/
def CreatesIn : List VfsCall → Vfs × List ℕ → Prop
  | [], _ => False
  | c :: calls, s => c.Creates s.1 ∨ ∃ s', c.step s = some s' ∧ CreatesIn calls s'

theorem Effect.paths (h : σ.Inv opens ms) (heff : c.Effect σ ms σ' ms') {paths : List CString}
    (hpaths : (σ.pathsOf ms).Perm paths) : (σ'.pathsOf ms').Perm (c.mounted σ paths) := by
  cases heff with
  | same hnot hsame hmounted =>
    rw [hmounted, pathsOf_congr fun m _ => hsame m]
    exact hpaths
  | removed l t path hlist hnot hsame hpath hmounted =>
    rw [hlist, pathsOf_snoc hpath] at hpaths
    rw [hmounted, pathsOf_congr fun m _ => hsame m]
    have herase := ((List.perm_append_comm.trans hpaths).erase path)
    rwa [List.singleton_append, List.erase_cons_head] at herase
  | added path hcreate hnew hmounted =>
    have hold : σ'.pathsOf ms = σ.pathsOf ms := pathsOf_congr fun m hm => hnew.2 m fun he => by
      obtain ⟨mp, hmp⟩ := h.live m hm
      exact absurd (h.lt_fresh hmp) (by omega)
    rw [hmounted, pathsOf_snoc hnew.1, hold]
    exact hpaths.append_right _
  | failed path hcreate hnew hmounted =>
    have hold : σ'.pathsOf ms = σ.pathsOf ms := pathsOf_congr fun m hm => hnew.2 m fun he => by
      obtain ⟨mp, hmp⟩ := h.live m hm
      exact absurd (h.lt_fresh hmp) (by omega)
    rw [hmounted, hold]
    exact hpaths

/-- A mountpoint is there when one was, or when the call creates one: none goes away. -/
theorem Effect.exists_mount (heff : c.Effect σ ms σ' ms') :
    (∃ i, pathAt (σ'.heap i) ≠ none) ↔ (∃ i, pathAt (σ.heap i) ≠ none) ∨ c.Creates σ := by
  have hnew : ∀ path, NewMount path σ σ' → ∃ i, pathAt (σ'.heap i) ≠ none := fun path hnew =>
    ⟨σ.fresh, by rw [hnew.1]; simp⟩
  cases heff with
  | same hnot hsame hmounted => simp only [hsame _, hnot, or_false]
  | removed l t path hlist hnot hsame hpath hmounted => simp only [hsame _, hnot, or_false]
  | added path hcreate hadd hmounted => exact iff_of_true (hnew path hadd) (.inr hcreate)
  | failed path hcreate hadd hmounted => exact iff_of_true (hnew path hadd) (.inr hcreate)

/-- **A run** keeps the invariant, and what is mounted is what its calls say. -/
theorem vfsRun_spec {calls : List VfsCall} (h : σ.Inv opens ms) (hrun : vfsRun calls (σ, opens) = some (σ', opens')) :
    ∃ ms', σ'.Inv opens' ms' ∧ σ'.fsList = σ.fsList ∧
      (∀ paths, (σ.pathsOf ms).Perm paths → (σ'.pathsOf ms').Perm (mountedAfter calls (σ, opens) paths)) ∧
      ((∃ i, pathAt (σ'.heap i) ≠ none) ↔ (∃ i, pathAt (σ.heap i) ≠ none) ∨ CreatesIn calls (σ, opens)) := by
  induction calls generalizing σ opens ms with
  | nil =>
    obtain ⟨rfl, rfl⟩ := Prod.mk.inj (Option.some.inj hrun)
    exact ⟨ms, h, rfl, fun paths hpaths => hpaths, by simp only [CreatesIn, or_false]⟩
  | cons c calls ih =>
    obtain ⟨⟨σ₁, opens₁⟩, hstep, hrest⟩ := Option.bind_eq_some_iff.1 hrun
    obtain ⟨σ₂, opens₂, ms₁, hstep₂, hinv, hfs, heff⟩ := step_spec h (short_of_step hstep)
    obtain ⟨rfl, rfl⟩ := Prod.mk.inj (Option.some.inj (hstep₂.symm.trans hstep))
    obtain ⟨ms', hinv', hfs', hpaths', hlive'⟩ := ih hinv hrest
    refine ⟨ms', hinv', hfs'.trans hfs, fun paths hpaths => ?_, ?_⟩
    · rw [mountedAfter, hstep]
      exact hpaths' _ (heff.paths h hpaths)
    · rw [hlive', heff.exists_mount, CreatesIn, hstep, or_assoc]
      simp only [Option.some.injEq, exists_eq_left']

/-- A run of calls whose names fit. -/
theorem vfsRun_defined (calls : List VfsCall) (h : σ.Inv opens ms) :
    (∃ s', vfsRun calls (σ, opens) = some s') ↔ ∀ c ∈ calls, c.Short := by
  induction calls generalizing σ opens ms with
  | nil => exact iff_of_true ⟨_, rfl⟩ fun c hc => absurd hc List.not_mem_nil
  | cons c calls ih =>
    constructor
    · rintro ⟨s', hrun⟩
      obtain ⟨⟨σ₁, opens₁⟩, hstep, hrest⟩ := Option.bind_eq_some_iff.1 hrun
      have hshort := short_of_step hstep
      obtain ⟨σ₂, opens₂, ms₁, hstep₂, hinv, -, -⟩ := step_spec h hshort
      obtain ⟨rfl, rfl⟩ := Prod.mk.inj (Option.some.inj (hstep₂.symm.trans hstep))
      exact List.forall_mem_cons.2 ⟨hshort, (ih hinv).1 ⟨s', hrest⟩⟩
    · intro hall
      obtain ⟨hshort, hrest⟩ := List.forall_mem_cons.1 hall
      obtain ⟨σ₁, opens₁, ms₁, hstep, hinv, -, -⟩ := step_spec h hshort
      rw [vfsRun, hstep]
      exact (ih hinv).2 hrest

end VfsCall

open VfsCall

/-! ### Finding a mountpoint -/

namespace Vfs

/-- The search for `name` finds a mountpoint in the list whose path is a prefix of it, or none
when there is none. -/
def Resolves (σ : Vfs) (name : CString) : Prop :=
  ∃ found, σ.vfsFileToMountpoint name = some found ∧
    (∀ i, found = some i → Linked σ.nextOf σ.head i ∧ ∃ path, pathAt (σ.heap i) = some path ∧ path <+: name) ∧
    (found = none → ∀ i path, Linked σ.nextOf σ.head i → pathAt (σ.heap i) = some path → ¬ path <+: name)

/-- `vfs_unmount` returns `0` and takes one mountpoint, which was at `path`, out of the list. -/
def Unmounts (σ : Vfs) (path : CString) : Prop :=
  ∃ σ' i, σ.vfsUnmount path = some (0, σ') ∧ Linked σ.nextOf σ.head i ∧ pathAt (σ.heap i) = some path ∧
    ∀ j, Linked σ'.nextOf σ'.head j ↔ Linked σ.nextOf σ.head j ∧ j ≠ i

variable {σ : Vfs} {i t : ℕ} {path : CString} {opens ms l : List ℕ}

/-- Every mountpoint in the list has a path. -/
theorem map_pathAt (hlive : ∀ m ∈ ms, ∃ mp, σ.heap m = some (.mountpoint mp)) :
    ms.map (fun m => pathAt (σ.heap m)) = (σ.pathsOf ms).map some := by
  induction ms with
  | nil => rfl
  | cons m ms ih =>
    obtain ⟨mp, hmp⟩ := hlive m List.mem_cons_self
    have hpath : pathAt (σ.heap m) = some mp.mountPoint.2 := pathAt_eq_some.2 ⟨mp, hmp, rfl⟩
    rw [List.map_cons, ih fun a ha => hlive a (List.mem_cons_of_mem _ ha)]
    simp [pathsOf, hpath]

theorem mem_pathsOf : path ∈ σ.pathsOf ms ↔ ∃ m ∈ ms, pathAt (σ.heap m) = some path := List.mem_filterMap

theorem Inv.pathsOf_last (h : σ.Inv opens ms) : (σ.pathsOf ms).getLast? = some path ↔
    ∃ t mp, ms.getLast? = some t ∧ σ.heap t = some (.mountpoint mp) ∧ mp.mountPoint.2 = path := by
  rcases List.eq_nil_or_concat ms with rfl | ⟨l, t, rfl⟩
  · simp [pathsOf]
  · rw [List.concat_eq_append] at *
    obtain ⟨mp, hmp⟩ := h.live t (List.mem_append_right _ (List.mem_singleton.2 rfl))
    rw [pathsOf_snoc (pathAt_eq_some.2 ⟨mp, hmp, rfl⟩), List.getLast?_concat, List.getLast?_concat]
    constructor
    · intro hlast
      exact ⟨t, mp, rfl, hmp, Option.some.inj hlast⟩
    · rintro ⟨t', mp', ht, hmp', rfl⟩
      obtain rfl := Option.some.inj ht
      rw [KObject.mountpoint.inj (Option.some.inj (hmp.symm.trans hmp'))]

/-- The search sees the last mountpoint. -/
theorem Inv.resolves_iff (h : σ.Inv opens ms) (name : CString) : σ.Resolves name ↔
    (∀ path ∈ σ.pathsOf ms, ¬ path <+: name) ∨ ∃ path, (σ.pathsOf ms).getLast? = some path ∧ path <+: name := by
  have hrun := h.vfsFileToMountpoint name
  constructor
  · rintro ⟨found, hfound, hsome, hnone⟩
    obtain rfl := Option.some.inj (hrun.symm.trans hfound)
    rcases hlast : mountOf name σ ms with - | t
    · refine .inl fun path hpath => ?_
      obtain ⟨m, hm, hat⟩ := mem_pathsOf.1 hpath
      exact hnone hlast m path (h.chain.linked_iff.2 hm) hat
    · obtain ⟨htail, mp, hmp, hprefix⟩ := lastMatch_eq_some.1 hlast
      exact .inr ⟨_, h.pathsOf_last.2 ⟨t, mp, htail, hmp, rfl⟩, flopstrncmp_eq_zero.1 (of_decide_eq_true hprefix)⟩
  · intro hcond
    refine ⟨_, hrun, fun i hi => ?_, fun hnone i path hi hat hprefix => ?_⟩
    · obtain ⟨htail, mp, hmp, hprefix⟩ := lastMatch_eq_some.1 hi
      exact ⟨h.chain.linked_iff.2 (List.mem_of_getLast? htail), _, pathAt_eq_some.2 ⟨mp, hmp, rfl⟩,
        flopstrncmp_eq_zero.1 (of_decide_eq_true hprefix)⟩
    · rcases hcond with hno | ⟨last, hlast, hprefix'⟩
      · exact hno path (mem_pathsOf.2 ⟨i, h.chain.linked_iff.1 hi, hat⟩) hprefix
      · obtain ⟨t, mp, htail, hmp, rfl⟩ := h.pathsOf_last.1 hlast
        have hsome := lastMatch_eq_some (p := fun mp => flopstrncmp mp.mountPoint.2 name (flopstrlen mp.mountPoint.2) = 0).2
          ⟨htail, mp, hmp, decide_eq_true (flopstrncmp_eq_zero.2 hprefix')⟩
        exact absurd (hnone.symm.trans hsome) (by simp)

theorem Inv.unmounts_iff (h : σ.Inv opens ms) (hfs : ∀ fs ∈ σ.fsList, fs.opTable.opUnmount.isSome) :
    σ.Unmounts path ↔ flopstrlen path < 256 ∧ (σ.pathsOf ms).getLast? = some path := by
  constructor
  · rintro ⟨σ', i, hrun, -⟩
    have hshort : flopstrlen path < 256 := short_of_step (c := .unmount path) (s := (σ, opens)) (by
      rw [step, hrun]
      rfl)
    refine ⟨hshort, ?_⟩
    rcases vfsUnmount_cases h hshort with ⟨-, hfail⟩ | ⟨l, t, mp, -, rfl, hmp, hpath, -, -, -, -⟩
    · exact absurd (Prod.mk.inj (Option.some.inj (hfail.symm.trans hrun))).1 (by simp)
    · exact h.pathsOf_last.2 ⟨t, mp, List.getLast?_concat, hmp, hpath⟩
  · rintro ⟨hshort, hlast⟩
    obtain ⟨t, mp, htail, hmp, hpath⟩ := h.pathsOf_last.1 hlast
    rcases vfsUnmount_cases h hshort with ⟨hnot, -⟩ | ⟨l, t', mp', σ', rfl, hmp', hpath', -, hrun, hinv, -⟩
    · exact absurd ⟨hpath, hfs _ (h.fs t mp hmp)⟩ (hnot t mp htail hmp)
    · have hnot : t' ∉ l := (nodup_snoc.1 h.chain.nodup).2
      refine ⟨σ', t', hrun, h.chain.linked_iff.2 (List.mem_append_right _ (List.mem_singleton.2 rfl)),
        pathAt_eq_some.2 ⟨mp', hmp', hpath'⟩, fun j => ?_⟩
      rw [hinv.chain.linked_iff, h.chain.linked_iff, List.mem_append, List.mem_singleton]
      constructor
      · intro hj
        exact ⟨.inl hj, fun he => hnot (by rwa [← he])⟩
      · rintro ⟨hj, hne⟩
        exact hj.resolve_right hne

end Vfs

/-- **Where a name leads.**  In every state that a run reaches, with `paths` the paths that
are mounted, in the order of mounting: the search for a name is right exactly when the last
of them is a prefix of it or none is, and `vfs_unmount` of a mounted path is right exactly when
it is the last one, and fits the buffer of 256 bytes. -/
theorem mounts_resolve (fsList : List VfsFs) (grant : ℕ → Bool) (hfs : ∀ fs ∈ fsList, fs.opTable.opUnmount.isSome)
    {calls : List VfsCall} {σ : Vfs} {opens : List ℕ} (hrun : vfsRun calls (init fsList grant, []) = some (σ, opens)) :
    ∃ (ms : List ℕ) (paths : List CString), Chain σ.nextOf σ.head ms ∧ ms.map (fun m => pathAt (σ.heap m)) = paths.map some ∧
      paths.Perm (mountedAfter calls (init fsList grant, []) []) ∧
      (∀ name, σ.Resolves name ↔
        (∀ path ∈ paths, ¬ path <+: name) ∨ ∃ path, paths.getLast? = some path ∧ path <+: name) ∧
      ∀ path ∈ paths, σ.Unmounts path ↔ flopstrlen path < 256 ∧ paths.getLast? = some path := by
  obtain ⟨ms, hinv, hsame, hpaths, -⟩ := vfsRun_spec (inv_init fsList grant) hrun
  have hlist : σ.fsList = fsList := hsame
  exact ⟨ms, σ.pathsOf ms, hinv.chain, map_pathAt hinv.live, hpaths [] (.refl _), hinv.resolves_iff,
    fun path _ => hinv.unmounts_iff (by rwa [hlist])⟩

/-- A file system that always mounts and unmounts. -/
def plainFs : VfsFs := ⟨⟨none, none, some fun _ => some 0, some fun _ => 0, none, none, none, none, none, none⟩, 0⟩

theorem slashByte_ne : (47 : UInt8) ≠ 0 := by decide

theorem aByte_ne : (97 : UInt8) ≠ 0 := by decide

theorem bByte_ne : (98 : UInt8) ≠ 0 := by decide

/-- `"/"` and a letter. -/
def mountA : CString := [⟨47, slashByte_ne⟩, ⟨97, aByte_ne⟩]

def mountB : CString := [⟨47, slashByte_ne⟩, ⟨98, bByte_ne⟩]

theorem mounts_resolve_one : ∃ σ opens, vfsRun [.mount [] mountA 0] (init [plainFs] fun _ => true, []) = some (σ, opens) ∧
    ∃ (ms : List ℕ) (paths : List CString), Chain σ.nextOf σ.head ms ∧ ms.map (fun m => pathAt (σ.heap m)) = paths.map some ∧
      paths.Perm (mountedAfter [.mount [] mountA 0] (init [plainFs] fun _ => true, []) []) ∧
      (∀ name, σ.Resolves name ↔
        (∀ path ∈ paths, ¬ path <+: name) ∨ ∃ path, paths.getLast? = some path ∧ path <+: name) ∧
      ∀ path ∈ paths, σ.Unmounts path ↔ flopstrlen path < 256 ∧ paths.getLast? = some path := by
  obtain ⟨⟨σ, opens⟩, hrun⟩ := (vfsRun_defined [.mount [] mountA 0] (inv_init [plainFs] fun _ => true)).2
    fun c hc => by
      obtain rfl := List.mem_singleton.1 hc
      trivial
  exact ⟨σ, opens, hrun, mounts_resolve [plainFs] (fun _ => true) (by simp [plainFs]) hrun⟩

/-- After two mounts the first is not found. -/
theorem not_mounts_resolve : ¬ ∀ (fsList : List VfsFs) (grant : ℕ → Bool) (calls : List VfsCall) (σ : Vfs) (opens : List ℕ),
    (∀ fs ∈ fsList, fs.opTable.opUnmount.isSome ∧ ∃ mount, fs.opTable.opMount = some mount ∧ ∀ k, mount k ≠ none) →
    vfsRun calls (init fsList grant, []) = some (σ, opens) → ∀ name, σ.Resolves name := by
  intro hall
  have hvalue : (vfsRun [.mount [] mountA 0, .mount [] mountB 0] (init [plainFs] fun _ => true, [])).map
      (fun s => (s.1.vfsFileToMountpoint mountA, s.1.head, pathAt (s.1.heap 0))) =
        some (some none, some 0, some mountA) := by
    decide +kernel
  obtain ⟨⟨σ, opens⟩, hrun, hseen⟩ := Option.map_eq_some_iff.1 hvalue
  obtain ⟨hsearch, hhead, hat⟩ : σ.vfsFileToMountpoint mountA = some none ∧ σ.head = some 0 ∧
      pathAt (σ.heap 0) = some mountA := by simpa using hseen
  obtain ⟨found, hfound, -, hnone⟩ := hall _ _ _ σ opens (by simp [plainFs]) hrun mountA
  obtain rfl := Option.some.inj (hsearch.symm.trans hfound)
  refine hnone rfl 0 mountA ?_ hat (List.prefix_refl _)
  rw [hhead]
  exact .here 0

/-! ### Counting references -/

namespace Vfs

/-- Who refers to a mountpoint finds it, its count is one for the list and one for each open
node, and it is there as long as it is in the list or has an open node. -/
def MountpointLaw (σ : Vfs) (opens : List ℕ) : Prop :=
  (∀ i, Linked σ.nextOf σ.head i → ∃ mp, σ.heap i = some (.mountpoint mp)) ∧
  (∀ n ∈ opens, ∃ nd mp, σ.heap n = some (.node nd) ∧ σ.heap nd.mountpoint = some (.mountpoint mp)) ∧
  ∀ i mp, σ.heap i = some (.mountpoint mp) →
    (Linked σ.nextOf σ.head i → mp.refcount = 1 + openOn σ.heap opens i) ∧
    (¬ Linked σ.nextOf σ.head i → mp.refcount = openOn σ.heap opens i ∧ 0 < openOn σ.heap opens i)

variable {σ : Vfs} {opens ms : List ℕ}

/-- The law holds where there is no mountpoint. -/
theorem Inv.mountpointLaw_iff (h : σ.Inv opens ms) : σ.MountpointLaw opens ↔ ¬ ∃ i, pathAt (σ.heap i) ≠ none := by
  constructor
  · rintro ⟨-, -, hlaw⟩ ⟨i, hi⟩
    obtain ⟨path, hpath⟩ := Option.ne_none_iff_exists'.1 hi
    obtain ⟨mp, hmp, -⟩ := pathAt_eq_some.1 hpath
    have hcount := h.count i mp hmp
    by_cases hin : i ∈ ms
    · have hone := (hlaw i mp hmp).1 (h.chain.linked_iff.2 hin)
      rw [if_pos hin] at hcount
      omega
    · have hzero := ((hlaw i mp hmp).2 fun hl => hin (h.chain.linked_iff.1 hl)).1
      rw [if_neg hin] at hcount
      omega
  · intro hnone
    refine ⟨fun i hi => h.live i (h.chain.linked_iff.1 hi), h.node, fun i mp hmp => ?_⟩
    exact absurd ⟨i, by rw [hmp]; simp [pathAt]⟩ hnone

end Vfs

/-- **What the counts say.**  A run is defined and ends in the law exactly when every name
fits its buffer and no mount of it gets as far as a mountpoint. -/
theorem mounts_counted (fsList : List VfsFs) (grant : ℕ → Bool) (calls : List VfsCall) :
    (∃ σ opens, vfsRun calls (init fsList grant, []) = some (σ, opens) ∧ σ.MountpointLaw opens) ↔
      (∀ c ∈ calls, c.Short) ∧ ¬ CreatesIn calls (init fsList grant, []) := by
  have hbare : ¬ ∃ i, pathAt ((init fsList grant).heap i) ≠ none := fun ⟨i, hi⟩ => hi rfl
  constructor
  · rintro ⟨σ, opens, hrun, hlaw⟩
    obtain ⟨ms, hinv, -, -, hlive⟩ := vfsRun_spec (inv_init fsList grant) hrun
    refine ⟨(vfsRun_defined calls (inv_init fsList grant)).1 ⟨_, hrun⟩, fun hcreates => ?_⟩
    exact hinv.mountpointLaw_iff.1 hlaw (hlive.2 (.inr hcreates))
  · rintro ⟨hshort, hnot⟩
    obtain ⟨⟨σ, opens⟩, hrun⟩ := (vfsRun_defined calls (inv_init fsList grant)).2 hshort
    obtain ⟨ms, hinv, -, -, hlive⟩ := vfsRun_spec (inv_init fsList grant) hrun
    refine ⟨σ, opens, hrun, hinv.mountpointLaw_iff.2 fun hex => ?_⟩
    rcases hlive.1 hex with hold | hcreates
    · exact hbare hold
    · exact hnot hcreates

/-- One mount has a reference too many. -/
theorem not_mounts_counted : ¬ ∀ (fsList : List VfsFs) (grant : ℕ → Bool) (calls : List VfsCall),
    (∀ c ∈ calls, c.Short) →
      ∃ σ opens, vfsRun calls (init fsList grant, []) = some (σ, opens) ∧ σ.MountpointLaw opens := by
  intro hall
  obtain ⟨σ, opens, hrun, -, -, hlaw⟩ := hall [plainFs] (fun _ => true) [.mount [] mountA 0] fun c hc => by
    obtain rfl := List.mem_singleton.1 hc
    trivial
  have hvalue : (vfsRun [.mount [] mountA 0] (init [plainFs] fun _ => true, [])).map
      (fun s => ((s.1.mp? 0).map (·.refcount), s.1.head, s.2)) = some (some 2, some 0, []) := by
    decide +kernel
  rw [hrun] at hvalue
  obtain ⟨hcount, hhead, hopens⟩ : (σ.mp? 0).map (·.refcount) = some 2 ∧ σ.head = some 0 ∧ opens = [] := by
    simpa using hvalue
  obtain ⟨mp, hmp, htwo⟩ := Option.map_eq_some_iff.1 hcount
  have hone := (hlaw 0 mp (mp?_eq_some.1 hmp)).1 (by rw [hhead]; exact .here 0)
  rw [htwo, hopens] at hone
  exact absurd hone (by simp [openOn])

end Flopperating
