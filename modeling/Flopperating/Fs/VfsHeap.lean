/-
# What the operations on paths leave allocated

`vfs_resolve_mountpoint_and_path` copies the name and hands out a pointer into the copy, and
nobody frees it: `vfs_open`, also when it fails or when the node is closed afterwards, and
`vfs_stat` leave an object behind for every name that leads to a mountpoint.  A failing
`vfs_mount` leaves the mountpoint and its strings as soon as there is one.
-/

import Flopperating.Fs.VfsRuns

namespace Flopperating

open LinkedList VfsCall

namespace Vfs

variable {σ σ' : Vfs} {i k : ℕ} {mp : VfsMountpoint} {name : CString} {opens ms : List ℕ}

/-- The same objects are allocated. -/
def SameLive (σ σ' : Vfs) : Prop := ∀ i, (σ'.heap i).isSome = (σ.heap i).isSome

/-- There is memory for a copy of the name, and the last mountpoint is mounted at a prefix
of it. -/
def Leads (name : CString) (σ : Vfs) : Prop :=
  σ.grant σ.fresh = true ∧ ∃ t mp, σ.tail = some t ∧ σ.heap t = some (.mountpoint mp) ∧ mp.mountPoint.2 <+: name

theorem Inv.mountOf_eq_some (h : σ.Inv opens ms) : mountOf name σ ms = some i ↔
    σ.tail = some i ∧ ∃ mp, σ.heap i = some (.mountpoint mp) ∧ mp.mountPoint.2 <+: name := by
  rw [mountOf, lastMatch_eq_some, h.tail]
  simp only [decide_eq_true_eq, flopstrncmp_eq_zero]

theorem Inv.not_leads (h : σ.Inv opens ms) (hnone : σ.grant σ.fresh = false ∨ mountOf name σ ms = none) :
    ¬ σ.Leads name := by
  rintro ⟨hgrant, t, mp, htail, hmp, hprefix⟩
  rcases hnone with hno | hno
  · exact absurd (hno.symm.trans hgrant) (by simp)
  · exact absurd (hno.symm.trans (h.mountOf_eq_some.2 ⟨htail, mp, hmp, hprefix⟩)) (by simp)

theorem Inv.leads (h : σ.Inv opens ms) (hgrant : σ.grant σ.fresh = true) (hfound : mountOf name σ ms = some i) :
    σ.Leads name := by
  obtain ⟨htail, mp, hmp, hprefix⟩ := h.mountOf_eq_some.1 hfound
  exact ⟨hgrant, i, mp, htail, hmp, hprefix⟩

theorem SameLive.of_heap (h : σ'.heap = σ.heap) : SameLive σ σ' := fun i => by rw [h]

/-- Something new is allocated. -/
theorem Inv.not_sameLive (h : σ.Inv opens ms) (hnew : (σ'.heap σ.fresh).isSome = true) : ¬ SameLive σ σ' := fun hsame => by
  have := hsame σ.fresh
  rw [h.bound _ le_rfl, hnew] at this
  exact absurd this (by simp)

/-! ### Opening and closing -/

/-- **`vfs_open`** and, when it gives a node, `vfs_close`. -/
theorem Inv.open_close (h : σ.Inv opens ms) (name : CString) (mode : ℕ) :
    ∃ r σ₁, σ.vfsOpen name mode = some (r, σ₁) ∧ (r = none → (SameLive σ σ₁ ↔ ¬ σ.Leads name)) ∧
      ∀ n, r = some n → ∃ e σ₂, σ₁.vfsClose n = some (e, σ₂) ∧ (SameLive σ σ₂ ↔ ¬ σ.Leads name) := by
  rcases vfsOpen_cases h name mode with
    ⟨hnone, σ₁, hrun, hs⟩ | ⟨i, mp, hgrant, hfound, hmp, ⟨σ₁, hrun, hs⟩ | ⟨σ₁, hrun, hs⟩⟩
  · exact ⟨none, σ₁, hrun, fun _ => iff_of_true (.of_heap hs.heap) (h.not_leads hnone), fun n hn => absurd hn (by simp)⟩
  · have hnew : ¬ SameLive σ σ₁ := h.not_sameLive (by rw [hs.heap, Function.update_self]; rfl)
    exact ⟨none, σ₁, hrun, fun _ => iff_of_false hnew (not_not_intro (h.leads hgrant hfound)),
      fun n hn => absurd hn (by simp)⟩
  · refine ⟨some (σ.fresh + 1), σ₁, hrun, fun hno => absurd hno (by simp), fun n hn => ?_⟩
    obtain rfl := Option.some.inj hn
    obtain ⟨σ₂, hclose, hheap⟩ := h.close_opened hmp hs
    have htext : σ₂.heap σ.fresh = some .text := by
      rw [hheap, Function.update_of_ne (by omega), Function.update_self]
    exact ⟨0, σ₂, hclose, iff_of_false (h.not_sameLive (by rw [htext]; rfl)) (not_not_intro (h.leads hgrant hfound))⟩

theorem Inv.stat_live (h : σ.Inv opens ms) (path : CString) :
    ∃ r σ', σ.vfsStat path = some (r, σ') ∧ (SameLive σ σ' ↔ ¬ σ.Leads path) := by
  rcases vfsStat_cases h path with ⟨hnone, r, σ', hrun, hs⟩ | ⟨i, r, σ', hgrant, hfound, hrun, hs⟩
  · exact ⟨r, σ', hrun, iff_of_true (.of_heap hs.heap) (h.not_leads hnone)⟩
  · have hnew : ¬ SameLive σ σ' := h.not_sameLive (by rw [hs.heap, Function.update_self]; rfl)
    exact ⟨r, σ', hrun, iff_of_false hnew (not_not_intro (h.leads hgrant hfound))⟩

theorem Inv.mount_live (h : σ.Inv opens ms) (device path : CString) (type : ℤ) :
    ∃ r σ', σ.vfsMount device path type = some (r, σ') ∧ (r ≠ 0 → (SameLive σ σ' ↔ ¬ σ.CanCreate type)) := by
  rcases vfsMount_cases h device path type with ⟨hnot, k, σ', hrun, hs⟩ | ⟨hcan, fs, σ₁, r, σ', hs, hk, hrun, -⟩
  · exact ⟨-1, σ', hrun, fun _ => iff_of_true (.of_heap hs.heap) hnot⟩
  · have hnew : ¬ SameLive σ σ' := h.not_sameLive (by rw [hk.isSome_iff, hs.heap, Function.update_self]; rfl)
    exact ⟨r, σ', hrun, fun _ => iff_of_false hnew (not_not_intro hcan)⟩

end Vfs

open Vfs

/-- **What stays allocated.**  In every state that a run reaches, `vfs_open` that fails,
`vfs_open` and `vfs_close`, and `vfs_stat` leave the heap as it was exactly when the name
cannot be copied or leads to no mountpoint, and a `vfs_mount` that fails exactly when there is
no mountpoint yet. -/
theorem paths_leave_heap (fsList : List VfsFs) (grant : ℕ → Bool) (calls : List VfsCall) {σ : Vfs} {opens : List ℕ}
    (hrun : vfsRun calls (init fsList grant, []) = some (σ, opens)) (device name : CString) (mode : ℕ) (type : ℤ) :
    (∃ r σ₁, σ.vfsOpen name mode = some (r, σ₁) ∧ (r = none → (SameLive σ σ₁ ↔ ¬ σ.Leads name)) ∧
      ∀ n, r = some n → ∃ e σ₂, σ₁.vfsClose n = some (e, σ₂) ∧ (SameLive σ σ₂ ↔ ¬ σ.Leads name)) ∧
    (∃ r σ', σ.vfsStat name = some (r, σ') ∧ (SameLive σ σ' ↔ ¬ σ.Leads name)) ∧
    ∃ r σ', σ.vfsMount device name type = some (r, σ') ∧ (r ≠ 0 → (SameLive σ σ' ↔ ¬ σ.CanCreate type)) := by
  obtain ⟨ms, hinv, -⟩ := vfsRun_spec (inv_init fsList grant) hrun
  exact ⟨hinv.open_close name mode, hinv.stat_live name, hinv.mount_live device name type⟩

theorem paths_leave_heap_empty :
    (∃ r σ₁, (init [] fun _ => true).vfsOpen [] 0 = some (r, σ₁) ∧
        (r = none → (SameLive (init [] fun _ => true) σ₁ ↔ ¬ (init [] fun _ => true).Leads [])) ∧
      ∀ n, r = some n → ∃ e σ₂, σ₁.vfsClose n = some (e, σ₂) ∧
        (SameLive (init [] fun _ => true) σ₂ ↔ ¬ (init [] fun _ => true).Leads [])) ∧
    (∃ r σ', (init [] fun _ => true).vfsStat [] = some (r, σ') ∧
      (SameLive (init [] fun _ => true) σ' ↔ ¬ (init [] fun _ => true).Leads [])) ∧
    ∃ r σ', (init [] fun _ => true).vfsMount [] [] 0 = some (r, σ') ∧
      (r ≠ 0 → (SameLive (init [] fun _ => true) σ' ↔ ¬ (init [] fun _ => true).CanCreate 0)) :=
  paths_leave_heap [] (fun _ => true) [] rfl [] [] 0 0

/-- An open that fails below a mountpoint keeps the copy of the name. -/
theorem not_paths_leave_heap : ¬ ∀ (fsList : List VfsFs) (grant : ℕ → Bool) (calls : List VfsCall) (σ : Vfs)
    (opens : List ℕ), vfsRun calls (init fsList grant, []) = some (σ, opens) → ∀ (name : CString) (mode : ℕ) (σ₁ : Vfs),
      σ.vfsOpen name mode = some (none, σ₁) → SameLive σ σ₁ := by
  intro hall
  have hvalue : (vfsRun [.mount [] mountA 0] (init [plainFs] fun _ => true, [])).bind
      (fun s => (s.1.vfsOpen mountA 0).map fun o => (o.1, (o.2.heap 3).isSome, (s.1.heap 3).isSome)) =
        some (none, true, false) := by
    decide +kernel
  obtain ⟨⟨σ, opens⟩, hrun, hopen⟩ := Option.bind_eq_some_iff.1 hvalue
  obtain ⟨⟨r, σ₁⟩, hopen, hseen⟩ := Option.map_eq_some_iff.1 hopen
  obtain ⟨rfl, hnew, hold⟩ : r = none ∧ (σ₁.heap 3).isSome = true ∧ (σ.heap 3).isSome = false := by simpa using hseen
  have hsame := hall _ _ _ σ opens hrun mountA 0 σ₁ hopen 3
  rw [hnew, hold] at hsame
  exact absurd hsame (by simp)

end Flopperating
