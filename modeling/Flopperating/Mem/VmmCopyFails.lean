/-
# A copy that is cut short

`vmm_copy_pagemap` writes to pages that were free, and to the directory it has taken, so
whatever it returns the address spaces are as they were (`CopyTouched`).  When it returns none
the descriptors are as before as well, and a page is gone unless the copy stopped at the first
entry (`vmmCopyPagemap_failed`).  When it returns one, destroying that leaves pages behind.
-/

import Flopperating.Mem.VmmLeak

namespace Flopperating

open Vmm

variable {σ σ' σ₁ σ₂ : Vmm} {dirs : ℕ → Prop} {l : List ℕ} {a d i j n q r s t : ℕ} {status : ℤ}

/-- Memory has changed only in `q` and in pages that were free, and what is free was free. -/
structure CopyTouched (σ σ' : Vmm) (q : ℕ) : Prop where
  same : SameDescriptors σ σ'
  free : ∀ a ∈ σ'.freePages, a ∈ σ.freePages
  mem : ∀ a, a ≠ q → a ∉ σ.freePages → σ'.mem a = σ.mem a

theorem CopyTouched.refl (σ : Vmm) (q : ℕ) : CopyTouched σ σ q := ⟨.refl σ, fun _ h => h, fun _ _ _ => rfl⟩

theorem CopyTouched.trans (h : CopyTouched σ σ₁ q) (h' : CopyTouched σ₁ σ' q) : CopyTouched σ σ' q where
  same := h.same.trans h'.same
  free a ha := h.free a (h'.free a ha)
  mem a hne ha := (h'.mem a hne fun hmem => ha (h.free a hmem)).trans (h.mem a hne ha)

/-- One frame. -/
theorem copyTouched_frame {p w : ℕ} {free : List ℕ} (hp : σ.freePages = p :: free) (s : ℕ) :
    CopyTouched σ ((copyPage p s { σ with freePages := free }).setWord q j w) q := by
  obtain ⟨hs, hfree, hmem⟩ := copyPage_same p s { σ with freePages := free }
  refine ⟨⟨hs.1, hs.2, hs.3, hs.4, hs.5, hs.6, hs.7⟩, fun a ha => ?_, fun a hne ha => ?_⟩
  · change a ∈ (copyPage p s { σ with freePages := free }).freePages at ha
    rw [hfree] at ha
    rw [hp]
    exact List.mem_cons_of_mem p ha
  · rw [hp, List.mem_cons, not_or] at ha
    exact (TwoLevel.write_of_ne_page hne).trans (hmem a ha.1)

/-- **The frames behind an entry.** -/
theorem vmmCopyFramesFrom_touched (h : vmmCopyFramesFrom i q n j σ = some (status, σ')) : CopyTouched σ σ' q := by
  induction n generalizing j σ with
  | zero =>
    obtain ⟨-, rfl⟩ := Prod.mk.inj (Option.some.inj h)
    exact .refl σ q
  | succ n ih =>
    rw [vmmCopyFramesFrom] at h
    obtain ⟨pt, -, h⟩ := Option.bind_eq_some_iff.1 h
    split at h
    · rcases hp : σ.freePages with - | ⟨p, free⟩
      · rw [Vmm.allocPage, hp] at h
        obtain ⟨-, rfl⟩ := Prod.mk.inj (Option.some.inj h)
        exact .refl σ q
      · rw [Vmm.allocPage, hp] at h
        dsimp only at h
        split at h
        · obtain ⟨-, rfl⟩ := Prod.mk.inj (Option.some.inj h)
          refine ⟨⟨rfl, rfl, rfl, rfl, rfl, rfl, rfl⟩, fun a ha => ?_, fun _ _ _ => rfl⟩
          rw [hp]
          exact List.mem_cons_of_mem p ha
        · exact (copyTouched_frame hp _).trans (ih h)
    · exact ih h

/-- **The entries of the directory.** -/
theorem vmmCopyTablesFrom_touched {src dst : ℕ} (hpage : ∀ t ∈ σ.freePages, pageSize ∣ t)
    (hd : (σ.region dst).pgDir = d) (h : vmmCopyTablesFrom src dst n i σ = some (status, σ')) :
    CopyTouched σ σ' d := by
  induction n generalizing i σ with
  | zero =>
    obtain ⟨-, rfl⟩ := Prod.mk.inj (Option.some.inj h)
    exact .refl σ d
  | succ n ih =>
    rw [vmmCopyTablesFrom] at h
    split at h
    · rcases hp : σ.freePages with - | ⟨p, free⟩
      · rw [Vmm.allocPage, hp] at h
        obtain ⟨-, rfl⟩ := Prod.mk.inj (Option.some.inj h)
        exact .refl σ d
      · rw [Vmm.allocPage, hp] at h
        dsimp only at h
        split at h
        · obtain ⟨-, rfl⟩ := Prod.mk.inj (Option.some.inj h)
          refine ⟨⟨rfl, rfl, rfl, rfl, rfl, rfl, rfl⟩, fun a ha => ?_, fun _ _ _ => rfl⟩
          rw [hp]
          exact List.mem_cons_of_mem p ha
        · obtain ⟨⟨status₁, σ₁⟩, hframes, h⟩ := Option.bind_eq_some_iff.1 h
          have htable := vmmCopyFramesFrom_touched hframes
          have hs := htable.same
          have hold : CopyTouched σ σ₁ d := by
            refine ⟨⟨hs.1, hs.2, hs.3, hs.4, hs.5, hs.6, hs.7⟩, fun a ha => ?_, fun a _ ha => ?_⟩
            · rw [hp]
              exact List.mem_cons_of_mem p (htable.free a ha)
            · rw [hp, List.mem_cons, not_or] at ha
              exact (htable.mem a ha.1 ha.2).trans (TwoLevel.fill_of_ne ha.1)
          dsimp only at h
          split at h
          · obtain ⟨-, rfl⟩ := Prod.mk.inj (Option.some.inj h)
            obtain ⟨hsame, hmem⟩ := freePage_same p σ₁
            refine ⟨hold.same.trans hsame, fun a ha => ?_, fun a hne ha => by rw [hmem]; exact hold.mem a hne ha⟩
            have hdvd := hpage p (by rw [hp]; exact List.mem_cons_self)
            rw [Vmm.freePage] at ha
            split at ha
            · exact hold.free a ha
            · rcases List.mem_cons.1 ha with rfl | ha
              · rw [maskLow_of_dvd hdvd, hp]
                exact List.mem_cons_self
              · exact hold.free a ha
          · have hset : CopyTouched σ (σ₁.setWord (σ₁.region dst).pgDir i
                (maskLow p pageSize ||| σ₁.pde src i % pageSize)) d := by
              refine ⟨⟨hold.same.1, hold.same.2, hold.same.3, hold.same.4, hold.same.5, hold.same.6, hold.same.7⟩,
                hold.free, fun a hne ha => ?_⟩
              have hdir : (σ₁.region dst).pgDir = d := by rw [hold.same.region, hd]
              rw [hdir]
              exact (TwoLevel.write_of_ne_page hne).trans (hold.mem a hne ha)
            refine hset.trans (ih (fun t ht => hpage t (hset.free t ht)) ?_ h)
            rw [hset.same.region, hd]
    · exact ih hpage hd h

theorem vmmRegionDestroy_eq (h : vmmRegionDestroy r σ = some σ') :
    σ'.mem = σ.mem ∧ σ'.objects = r :: σ.objects ∧ ∀ s, (σ'.region s).pgDir = (σ.region s).pgDir := by
  obtain ⟨σ₁, hremove, h⟩ := Option.bind_eq_some_iff.1 h
  obtain rfl := Option.some.inj h
  rw [vmmRegionRemove] at hremove
  split at hremove
  · exact absurd hremove (by simp)
  · obtain rfl := Option.some.inj hremove
    obtain ⟨hsame, hmem⟩ := freePage_same (σ.region r).pgDir
      { σ with region := fun i => { σ.region i with next := _ }, regionList := _ }
    refine ⟨hmem, congrArg (r :: ·) hsame.objects, fun s => ?_⟩
    have hpgDir := congrArg (fun f : ℕ → Region => (f s).pgDir) hsame.region
    exact hpgDir

/-- Nothing of the address spaces is in a page that was free. -/
theorem Spaces.word_eq (h : Spaces σ dirs) (hd : dirs d) (hmem : ∀ a, a ∉ σ.freePages → σ'.mem a = σ.mem a)
    {p : ℕ} (hp : p < pageEntries * pageEntries) : σ'.word d p = σ.word d p := by
  have hdir : σ'.mem d = σ.mem d := hmem d fun hfree => (h.free_plain d hfree).1 hd
  rcases hlink : tableLink (σ.mem d (p / pageEntries)) with - | t
  · rw [Vmm.word, Vmm.word, TwoLevel.entry_of_none hlink, TwoLevel.entry_of_none (by rw [hdir]; exact hlink)]
  · rw [word_of_link hlink, word_of_link (by rw [hdir]; exact hlink), hmem t fun hfree => ?_]
    have hslot : p / pageEntries < pageEntries := Nat.div_lt_of_lt_mul hp
    rcases Nat.lt_or_ge (p / pageEntries) recursivePde with hlt | hge
    · exact (h.free_plain t hfree).2 d _ hd hlt hlink
    · have hself : p / pageEntries = recursivePde := le_antisymm (Nat.lt_succ_iff.1 hslot) hge
      rw [hself, h.self d hd] at hlink
      obtain rfl := Option.some.inj hlink
      exact (h.free_plain d hfree).1 hd

/-- **A copy that fails** without a page lost leaves everything as it was. -/
theorem vmmCopyPagemap_failed {src : ℕ} (h : Running σ dirs l) (hready : (Origin.copy src).Ready σ dirs)
    (hrun : vmmCopyPagemap src σ = some (none, σ')) (hidle : (Origin.copy src).Idle σ) :
    σ'.objects = σ.objects ∧ (σ'.region src).pgDir = (σ.region src).pgDir ∧
      ∀ a, a ∉ σ.freePages → σ'.mem a = σ.mem a := by
  cases vmmCopyPagemap_started h.spaces hready.1 h.current hready.2 with
  | noPage hnil hnone =>
    obtain ⟨-, rfl⟩ := Prod.mk.inj (Option.some.inj (hnone.symm.trans hrun))
    exact ⟨rfl, rfl, fun _ _ => rfl⟩
  | noObject d σ₁ hfree hobj hnone =>
    rcases hidle with hnil | ⟨hne, -⟩
    · exact absurd (hfree.symm.trans hnil) (List.cons_ne_nil _ _)
    · exact absurd hobj hne
  | begun dst d σ₁ hb hobj hbegun =>
    have hmem : d ∈ σ.freePages := by
      rw [hb.free]
      exact List.mem_cons_self
    obtain ⟨⟨status, σ₂⟩, htables, hfinish⟩ := Option.bind_eq_some_iff.1 (hbegun.symm.trans hrun)
    have hpage : ∀ t ∈ σ₁.freePages, pageSize ∣ t := fun t ht => (hb.ready.freeOk.2 t ht).2.1
    have htouched := vmmCopyTablesFrom_touched hpage hb.dstDir htables
    rw [copyFinish] at hfinish
    split at hfinish
    · obtain ⟨σ₃, hdestroy, hres⟩ := Option.bind_eq_some_iff.1 hfinish
      obtain ⟨-, rfl⟩ := Prod.mk.inj (Option.some.inj hres)
      obtain ⟨hmem₃, hobj₃, hdirs₃⟩ := vmmRegionDestroy_eq hdestroy
      refine ⟨?_, ?_, fun a ha => ?_⟩
      · rw [hobj₃, htouched.same.objects, hobj]
      · rw [hdirs₃, htouched.same.region, hb.srcDir]
      · have hd : a ≠ d := fun he => ha (he ▸ hmem)
        rw [hmem₃, htouched.mem a hd fun hfree => ha (by rw [hb.free]; exact List.mem_cons_of_mem d hfree), hb.mem a hd]
    · exact absurd (Prod.mk.inj (Option.some.inj hfinish)).1 (by simp)

/-- **A copy that is destroyed** leaves pages behind. -/
theorem vmmCopyPagemap_destroyed {src dst : ℕ} (h : Running σ dirs l) (hready : (Origin.copy src).Ready σ dirs)
    (hrun : vmmCopyPagemap src σ = some (some dst, σ₁)) (hdestroy : vmmRegionDestroy dst σ₁ = some σ') :
    σ'.freePages.length ≠ σ.freePages.length ∧ ¬ (Origin.copy src).Idle σ := by
  obtain ⟨f, hf, hnot, hunreachable⟩ := exists_unreachable h.spaces hready.1 h.current hready.2 hrun
  cases vmmCopyPagemap_born h hready hrun with
  | born _ d _ hpgDir hmem hsub hiff hlisted =>
    have hd := h.spaces.free_page d hmem
    have hfree := vmmRegionDestroy_frees (by rw [hpgDir]; exact ⟨hd.1, hd.2.1⟩) hdestroy
    rw [hpgDir] at hfree hunreachable
    have hlost : (d :: σ₁.freePages).length ≠ σ.freePages.length := fun hlen => by
      rw [← hsub.eq_of_length hlen] at hf
      rcases List.mem_cons.1 hf with rfl | hf
      · exact hunreachable (.inl rfl)
      · exact hnot hf
    rw [hfree]
    exact ⟨hlost, fun hidle => hlost (hiff.2 hidle)⟩

end Flopperating
