/-
# What user code can reach

`vmm_region_create` links the directory to itself with `PAGE_USER`, and `vmm_map` links
page tables with it.  So `vmm_is_user_mapped` is true in the recursive window wherever
there is a page table, and always at its last page, where the directory is
(`window_is_user_mapped`).  `vmm_init` and `vmm_copy_pagemap` leave `PAGE_USER` out.
-/

import Flopperating.Mem.VmmNuke

namespace Flopperating

open Transition Vmm

variable {s σ : Vmm} {dirs : ℕ → Prop} {addr d i j r size va : ℕ}

/-- What `vmm_copy_from_user` and `vmm_copy_to_user` return for a buffer of the user. -/
def vmmCopyStatus (addr len : ℕ) (σ : Vmm) : Option ℤ :=
  match σ.currentRegion with
  | none => if len = 0 then some 0 else some (-1)
  | some r => (vmmVerifyBuffer r addr len σ).map fun status => if status ≠ 0 then -1 else 0

/-- The call is on user addresses. -/
def RegionOp.User (r : ℕ) (σ : Vmm) : RegionOp → Prop
  | map va _ _ => userSpaceStart ≤ va ∧ va ≤ userSpaceEnd
  | alloc pages _ => userSpaceStart ≤ vmmBump r σ ∧ vmmBump r σ + pages * pageSize ≤ userSpaceEnd + 1

/-- One call on user addresses. -/
def UserStep (r : ℕ) (s : Vmm) (op : RegionOp) (s' : Vmm) : Prop := op.User r s ∧ op.run r s = some s'

/-- No address above user space is mapped for user code, and no buffer that touches the
recursive window is let through. -/
structure WindowClosed (r : ℕ) (σ : Vmm) : Prop where
  unmapped : ∀ va, userSpaceEnd < va → va < 2 ^ 32 → vmmIsUserMapped r va σ = some false
  rejected : ∀ addr size, addr < 2 ^ 32 → size < 2 ^ 32 → (∃ i < size, recursiveAddr ≤ u32 (addr + i)) →
    vmmVerifyBuffer r addr size σ = some (-1) ∧ vmmCopyStatus addr size σ = some (-1)

/-- Above user space the pages of the window are mapped for user code that show a page
table or the directory, and buffers in a page table are let through. -/
structure WindowOpen (r d : ℕ) (σ : Vmm) : Prop where
  mapped : ∀ va, userSpaceEnd < va → va < 2 ^ 32 → vmmIsUserMapped r va σ =
    some (decide (recursiveAddr ≤ va) && present (σ.mem d ((va - recursiveAddr) / pageSize)))
  self : vmmIsUserMapped r (2 ^ 32 - pageSize) σ = some true
  accepted : ∀ i, tableSlot i → present (σ.mem d i) = true → ∀ size, 0 < size → size ≤ pageSize →
    vmmVerifyBuffer r (recursiveAddr + i * pageSize) size σ = some 0

/-- The addresses of user space. -/
abbrev userTop : ℕ := userSpaceEnd + 1

theorem RegionHeld.userEntry (h : RegionHeld userTop r d σ) (hi : i < pageEntries)
    (hpres : present (σ.mem d i) = true) : userBit (σ.mem d i) = true := by
  obtain ⟨-, dirs, hinv⟩ := h
  rcases Nat.lt_or_ge i recursivePde with hlt | hge
  · exact (hinv.entry i hlt hpres).2
  · obtain rfl : i = recursivePde := le_antisymm (Nat.lt_succ_iff.1 hi) hge
    rw [hinv.self, userBit_pageEntry]
    rfl

/-- **Above user space**, what is mapped for user code. -/
theorem RegionHeld.isUserMapped (h : RegionHeld userTop r d σ) (hva : userSpaceEnd < va)
    (hlt : va < 2 ^ 32) : vmmIsUserMapped r va σ =
      some (decide (recursiveAddr ≤ va) && present (σ.mem d ((va - recursiveAddr) / pageSize))) := by
  have hheld := h
  obtain ⟨hl, dirs, hinv⟩ := h
  have hpde : ∀ i, σ.pde r i = σ.mem d i := fun i => by rw [Vmm.pde, hinv.pgDir]
  rw [vmmIsUserMapped, hpde]
  rcases Nat.lt_or_ge va recursiveAddr with hbelow | hwindow
  · -- no page table between user space and the window
    have habs : present (σ.mem d (pdIndex va)) = false := by
      refine Bool.not_eq_true _ ▸ fun hpres => ?_
      have hslot := (hinv.entry _ (pdIndex_lt_recursivePde hbelow) hpres).1
      simp only [slotsBelow, pdIndex, userTop, userSpaceEnd, pageSize, pageEntries] at *
      omega
    rw [habs, decide_eq_false (Nat.not_le.2 hbelow)]
    rfl
  · have hindex : pdIndex va = recursivePde := by
      simp only [pdIndex, recursiveAddr, recursivePde] at *
      omega
    have hself : present (σ.mem d recursivePde) = true ∧ userBit (σ.mem d recursivePde) = true := by
      rw [hinv.self]
      exact ⟨present_pageEntry _ _, (userBit_pageEntry _ _).trans rfl⟩
    have hentry : (va - recursiveAddr) / pageSize = va / pageSize % pageEntries := by
      simp only [recursiveAddr, pageSize, pageEntries] at *
      omega
    have hword : vmmTableWord r va σ = some (σ.mem d ((va - recursiveAddr) / pageSize)) := by
      rw [vmmTableWord_loaded hl hlt, hinv.pgDir,
        word_window hinv.spaces.toDirectories hinv.dir ((pdIndex_eq hlt).symm.trans hindex), hentry]
    rw [hindex, hself.1, hself.2, hword, decide_eq_true hwindow]
    have huser : present (σ.mem d ((va - recursiveAddr) / pageSize)) = true →
        userBit (σ.mem d ((va - recursiveAddr) / pageSize)) = true :=
      hheld.userEntry (by rw [hentry]; exact Nat.mod_lt _ (by decide))
    rcases hpres : present (σ.mem d ((va - recursiveAddr) / pageSize)) with - | -
    · simp [hpres]
    · simp [hpres, huser hpres]

/-- A buffer in one page. -/
theorem vmmVerifyBuffer_page (hpage : pageSize ∣ addr) (hlt : addr + pageSize < 2 ^ 32) (hpos : 0 < size)
    (hle : size ≤ pageSize) (hmapped : vmmIsUserMapped r addr σ = some true) :
    vmmVerifyBuffer r addr size σ = some 0 := by
  have hstop : u32 (addr + size) = addr + size := u32_of_lt (by omega)
  have hlast : maskLow (u32 (addr + size + 2 ^ 32 - 1)) pageSize = addr := by
    obtain ⟨k, rfl⟩ := hpage
    simp only [u32, maskLow, pageSize] at *
    omega
  obtain ⟨steps, hsteps⟩ := Nat.exists_eq_add_of_le' (by decide : 2 ≤ vmmSteps)
  have hbuffer : vmmVerifyBuffer r addr size σ = vmmVerifyFrom r addr σ (steps + 2) addr := by
    rw [vmmVerifyBuffer, if_neg hpos.ne', hstop]
    dsimp only
    rw [if_neg (Nat.not_lt.2 (Nat.le_add_right addr size)), hlast, maskLow_of_dvd hpage, hsteps]
  rw [hbuffer, vmmVerifyFrom, if_pos le_rfl, hmapped]
  simp only [Option.bind_eq_bind, Option.bind_some, if_true]
  rw [u32_of_lt hlt, vmmVerifyFrom, if_neg]
  exact Nat.not_le.2 (Nat.lt_add_of_pos_right (by decide))

theorem RegionHeld.windowOpen (h : RegionHeld userTop r d σ) : WindowOpen r d σ where
  mapped _ hva hlt := h.isUserMapped hva hlt
  self := by
    rw [h.isUserMapped (by decide) (by decide)]
    obtain ⟨-, dirs, hinv⟩ := h
    change some (present (σ.mem d recursivePde)) = _
    rw [hinv.self, present_pageEntry]
  accepted i hi hpres size hpos hle := by
    have hi : i < 1023 := hi
    have hindex : (recursiveAddr + i * pageSize - recursiveAddr) / pageSize = i := by
      rw [Nat.add_sub_cancel_left]
      exact Nat.mul_div_cancel i (by decide)
    have hlt : recursiveAddr + i * pageSize + pageSize < 2 ^ 32 := by
      simp only [recursiveAddr, pageSize]
      omega
    refine vmmVerifyBuffer_page ?_ hlt hpos hle ?_
    · exact Nat.dvd_add (by decide) (Nat.dvd_mul_left _ _)
    · rw [h.isUserMapped (Nat.lt_add_right _ (by decide)) (by omega), hindex, hpres,
        decide_eq_true (Nat.le_add_right _ _)]
      rfl

theorem WindowOpen.not_closed (h : WindowOpen r d σ) : ¬ WindowClosed r σ := fun hclosed =>
  absurd (h.self.symm.trans (hclosed.unmapped _ (by decide) (by decide))) (by simp)

theorem userReach_held (h : Reach (RegionStart userTop r) (UserStep r) s) : ∃ d, RegionHeld userTop r d s := by
  refine RegionHeld.reach (by decide) (by decide) (h.mono (fun _ hs => hs) ?_)
  rintro s op s' ⟨huser, hrun⟩
  refine ⟨?_, hrun⟩
  cases op with
  | map va pa flags => exact Nat.lt_succ_of_le huser.2
  | alloc pages flags => exact huser.2

/-- **Page tables are mapped for user code**, in every run. -/
theorem window_is_user_mapped (h : Reach (RegionStart userTop r) (UserStep r) s) :
    ¬ WindowClosed r s ∧ ∃ d, (s.region r).pgDir = d ∧ WindowOpen r d s := by
  obtain ⟨d, hheld⟩ := userReach_held h
  obtain ⟨-, dirs, hinv⟩ := id hheld
  exact ⟨hheld.windowOpen.not_closed, d, hinv.pgDir, hheld.windowOpen⟩

theorem usedRegion_userReach (h : usedRegion = some s) :
    Reach (RegionStart userTop 2) (UserStep 2) s := by
  obtain ⟨σ, hstart, hbump, hrun⟩ := usedRegion_steps h (by decide : userSpaceStart ≤ userTop)
  refine (Reach.init hstart).step (.alloc 1 (pageRw ||| pageUser)) ⟨⟨hbump.ge, ?_⟩, hrun⟩
  rw [hbump]
  decide

/-- The region that has one page, with its page tables apart. -/
theorem usedRegion_spaces (h : usedRegion = some s) : Loaded s 2 ∧ ∃ dirs, Spaces s dirs ∧ dirs (s.region 2).pgDir := by
  obtain ⟨d, hl, dirs, hinv⟩ := userReach_held (usedRegion_userReach h)
  refine ⟨hl, dirs, hinv.spaces, ?_⟩
  rw [hinv.pgDir]
  exact hinv.dir

/-- A region that has one page. -/
theorem window_is_user_mapped_used : ∃ s, usedRegion = some s ∧ ¬ WindowClosed 2 s := by
  obtain ⟨s, hs⟩ := exists_usedRegion
  exact ⟨s, hs, (window_is_user_mapped (usedRegion_userReach hs)).1⟩

theorem not_window_closed : ¬ ∀ (r : ℕ) (s : Vmm),
    Reach (RegionStart userTop r) (UserStep r) s → WindowClosed r s := by
  intro hall
  obtain ⟨s, hs⟩ := exists_usedRegion
  have hreach := usedRegion_userReach hs
  obtain ⟨d, hheld⟩ := userReach_held hreach
  exact hheld.windowOpen.not_closed (hall 2 s hreach)

end Flopperating
