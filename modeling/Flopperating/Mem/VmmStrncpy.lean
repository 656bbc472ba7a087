/-
# Strings of the user

`vmm_strncpy_from_user` of `src/mem/vmm.c`.  User memory is loaded from and `kdest` is
stored to, and of both it is kept what was accessed; `kdest` is not part of user memory.

The page is only asked for at the first byte and where a page begins.  A byte that is not
at the beginning of a page follows one of the same page, which has been asked for: so all
bytes that are loaded are mapped for user code, also where the address wraps around.
-/

import Flopperating.Data.TracedMemory
import Flopperating.Mem.VmmVerify

namespace Flopperating

open Vmm

/-- User memory, and the buffer of the kernel by its indices. -/
structure UserCopy where
  user : TracedMemory ℕ UInt8
  kdest : TracedMemory ℕ UInt8

/-- `vmm_is_user_mapped(vmm_get_current(), va)`. -/
def vmmCurrentUserMapped (va : ℕ) (σ : Vmm) : Option Bool :=
  match σ.currentRegion with
  | none => some false
  | some r => vmmIsUserMapped r va σ

/-- The loop of `vmm_strncpy_from_user` from byte `n` on, for at most `rest` bytes. -/
def vmmStrncpyFrom (maxLen : ℕ) (σ : Vmm) : ℕ → ℕ → ℕ → UserCopy → Option (ℤ × UserCopy)
  | 0, n, _, m => some (toInt n, if maxLen > 0 then { m with kdest := m.kdest.store (maxLen - 1) 0 } else m)
  | rest + 1, n, currAddr, m => do
    let mapped ← (if currAddr % pageSize = 0 ∨ n = 0 then vmmCurrentUserMapped currAddr σ else some true)
    if !mapped then return (-1, m)
    let (c, user) := m.user.load currAddr
    let m := ⟨user, m.kdest.store n c⟩
    if c = 0 then return (toInt n, m)
    vmmStrncpyFrom maxLen σ rest (n + 1) (u32 (currAddr + 1)) m

/-- `vmm_strncpy_from_user`. -/
def vmmStrncpyFromUser (usrc maxLen : ℕ) (σ : Vmm) (m : UserCopy) : Option (ℤ × UserCopy) :=
  vmmStrncpyFrom maxLen σ maxLen 0 usrc m

variable {σ : Vmm} {m m' : UserCopy} {k maxLen n r rest usrc va : ℕ}

/-- The address of byte `i` of the string. -/
def userAddr (usrc i : ℕ) : ℕ := u32 (usrc + i)

/-- The byte is mapped for user code, and not the last one of the string. -/
def Passed (σ : Vmm) (m : UserCopy) (a : ℕ) : Prop :=
  vmmCurrentUserMapped a σ = some true ∧ m.user.value a ≠ 0

/-- `k` bytes were copied, from byte `n` on. -/
structure Copied (usrc n k : ℕ) (m m' : UserCopy) : Prop where
  reads : ∀ a ∈ m'.user.touched, a ∈ m.user.touched ∨ ∃ j < k, a = userAddr usrc (n + j)
  user : m'.user.value = m.user.value
  writes : ∀ i ∈ m'.kdest.touched, i ∈ m.kdest.touched ∨ n ≤ i ∧ i < n + k
  bytes : ∀ j < k, m'.kdest.value (n + j) = m.user.value (userAddr usrc (n + j))
  kept : ∀ i, ¬ (n ≤ i ∧ i < n + k) → m'.kdest.value i = m.kdest.value i

/-- What is copied at a byte that is mapped. -/
def UserCopy.step (usrc n : ℕ) (m : UserCopy) : UserCopy :=
  ⟨(m.user.load (userAddr usrc n)).2, m.kdest.store n (m.user.value (userAddr usrc n))⟩

/-- How the loop ends. -/
inductive StrncpyEnd (maxLen : ℕ) (σ : Vmm) (usrc n rest : ℕ) (m : UserCopy) : Option (ℤ × UserCopy) → Prop
  | unmapped (k : ℕ) (m' : UserCopy) (hk : k < rest) (hpassed : ∀ j < k, Passed σ m (userAddr usrc (n + j)))
      (hunmapped : vmmCurrentUserMapped (userAddr usrc (n + k)) σ = some false) (hcopied : Copied usrc n k m m') :
      StrncpyEnd maxLen σ usrc n rest m (some (-1, m'))
  | nul (k : ℕ) (m' : UserCopy) (hk : k < rest) (hpassed : ∀ j < k, Passed σ m (userAddr usrc (n + j)))
      (hmapped : vmmCurrentUserMapped (userAddr usrc (n + k)) σ = some true)
      (hnul : m.user.value (userAddr usrc (n + k)) = 0) (hcopied : Copied usrc n (k + 1) m m') :
      StrncpyEnd maxLen σ usrc n rest m (some (toInt (n + k), m'))
  | full (m' : UserCopy) (hpassed : ∀ j < rest, Passed σ m (userAddr usrc (n + j))) (hcopied : Copied usrc n rest m m') :
      StrncpyEnd maxLen σ usrc n rest m (some (toInt (n + rest),
        if maxLen > 0 then { m' with kdest := m'.kdest.store (maxLen - 1) 0 } else m'))

theorem Copied.zero : Copied usrc n 0 m m where
  reads _ ha := .inl ha
  user := rfl
  writes _ hi := .inl hi
  bytes j hj := absurd hj (Nat.not_lt_zero j)
  kept _ _ := rfl

/-- One byte, and then `k`. -/
theorem Copied.cons (h : Copied usrc (n + 1) k (m.step usrc n) m') : Copied usrc n (k + 1) m m' where
  reads a ha := by
    rcases h.reads a ha with hold | ⟨j, hj, rfl⟩
    · rcases List.mem_cons.1 hold with rfl | hold
      · exact .inr ⟨0, Nat.succ_pos k, rfl⟩
      · exact .inl hold
    · exact .inr ⟨j + 1, Nat.succ_lt_succ hj, by rw [Nat.add_right_comm, Nat.add_assoc]⟩
  user := h.user
  writes i hi := by
    rcases h.writes i hi with hold | hnew
    · rcases List.mem_cons.1 hold with rfl | hold
      · exact .inr ⟨Nat.le_refl i, by omega⟩
      · exact .inl hold
    · exact .inr ⟨by omega, by omega⟩
  bytes j hj := by
    rcases j with - | j
    · exact (h.kept n (by omega)).trans (Function.update_self ..)
    · have hbyte := h.bytes j (Nat.lt_of_succ_lt_succ hj)
      rwa [Nat.add_right_comm, Nat.add_assoc] at hbyte
  kept i hi := (h.kept i (by omega)).trans (Function.update_of_ne (by omega) ..)

/-- Addresses of one page are mapped for user code together. -/
theorem vmmCurrentUserMapped_congr {va' : ℕ} (h : va / pageSize = va' / pageSize) :
    vmmCurrentUserMapped va σ = vmmCurrentUserMapped va' σ := by
  have hpd : pdIndex va = pdIndex va' := by
    simp only [pdIndex, pageSize] at *
    omega
  have hpt : ptIndex va = ptIndex va' := by rw [ptIndex_eq, ptIndex_eq, h]
  unfold vmmCurrentUserMapped vmmIsUserMapped vmmTableWord
  rw [hpd, hpt]

theorem forall_lt_succ_addr {P : ℕ → Prop} (hfirst : P (userAddr usrc n))
    (h : ∀ j < k, P (userAddr usrc (n + 1 + j))) :
    ∀ j < k + 1, P (userAddr usrc (n + j)) := by
  intro j hj
  rcases j with - | j
  · exact hfirst
  · rw [← Nat.add_assoc, Nat.add_right_comm]
    exact h j (Nat.lt_of_succ_lt_succ hj)

/-- A byte that is passed, and then the end. -/
theorem StrncpyEnd.cons {result : Option (ℤ × UserCopy)} (hpassed : Passed σ m (userAddr usrc n))
    (h : StrncpyEnd maxLen σ usrc (n + 1) rest (m.step usrc n) result) :
    StrncpyEnd maxLen σ usrc n (rest + 1) m result := by
  have hshift : ∀ k, n + 1 + k = n + (k + 1) := fun k => by omega
  cases h with
  | unmapped k m' hk hbefore hunmapped hcopied =>
    rw [hshift] at hunmapped
    exact .unmapped (k + 1) m' (Nat.succ_lt_succ hk) (forall_lt_succ_addr hpassed hbefore) hunmapped hcopied.cons
  | nul k m' hk hbefore hmapped hnul hcopied =>
    rw [hshift] at hmapped hnul ⊢
    exact .nul (k + 1) m' (Nat.succ_lt_succ hk) (forall_lt_succ_addr hpassed hbefore) hmapped hnul hcopied.cons
  | full m' hbefore hcopied =>
    rw [hshift]
    exact .full m' (forall_lt_succ_addr hpassed hbefore) hcopied.cons

/-- **The page of a byte has been asked for.** -/
theorem asked_eq (hprev : n = 0 ∨ vmmCurrentUserMapped (userAddr usrc (n - 1)) σ = some true) :
    (if userAddr usrc n % pageSize = 0 ∨ n = 0 then vmmCurrentUserMapped (userAddr usrc n) σ else some true) =
      vmmCurrentUserMapped (userAddr usrc n) σ := by
  split_ifs with hask
  · rfl
  · obtain ⟨hinside, hn⟩ := not_or.1 hask
    have hpage : userAddr usrc n / pageSize = userAddr usrc (n - 1) / pageSize := by
      simp only [userAddr, u32, pageSize] at *
      omega
    rw [vmmCurrentUserMapped_congr hpage, hprev.resolve_left hn]

theorem vmmStrncpyFrom_mapped (hprev : n = 0 ∨ vmmCurrentUserMapped (userAddr usrc (n - 1)) σ = some true)
    (hmapped : vmmCurrentUserMapped (userAddr usrc n) σ = some true) :
    vmmStrncpyFrom maxLen σ (rest + 1) n (userAddr usrc n) m =
      if m.user.value (userAddr usrc n) = 0 then some (toInt n, m.step usrc n)
      else vmmStrncpyFrom maxLen σ rest (n + 1) (userAddr usrc (n + 1)) (m.step usrc n) := by
  have hnext : u32 (userAddr usrc n + 1) = userAddr usrc (n + 1) := by
    simp only [userAddr, u32]
    omega
  rw [vmmStrncpyFrom, asked_eq hprev, hmapped, hnext]
  rfl

/-- **The loop ends at a page that is not mapped, at the `NUL` or behind the last byte.** -/
theorem vmmStrncpyFrom_ends (hread : ∀ va < 2 ^ 32, vmmCurrentUserMapped va σ ≠ none)
    (hprev : n = 0 ∨ vmmCurrentUserMapped (userAddr usrc (n - 1)) σ = some true) :
    StrncpyEnd maxLen σ usrc n rest m (vmmStrncpyFrom maxLen σ rest n (userAddr usrc n) m) := by
  induction rest generalizing n m with
  | zero => exact .full m (fun j hj => absurd hj (Nat.not_lt_zero j)) .zero
  | succ rest ih =>
    rcases hmapped : vmmCurrentUserMapped (userAddr usrc n) σ with - | - | -
    · exact absurd hmapped (hread _ (u32_lt _))
    · have hrun : vmmStrncpyFrom maxLen σ (rest + 1) n (userAddr usrc n) m = some (-1, m) := by
        rw [vmmStrncpyFrom, asked_eq hprev, hmapped]
        rfl
      rw [hrun]
      exact .unmapped 0 m (Nat.succ_pos rest) (fun j hj => absurd hj (Nat.not_lt_zero j)) hmapped .zero
    · rw [vmmStrncpyFrom_mapped hprev hmapped]
      split_ifs with hnul
      · exact .nul 0 _ (Nat.succ_pos rest) (fun j hj => absurd hj (Nat.not_lt_zero j)) hmapped hnul Copied.zero.cons
      · have hasked : vmmCurrentUserMapped (userAddr usrc (n + 1 - 1)) σ = some true := by rwa [Nat.add_sub_cancel]
        exact (ih (.inr hasked)).cons ⟨hmapped, hnul⟩

/-- What `vmm_strncpy_from_user` does with a string of the user. -/
structure StrncpyExact (usrc maxLen : ℕ) (σ : Vmm) (m : UserCopy) (result : ℤ) (m' : UserCopy) : Prop where
  reads : ∀ a ∈ m'.user.touched, a ∈ m.user.touched ∨ vmmCurrentUserMapped a σ = some true
  user : m'.user.value = m.user.value
  writes : ∀ i ∈ m'.kdest.touched, i ∈ m.kdest.touched ∨ i < maxLen
  kept : ∀ i, maxLen ≤ i → m'.kdest.value i = m.kdest.value i
  range : result = -1 ∨ ∃ n ≤ maxLen, result = n
  unmapped : result = -1 ↔ ∃ k < maxLen, vmmCurrentUserMapped (userAddr usrc k) σ = some false ∧
    ∀ j < k, Passed σ m (userAddr usrc j)
  string : ∀ n < maxLen, result = n → m.user.value (userAddr usrc n) = 0 ∧
    (∀ j < n, m.user.value (userAddr usrc j) ≠ 0) ∧ ∀ j ≤ n, m'.kdest.value j = m.user.value (userAddr usrc j)
  cut : 0 < maxLen → result = maxLen → m'.kdest.value (maxLen - 1) = 0 ∧
    ∀ j < maxLen - 1, m.user.value (userAddr usrc j) ≠ 0 ∧ m'.kdest.value j = m.user.value (userAddr usrc j)

section Exact

variable (hmax : maxLen < 2 ^ 31)

/-- The byte that stops the loop is the first that does not pass. -/
theorem first_unmapped_iff {q : ℕ} (hpassed : ∀ j < k, Passed σ m (userAddr usrc j))
    (hunmapped : vmmCurrentUserMapped (userAddr usrc q) σ = some false) (hbefore : ∀ j < q, Passed σ m (userAddr usrc j))
    (hstop : ¬ Passed σ m (userAddr usrc k)) : q = k := by
  rcases Nat.lt_trichotomy q k with hlt | heq | hgt
  · exact absurd (hunmapped.symm.trans (hpassed q hlt).1) (by decide)
  · exact heq
  · exact absurd (hbefore k hgt) hstop

theorem Copied.exact_unmapped (hk : k < maxLen) (hpassed : ∀ j < k, Passed σ m (userAddr usrc j))
    (hunmapped : vmmCurrentUserMapped (userAddr usrc k) σ = some false) (h : Copied usrc 0 k m m') :
    StrncpyExact usrc maxLen σ m (-1) m' where
  reads a ha := by
    rcases h.reads a ha with hold | ⟨j, hj, rfl⟩
    · exact .inl hold
    · rw [Nat.zero_add]
      exact .inr (hpassed j hj).1
  user := h.user
  writes i hi := (h.writes i hi).imp_right fun hnew => by omega
  kept i hi := h.kept i (by omega)
  range := .inl rfl
  unmapped := iff_of_true rfl ⟨k, hk, hunmapped, hpassed⟩
  string n _ heq := absurd heq (by omega)
  cut _ heq := absurd heq (by omega)

include hmax in
theorem Copied.exact_nul (hk : k < maxLen) (hpassed : ∀ j < k, Passed σ m (userAddr usrc j))
    (hmapped : vmmCurrentUserMapped (userAddr usrc k) σ = some true) (hnul : m.user.value (userAddr usrc k) = 0)
    (h : Copied usrc 0 (k + 1) m m') : StrncpyExact usrc maxLen σ m (toInt k) m' := by
  rw [toInt_of_lt (Nat.lt_trans hk hmax)]
  exact {
    reads := fun a ha => by
      rcases h.reads a ha with hold | ⟨j, hj, rfl⟩
      · exact .inl hold
      · rw [Nat.zero_add]
        rcases Nat.lt_succ_iff_lt_or_eq.1 hj with hlt | rfl
        · exact .inr (hpassed j hlt).1
        · exact .inr hmapped
    user := h.user
    writes := fun i hi => (h.writes i hi).imp_right fun hnew => by omega
    kept := fun i hi => h.kept i (by omega)
    range := .inr ⟨k, hk.le, rfl⟩
    unmapped := by
      refine iff_of_false (by omega) ?_
      rintro ⟨q, -, hunmapped, hbefore⟩
      obtain rfl := first_unmapped_iff hpassed hunmapped hbefore fun hstop => hstop.2 hnul
      exact absurd (hunmapped.symm.trans hmapped) (by decide)
    string := fun n _ heq => by
      obtain rfl : k = n := Int.ofNat.inj heq
      refine ⟨hnul, fun j hj => (hpassed j hj).2, fun j hj => ?_⟩
      have hbyte := h.bytes j (Nat.lt_succ_of_le hj)
      rwa [Nat.zero_add] at hbyte
    cut := fun _ heq => absurd (Int.ofNat.inj heq) hk.ne }

include hmax in
theorem Copied.exact_full (hpassed : ∀ j < maxLen, Passed σ m (userAddr usrc j)) (h : Copied usrc 0 maxLen m m') :
    StrncpyExact usrc maxLen σ m (toInt maxLen)
      (if maxLen > 0 then { m' with kdest := m'.kdest.store (maxLen - 1) 0 } else m') := by
  rw [toInt_of_lt hmax]
  have hreads : ∀ a ∈ m'.user.touched, a ∈ m.user.touched ∨ vmmCurrentUserMapped a σ = some true := by
    intro a ha
    rcases h.reads a ha with hold | ⟨j, hj, rfl⟩
    · exact .inl hold
    · rw [Nat.zero_add]
      exact .inr (hpassed j hj).1
  have hunmapped : (maxLen : ℤ) = -1 ↔ ∃ k < maxLen, vmmCurrentUserMapped (userAddr usrc k) σ = some false ∧
      ∀ j < k, Passed σ m (userAddr usrc j) := by
    refine iff_of_false (by omega) ?_
    rintro ⟨q, hq, hunmapped, -⟩
    exact absurd (hunmapped.symm.trans (hpassed q hq).1) (by decide)
  split_ifs with hpos
  · exact {
      reads := hreads
      user := h.user
      writes := fun i hi => by
        rcases List.mem_cons.1 hi with rfl | hold
        · exact .inr (Nat.sub_lt hpos Nat.one_pos)
        · exact (h.writes i hold).imp_right fun hnew => by omega
      kept := fun i hi => (Function.update_of_ne (by omega) ..).trans (h.kept i (by omega))
      range := .inr ⟨maxLen, le_rfl, rfl⟩
      unmapped := hunmapped
      string := fun n hn heq => absurd (Int.ofNat.inj heq) hn.ne'
      cut := fun _ _ => by
        refine ⟨Function.update_self .., fun j hj => ⟨(hpassed j (by omega)).2, ?_⟩⟩
        have hbyte := h.bytes j (by omega)
        rw [Nat.zero_add] at hbyte
        exact (Function.update_of_ne (by omega) ..).trans hbyte }
  · exact {
      reads := hreads
      user := h.user
      writes := fun i hi => (h.writes i hi).imp_right fun hnew => by omega
      kept := fun i hi => h.kept i (by omega)
      range := .inr ⟨maxLen, le_rfl, rfl⟩
      unmapped := hunmapped
      string := fun n hn _ => absurd hn (by omega)
      cut := fun hlt _ => absurd hlt hpos }

/-- **`vmm_strncpy_from_user` is safe and exact.** -/
theorem vmmStrncpyFromUser_exact (husrc : usrc < 2 ^ 32) (hmax : maxLen < 2 ^ 31)
    (hread : ∀ va < 2 ^ 32, vmmCurrentUserMapped va σ ≠ none) :
    ∃ result m', vmmStrncpyFromUser usrc maxLen σ m = some (result, m') ∧ StrncpyExact usrc maxLen σ m result m' := by
  have hstart : userAddr usrc 0 = usrc := u32_of_lt husrc
  have hends : StrncpyEnd maxLen σ usrc 0 maxLen m (vmmStrncpyFromUser usrc maxLen σ m) := by
    have hends : StrncpyEnd maxLen σ usrc 0 maxLen m (vmmStrncpyFrom maxLen σ maxLen 0 (userAddr usrc 0) m) :=
      vmmStrncpyFrom_ends hread (.inl rfl)
    rwa [hstart] at hends
  generalize vmmStrncpyFromUser usrc maxLen σ m = result at hends
  cases hends with
  | unmapped k m' hk hpassed hunmapped hcopied =>
    simp only [Nat.zero_add] at hpassed hunmapped
    exact ⟨-1, m', rfl, hcopied.exact_unmapped hk hpassed hunmapped⟩
  | nul k m' hk hpassed hmapped hnul hcopied =>
    simp only [Nat.zero_add] at hpassed hmapped hnul ⊢
    exact ⟨_, m', rfl, hcopied.exact_nul hmax hk hpassed hmapped hnul⟩
  | full m' hpassed hcopied =>
    simp only [Nat.zero_add] at hpassed ⊢
    exact ⟨_, _, rfl, hcopied.exact_full hmax hpassed⟩

end Exact

/-- In the region that is loaded the page tables can be read. -/
theorem Loaded.currentUserMapped_ne_none (hl : Loaded σ r) (hcurrent : σ.currentRegion = some r) (hva : va < 2 ^ 32) :
    vmmCurrentUserMapped va σ ≠ none := by
  rw [vmmCurrentUserMapped, hcurrent]
  change vmmIsUserMapped r va σ ≠ none
  unfold vmmIsUserMapped
  split
  · rw [vmmTableWord_loaded hl hva]
    exact Option.some_ne_none _
  · exact Option.some_ne_none _

/-- Four bytes of a page without a `NUL`. -/
theorem vmmStrncpyFromUser_page : ∃ s, usedRegion = some s ∧ ∃ result m',
    vmmStrncpyFromUser userSpaceStart 4 s ⟨⟨fun _ => 65, []⟩, ⟨fun _ => 0, []⟩⟩ = some (result, m') ∧
      StrncpyExact userSpaceStart 4 s ⟨⟨fun _ => 65, []⟩, ⟨fun _ => 0, []⟩⟩ result m' := by
  obtain ⟨s, hs⟩ := exists_usedRegion
  obtain ⟨d, hl, -⟩ := userReach_held (usedRegion_userReach hs)
  have hcurrent : usedRegion.map (fun s => s.currentRegion) = some (some 2) := by decide +kernel
  rw [hs, Option.map_some] at hcurrent
  exact ⟨s, hs, vmmStrncpyFromUser_exact (by decide) (by decide) fun _ hva =>
    hl.currentUserMapped_ne_none (Option.some.inj hcurrent) hva⟩

end Flopperating
