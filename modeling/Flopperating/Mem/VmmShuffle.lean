/-
# Shuffled frames

`vmm_shuffle` and `vmm_unshuffle` of `src/mem/vmm.c`.  The arrays `key` and
`shuffled_pas` are outside the range, and are given by their contents; `kmalloc`
gives an address for each or `NULL`.

Both functions take every page of the range off and map another frame in its place,
with the flags that the page had.  All pages of the range are mapped when this begins,
so no page table is made, and a word is the frame and the flags it is put together
from.
-/

import Flopperating.Mem.VmmUser
import Mathlib.Data.List.Perm.Basic

namespace Flopperating

open Vmm

/-! ### The source -/

variable {σ σ' σ'' : Vmm} {dirs : ℕ → Prop} {d i k n p pages q r rngState va w : ℕ} {pas : List ℕ}

/-- The frame of a page. -/
def Vmm.frame (σ : Vmm) (d p : ℕ) : ℕ := maskLow (σ.word d p) pageSize

/-- The frames of a range. -/
def Vmm.frames (σ : Vmm) (d p n : ℕ) : List ℕ := (List.range n).map fun i => σ.frame d (p + i)

section Resolve

variable {baseVa : ℕ} (hl : Loaded σ r) (hbase : pageSize ∣ baseVa)

end Resolve

/-! ### Mapping other frames -/

/-- The words of the `n` pages from `p` on are those of `w`, and nothing else has changed in any
address space. -/
structure Rewritten (σ σ' : Vmm) (dirs : ℕ → Prop) (d p n : ℕ) (w : ℕ → ℕ) : Prop where
  same : SameDescriptors σ σ'
  dir : ∀ d', dirs d' → σ'.mem d' = σ.mem d'
  word : ∀ d' q, dirs d' → q < windowPage →
    σ'.word d' q = if d' = d ∧ p ≤ q ∧ q < p + n then w q else σ.word d' q

/-- The word of a page with another frame. -/
def Vmm.remapped (σ : Vmm) (d p : ℕ) (pas : List ℕ) (q : ℕ) : ℕ :=
  pageEntry (pas.getD (q - p) 0) (σ.word d q % pageSize)

theorem Rewritten.nil {w : ℕ → ℕ} : Rewritten σ σ dirs d p 0 w where
  same := .refl σ
  dir _ _ := rfl
  word d' q _ _ := by
    rw [if_neg]
    rintro ⟨-, hp, hlt⟩
    omega

/-- One page, and then the others. -/
theorem Rewritten.cons {pa : ℕ} (hd : dirs d) (hp : p + pas.length < windowPage)
    (hw : Wrote σ σ' dirs d p (pageEntry pa (σ.word d p % pageSize)))
    (h : Rewritten σ' σ'' dirs d (p + 1) pas.length (σ'.remapped d (p + 1) pas)) :
    Rewritten σ σ'' dirs d p (pas.length + 1) (σ.remapped d p (pa :: pas)) where
  same := hw.same.trans h.same
  dir d' hd' := (h.dir d' hd').trans (hw.dir d' hd')
  word d' q hd' hq := by
    rw [h.word d' q hd' hq]
    by_cases hd' : d' = d
    · subst hd'
      rcases Nat.lt_trichotomy q p with hlt | rfl | hgt
      · rw [if_neg (by omega), if_neg (by omega), hw.word _ _ hd hq, if_neg (by omega)]
      · rw [if_neg (by omega), if_pos (by omega), hw.word _ _ hd hq, if_pos ⟨rfl, rfl⟩, Vmm.remapped, Nat.sub_self]
        rfl
      · by_cases hin : q < p + (pas.length + 1)
        · obtain ⟨m, hm⟩ : ∃ m, q - p = m + 1 := ⟨q - p - 1, by omega⟩
          rw [if_pos (by omega), if_pos (by omega), Vmm.remapped, Vmm.remapped, hw.word _ _ hd hq, if_neg (by omega), hm,
            show q - (p + 1) = m by omega, List.getD_cons_succ]
        · rw [if_neg (by omega), if_neg (by omega), hw.word _ _ hd hq, if_neg (by omega)]
    · rw [if_neg (by tauto), if_neg (by tauto), hw.word d' q ‹_› hq, if_neg (by tauto)]

theorem Rewritten.directories {w : ℕ → ℕ} (hr : Rewritten σ σ' dirs d p n w) (h : Directories σ dirs) :
    Directories σ' dirs := h.congr hr.dir

section Remap

variable {baseVa : ℕ} (h : Directories σ dirs) (hd : dirs (σ.region r).pgDir) (hl : Loaded σ r)

end Remap

/-! ### Shuffling and back -/

/-- Pages outside the range, those of the window too. -/
theorem Rewritten.others {w : ℕ → ℕ} (hr : Rewritten σ σ' dirs d p n w) (h : Directories σ dirs) (d' q : ℕ)
    (hd' : dirs d') (hq : q < 2 ^ 20) (hout : ¬ (d' = d ∧ p ≤ q ∧ q < p + n)) : σ'.word d' q = σ.word d' q := by
  rcases Nat.lt_or_ge q windowPage with hlt | hge
  · rw [hr.word d' q hd' hlt, if_neg hout]
  · have hwindow : q / pageEntries = recursivePde := by
      simp only [windowPage, recursivePde, pageEntries] at *
      omega
    rw [word_window h hd' hwindow, word_window (hr.directories h) hd' hwindow, hr.dir d' hd']

theorem Rewritten.word_eq (hr : Rewritten σ σ' dirs d p n (σ.remapped d p pas)) (hd : dirs d) (hp : p + n ≤ windowPage)
    {j : ℕ} (hj : j < n) : σ'.word d (p + j) = pageEntry (pas.getD j 0) (σ.word d (p + j) % pageSize) := by
  rw [hr.word d _ hd (by omega), if_pos ⟨rfl, by omega, by omega⟩, Vmm.remapped, Nat.add_sub_cancel_left]

section Shuffle

variable {baseVa : ℕ} (h : Directories σ dirs) (hd : dirs (σ.region r).pgDir) (hl : Loaded σ r)
  (hle : baseVa + pages * pageSize ≤ recursiveAddr)

theorem kmalloc_cases (σ : Vmm) :
    σ.kmalloc = (none, σ) ∨ ∃ a objects, σ.kmalloc = (some a, { σ with objects := objects }) := by
  unfold Vmm.kmalloc
  rcases σ.objects with - | ⟨a, objects⟩
  · exact .inl rfl
  · exact .inr ⟨a, objects, rfl⟩

end Shuffle

end Flopperating
