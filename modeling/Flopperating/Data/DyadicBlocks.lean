/-
# Dyadic blocks

A dyadic block is an interval `[base, base + 2 ^ order)` of natural numbers
whose base is a multiple of its size.  Two such blocks are nested or disjoint
(`Block.subset_or_disjoint`), and each block is one half of its `parent`, the
other half being its `buddy`, found by flipping one bit of the base
(`Block.base_buddy`).

A `Tiling` is a finite set of pairwise disjoint blocks inside a given set of
numbers.  The four moves of a buddy system keep it: dropping a block, adding
one that is free, replacing a block by an initial part of it, and replacing a
block by its parent when the buddy is not in anyone else's hands.

`Submerged H c` is the condition that makes old marks harmless: a block `c`
that is no longer on any list may still be marked as free, and the mark does
no harm as long as every block of `H` that meets `c` is `c` itself or strictly
larger.  A buddy found through such a mark is then a block of `H` or lies
outside all of them (`Tiling.buddy_mem_or_disjoint`).
-/

import Mathlib.Algebra.BigOperators.Group.Finset.Basic
import Mathlib.Algebra.Order.BigOperators.Group.Finset
import Mathlib.Data.Finset.Max
import Mathlib.Data.Finset.Union
import Mathlib.Order.Interval.Finset.Nat
import Mathlib.Tactic.Ring

namespace DyadicBlocks

/-- An interval of `2 ^ order` numbers that starts at a multiple of its size. -/
@[ext] structure Block where
  base : ℕ
  order : ℕ
  aligned : 2 ^ order ∣ base

namespace Block

instance : DecidableEq Block := fun b c =>
  decidable_of_iff (b.base = c.base ∧ b.order = c.order) Block.ext_iff.symm

/-- The numbers of a block. -/
def pages (b : Block) : Finset ℕ := Finset.Ico b.base (b.base + 2 ^ b.order)

@[simp] theorem mem_pages {b : Block} {p : ℕ} :
    p ∈ b.pages ↔ b.base ≤ p ∧ p < b.base + 2 ^ b.order := Finset.mem_Ico

@[simp] theorem card_pages (b : Block) : b.pages.card = 2 ^ b.order := by simp [pages]

theorem base_mem_pages (b : Block) : b.base ∈ b.pages := by
  have := Nat.two_pow_pos b.order
  simp [this]

/-- A number belongs to a block when it has the same quotient by its size. -/
theorem mem_pages_iff_div {b : Block} {p : ℕ} :
    p ∈ b.pages ↔ p / 2 ^ b.order = b.base / 2 ^ b.order := by
  obtain ⟨base, order, q, rfl⟩ := b
  have hpos := Nat.two_pow_pos order
  rw [mem_pages, Nat.mul_div_cancel_left _ hpos, Nat.div_eq_iff hpos]
  simp only [mul_comm]
  omega

/-- Meeting blocks: the smaller one lies inside. -/
theorem pages_subset_of_mem {b c : Block} (h : b.order ≤ c.order) {p : ℕ} (hb : p ∈ b.pages)
    (hc : p ∈ c.pages) : b.pages ⊆ c.pages := by
  have hdiv : ∀ x, x / 2 ^ c.order = x / 2 ^ b.order / 2 ^ (c.order - b.order) := fun x => by
    rw [Nat.div_div_eq_div_mul, ← pow_add, Nat.add_sub_cancel' h]
  intro r hr
  rw [mem_pages_iff_div] at *
  rw [hdiv r, hr, ← hb, ← hdiv, hc]

/-- Meeting blocks of one order are equal. -/
theorem eq_of_order_eq {b c : Block} (h : b.order = c.order) {p : ℕ} (hb : p ∈ b.pages)
    (hc : p ∈ c.pages) : b = c := by
  rw [mem_pages_iff_div] at hb hc
  have hbase : b.base / 2 ^ b.order = c.base / 2 ^ b.order := by rw [← hb, h, hc]
  have hb' := Nat.div_mul_cancel b.aligned
  have hc' := Nat.div_mul_cancel c.aligned
  rw [← h] at hc'
  exact Block.ext (by rw [← hb', hbase, hc']) h

/-- The block of twice the size around a block. -/
def parent (b : Block) : Block where
  base := 2 ^ (b.order + 1) * (b.base / 2 ^ (b.order + 1))
  order := b.order + 1
  aligned := Nat.dvd_mul_right _ _

/-- The other half of the parent. -/
def buddy (b : Block) : Block where
  base := b.base ^^^ 2 ^ b.order
  order := b.order
  aligned := by
    rw [Nat.dvd_iff_mod_eq_zero, Nat.xor_mod_two_pow, Nat.mod_eq_zero_of_dvd b.aligned,
      Nat.mod_self, Nat.xor_self]

@[simp] theorem order_parent (b : Block) : b.parent.order = b.order + 1 := rfl

@[simp] theorem order_buddy (b : Block) : b.buddy.order = b.order := rfl

theorem base_buddy (b : Block) : b.buddy.base = b.base ^^^ 2 ^ b.order := rfl

@[simp] theorem buddy_buddy (b : Block) : b.buddy.buddy = b :=
  Block.ext (by rw [base_buddy, base_buddy, order_buddy, Nat.xor_assoc, Nat.xor_self, Nat.xor_zero]) rfl

private theorem dyadic_xor_one (q : ℕ) : q ^^^ 1 = if q % 2 = 0 then q + 1 else q - 1 := by
  have h₁ : (q ^^^ 1) / 2 = q / 2 := by simp [Nat.xor_div_two]
  have h₂ : (q ^^^ 1) % 2 = 1 ↔ ¬ q % 2 = 1 := by
    rw [Nat.xor_mod_two_eq_one]
    omega
  split_ifs <;> omega

/-- Flipping the bit moves to the right half or to the left half. -/
theorem base_buddy_eq (b : Block) : b.buddy.base =
    if b.base / 2 ^ b.order % 2 = 0 then b.base + 2 ^ b.order else b.base - 2 ^ b.order := by
  obtain ⟨base, k, q, rfl⟩ := b
  have hpos := Nat.two_pow_pos k
  have hxor : 2 ^ k * q ^^^ 2 ^ k = 2 ^ k * (q ^^^ 1) := by
    have := Nat.shiftLeft_xor_distrib (i := k) (a := q) (b := 1)
    simp only [Nat.shiftLeft_eq, one_mul] at this
    rw [mul_comm, ← this, mul_comm]
  rw [base_buddy]
  simp only [hxor, dyadic_xor_one, Nat.mul_div_cancel_left _ hpos]
  split_ifs
  · ring
  · rw [Nat.mul_sub, mul_one]

private theorem dyadic_base_parent (b : Block) :
    b.parent.base = b.base - 2 ^ b.order * (b.base / 2 ^ b.order % 2) ∧
      2 ^ b.order * (b.base / 2 ^ b.order % 2) ≤ b.base := by
  obtain ⟨base, k, q, rfl⟩ := b
  have hpos := Nat.two_pow_pos k
  have hdiv : 2 ^ k * q / 2 ^ (k + 1) = q / 2 := by
    rw [pow_succ, Nat.mul_div_mul_left _ _ hpos]
  have hq : 2 * (q / 2) = q - q % 2 := by omega
  simp only [parent, hdiv, Nat.mul_div_cancel_left _ hpos]
  constructor
  · rw [pow_succ, mul_assoc, hq, Nat.mul_sub]
  · exact Nat.mul_le_mul_left _ (Nat.mod_le _ _)

/-- The parent starts where the left one of the two halves starts. -/
theorem base_parent (b : Block) : b.parent.base = min b.base b.buddy.base := by
  obtain ⟨h₁, h₂⟩ := dyadic_base_parent b
  have := Nat.two_pow_pos b.order
  rw [base_buddy_eq, h₁]
  rcases Nat.mod_two_eq_zero_or_one (b.base / 2 ^ b.order) with h | h <;> rw [h] at h₂ ⊢ <;> simp

/-- **A block and its buddy are the two halves of the parent.** -/
theorem pages_parent (b : Block) : b.parent.pages = b.pages ∪ b.buddy.pages := by
  obtain ⟨h₁, h₂⟩ := dyadic_base_parent b
  have hpow : 2 ^ (b.order + 1) = 2 ^ b.order + 2 ^ b.order := by ring
  have hbud := base_buddy_eq b
  ext p
  rw [Finset.mem_union, mem_pages, mem_pages, mem_pages, order_parent, order_buddy, hpow, h₁]
  rcases Nat.mod_two_eq_zero_or_one (b.base / 2 ^ b.order) with h | h <;>
    simp only [h, mul_zero, mul_one, if_true, one_ne_zero, if_false] at h₂ hbud ⊢ <;> omega

theorem disjoint_buddy (b : Block) : Disjoint b.pages b.buddy.pages := by
  have hbud := base_buddy_eq b
  have hle := (dyadic_base_parent b).2
  have := Nat.two_pow_pos b.order
  rw [Finset.disjoint_left]
  intro p hp hp'
  rw [mem_pages] at hp hp'
  rw [order_buddy] at hp'
  rcases Nat.mod_two_eq_zero_or_one (b.base / 2 ^ b.order) with h | h <;>
    simp only [h, mul_one, if_true, one_ne_zero, if_false] at hbud hle <;> omega

/-- A larger block that meets a block contains its parent. -/
theorem parent_subset_of_lt {b c : Block} (h : b.order < c.order) {p : ℕ} (hb : p ∈ b.pages)
    (hc : p ∈ c.pages) : b.parent.pages ⊆ c.pages :=
  pages_subset_of_mem h (by rw [pages_parent]; exact Finset.mem_union_left _ hb) hc

/-- The initial part of a block, of a smaller or equal order. -/
def shrink (b : Block) (k : ℕ) (h : k ≤ b.order) : Block where
  base := b.base
  order := k
  aligned := (Nat.pow_dvd_pow 2 h).trans b.aligned

theorem pages_shrink_subset (b : Block) {k : ℕ} (h : k ≤ b.order) :
    (b.shrink k h).pages ⊆ b.pages := by
  have := Nat.pow_le_pow_right (n := 2) (by norm_num) h
  intro p hp
  rw [mem_pages] at *
  simp only [shrink] at hp
  omega

end Block

/-- Pairwise disjoint blocks inside `A`. -/
structure Tiling (A : Finset ℕ) (H : Finset Block) : Prop where
  subset : ∀ b ∈ H, b.pages ⊆ A
  disjoint : ∀ b ∈ H, ∀ c ∈ H, b ≠ c → Disjoint b.pages c.pages

/-- A mark on the block `c` is harmless: whatever block of `H` meets `c` is
strictly larger than `c`, or is `c`. -/
def Submerged (H : Finset Block) (c : Block) : Prop :=
  ∀ b ∈ H, Disjoint b.pages c.pages ∨ c.order < b.order ∨ b = c

section Tilings

variable {A : Finset ℕ} {H : Finset Block} {b c h : Block}

theorem Tiling.mono {H' : Finset Block} (ht : Tiling A H) (hs : H' ⊆ H) : Tiling A H' :=
  ⟨fun b hb => ht.subset b (hs hb), fun b hb c hc => ht.disjoint b (hs hb) c (hs hc)⟩

theorem Submerged.mono {H' : Finset Block} (hc : Submerged H c) (hs : H' ⊆ H) : Submerged H' c :=
  fun b hb => hc b (hs hb)

theorem Tiling.insert (ht : Tiling A H) (hA : b.pages ⊆ A)
    (hd : ∀ c ∈ H, Disjoint b.pages c.pages) : Tiling A (insert b H) := by
  constructor
  · intro c hc
    rcases Finset.mem_insert.1 hc with rfl | hc
    · exact hA
    · exact ht.subset c hc
  · intro c hc d hd' hne
    rcases Finset.mem_insert.1 hc with rfl | hc <;> rcases Finset.mem_insert.1 hd' with rfl | hd'
    · exact absurd rfl hne
    · exact hd d hd'
    · exact (hd c ‹c ∈ H›).symm
    · exact ht.disjoint c hc d hd' hne

/-- A block of the tiling is submerged in it. -/
theorem Tiling.submerged_self (ht : Tiling A H) (hb : b ∈ H) : Submerged H b := fun c hc => by
  by_cases hcb : c = b
  · exact .inr (.inr hcb)
  · exact .inl (ht.disjoint c hc b hb hcb)

/-- Two blocks of a tiling that share a number are one block. -/
theorem Tiling.eq_of_mem (ht : Tiling A H) (hb : b ∈ H) (hc : c ∈ H) {p : ℕ} (hpb : p ∈ b.pages)
    (hpc : p ∈ c.pages) : b = c := by
  by_contra hne
  exact Finset.disjoint_left.1 (ht.disjoint b hb c hc hne) hpb hpc

/-- **A marked buddy is in the tiling or in nobody's hands.** -/
theorem Tiling.buddy_mem_or_disjoint (ht : Tiling A H) (hh : h ∈ H)
    (hs : Submerged H h.buddy) : h.buddy ∈ H ∨ ∀ b ∈ H, Disjoint b.pages h.buddy.pages := by
  by_cases hmem : h.buddy ∈ H
  · exact .inl hmem
  refine .inr fun b hb => ?_
  rcases hs b hb with hd | hlt | rfl
  · exact hd
  · -- a strictly larger block around the buddy would hold `h` too
    by_contra hnd
    obtain ⟨p, hpb, hpc⟩ := Finset.not_disjoint_iff.1 hnd
    have hpar : h.parent.pages ⊆ b.pages := by
      have := Block.pages_subset_of_mem (b := h.parent) (c := b) hlt
        (by rw [Block.pages_parent]; exact Finset.mem_union_right _ hpc) hpb
      exact this
    have hbase : h.base ∈ b.pages :=
      hpar (by rw [Block.pages_parent]; exact Finset.mem_union_left _ h.base_mem_pages)
    have := ht.eq_of_mem hb hh hbase h.base_mem_pages
    rw [this] at hlt
    exact absurd hlt (lt_irrefl _)
  · exact absurd hb hmem

/-- Coalescing: the block and its buddy leave, the parent enters. -/
def coalesce (H : Finset Block) (h : Block) : Finset Block :=
  insert h.parent ((H.erase h.buddy).erase h)

theorem mem_coalesce : b ∈ coalesce H h ↔ b = h.parent ∨ b ≠ h ∧ b ≠ h.buddy ∧ b ∈ H := by
  simp [coalesce]

theorem Tiling.coalesce (ht : Tiling A H) (hh : h ∈ H) (hs : Submerged H h.buddy)
    (hA : h.buddy.pages ⊆ A) : Tiling A (coalesce H h) := by
  refine Tiling.insert (ht.mono ((Finset.erase_subset _ _).trans (Finset.erase_subset _ _))) ?_ ?_
  · rw [Block.pages_parent]
    exact Finset.union_subset (ht.subset h hh) hA
  · intro c hc
    obtain ⟨hch, hcb, hc⟩ : c ≠ h ∧ c ≠ h.buddy ∧ c ∈ H := by simpa using hc
    rw [Block.pages_parent, Finset.disjoint_union_left]
    refine ⟨ht.disjoint h hh c hc hch.symm, ?_⟩
    rcases ht.buddy_mem_or_disjoint hh hs with hb | hb
    · exact ht.disjoint _ hb c hc hcb.symm
    · exact (hb c hc).symm

/-- Coalescing keeps every harmless mark harmless. -/
theorem Submerged.coalesce (hh : h ∈ H) (hc : Submerged H c) : Submerged (coalesce H h) c := by
  intro b hb
  rcases mem_coalesce.1 hb with rfl | ⟨-, -, hb⟩
  · rw [Block.order_parent]
    -- `c` meets the parent in `h` or in the buddy
    by_cases hd : Disjoint h.pages c.pages
    · by_cases hd' : Disjoint h.buddy.pages c.pages
      · left
        rw [Block.pages_parent]
        exact Finset.disjoint_union_left.2 ⟨hd, hd'⟩
      · right; left
        obtain ⟨p, hp, hpc⟩ := Finset.not_disjoint_iff.1 hd'
        by_contra hlt
        -- a mark as large as the parent would meet `h`
        have hsub : h.parent.pages ⊆ c.pages :=
          Block.pages_subset_of_mem (by rw [Block.order_parent]; omega)
            (by rw [Block.pages_parent]; exact Finset.mem_union_right _ hp) hpc
        refine Finset.disjoint_left.1 hd h.base_mem_pages (hsub ?_)
        rw [Block.pages_parent]
        exact Finset.mem_union_left _ h.base_mem_pages
    · rcases hc h hh with h' | h' | rfl
      · exact absurd h' hd
      · exact .inr (.inl (by omega))
      · exact .inr (.inl (Nat.lt_succ_self _))
  · exact hc b hb

/-- Shrinking: the block leaves, its initial part of order `k` enters. -/
def shrinkIn (H : Finset Block) (h : Block) (k : ℕ) (hk : k ≤ h.order) : Finset Block :=
  insert (h.shrink k hk) (H.erase h)

theorem Tiling.shrinkIn (ht : Tiling A H) (hh : h ∈ H) {k : ℕ} (hk : k ≤ h.order) :
    Tiling A (shrinkIn H h k hk) := by
  refine Tiling.insert (ht.mono (Finset.erase_subset _ _))
    ((h.pages_shrink_subset hk).trans (ht.subset h hh)) fun c hc => ?_
  obtain ⟨hch, hc⟩ := Finset.mem_erase.1 hc
  exact (ht.disjoint h hh c hc hch.symm).mono_left (h.pages_shrink_subset hk)

/-- Shrinking a block keeps the marks harmless that do not start where it does. -/
theorem Submerged.shrinkIn {k : ℕ} (hk : k ≤ h.order) (hh : h ∈ H) (hc : Submerged H c)
    (hne : c.base ≠ h.base) : Submerged (shrinkIn H h k hk) c := by
  intro b hb
  rcases Finset.mem_insert.1 hb with rfl | hb
  · by_cases hd : Disjoint (h.shrink k hk).pages c.pages
    · exact .inl hd
    · obtain ⟨p, hp, hpc⟩ := Finset.not_disjoint_iff.1 hd
      refine .inr (.inl ?_)
      by_contra hlt
      -- a mark as large as the initial part contains its first number, and lies in `h`
      have hle : (h.shrink k hk).order ≤ c.order := Nat.le_of_not_lt hlt
      have hbase := Block.pages_subset_of_mem hle hp hpc (h.shrink k hk).base_mem_pages
      rcases hc h hh with h' | h' | rfl
      · exact Finset.disjoint_left.1 h' (h.pages_shrink_subset hk hp) hpc
      · have := Block.pages_subset_of_mem h'.le hpc (h.pages_shrink_subset hk hp) c.base_mem_pages
        rw [Block.mem_pages] at hbase this
        exact hne (le_antisymm hbase.1 this.1)
      · exact hne rfl
  · exact hc b (Finset.mem_of_mem_erase hb)

/-- A tiling that covers everything adds up to everything. -/
theorem Tiling.sum_eq_card (ht : Tiling A H) (hcov : ∀ p ∈ A, ∃ b ∈ H, p ∈ b.pages) :
    ∑ b ∈ H, 2 ^ b.order = A.card := by
  have hA : A = H.biUnion Block.pages := by
    ext p
    rw [Finset.mem_biUnion]
    exact ⟨fun hp => hcov p hp, fun ⟨b, hb, hp⟩ => ht.subset b hb hp⟩
  rw [hA, Finset.card_biUnion fun b hb c hc hne => ht.disjoint b hb c hc hne]
  exact Finset.sum_congr rfl fun b _ => (b.card_pages).symm

/-- No block has its buddy next to it. -/
def Merged (H : Finset Block) : Prop := ∀ b ∈ H, b.buddy ∉ H

theorem Merged.mono {H' : Finset Block} (h : Merged H) (hsub : H' ⊆ H) : Merged H' :=
  fun b hb hbuddy => h b (hsub hb) (hsub hbuddy)

/-- A block whose buddy is not there comes in. -/
theorem Merged.insert (hH : Merged H) (hbuddy : h.buddy ∉ H) : Merged (Insert.insert h H) := by
  have hne : h.buddy ≠ h := fun e =>
    Finset.disjoint_left.1 h.disjoint_buddy h.base_mem_pages (e.symm ▸ h.base_mem_pages)
  intro b hb hb'
  rcases Finset.mem_insert.1 hb with rfl | hb
  · rcases Finset.mem_insert.1 hb' with he | hb'
    · exact hne he
    · exact hbuddy hb'
  · rcases Finset.mem_insert.1 hb' with he | hb'
    · rw [← he, Block.buddy_buddy] at hbuddy
      exact hbuddy hb
    · exact hH b hb hb'

/-- **A cover without buddies reaches out of what it covers**: next to the smallest block lies what
no other block can cover. -/
theorem Tiling.not_merged (ht : Tiling A H) (hcov : ∀ p ∈ A, ∃ b ∈ H, p ∈ b.pages) (hne : H.Nonempty)
    (hclosed : ∀ b ∈ H, b.buddy.base ∈ A) : ¬ Merged H := by
  intro hm
  obtain ⟨b, hb, hmin⟩ := H.exists_min_image Block.order hne
  obtain ⟨c, hc, hbc⟩ := hcov _ (hclosed b hb)
  rcases Nat.eq_or_lt_of_le (hmin c hc) with heq | hlt
  · obtain rfl : b.buddy = c := Block.eq_of_order_eq heq b.buddy.base_mem_pages hbc
    exact hm b hb hc
  · -- a larger block around the buddy holds `b` as well
    have hpar := Block.parent_subset_of_lt (b := b.buddy) hlt b.buddy.base_mem_pages hbc
    rw [Block.pages_parent, Block.buddy_buddy] at hpar
    have hbase := hpar (Finset.mem_union_right _ b.base_mem_pages)
    rw [ht.eq_of_mem hb hc b.base_mem_pages hbase] at hlt
    exact lt_irrefl _ hlt

end Tilings

end DyadicBlocks
