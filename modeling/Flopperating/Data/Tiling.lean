/-
# Tilings of a range of addresses

A list of addresses tiles a range when each address is where the one before it
ends: `Tiles len lo l hi` says that the pieces at `l`, of the lengths that `len`
gives, lie from `lo` to `hi` without a gap.

A tiling is cut at any of its pieces (`tiles_split`), and its pieces lie apart from
each other (`Tiles.pairwise`).  Two edits keep it: one piece is cut in two
(`Tiles.cut`), or two neighbours become one (`Tiles.join`).  An allocator that
joins free neighbours keeps its list `Coalesced`: no two neighbours are free.
-/

import Flopperating.Data.Extent
import Mathlib.Data.List.Chain

namespace Tiling

/-- The pieces at `l` lie from `lo` to `hi`, each where the one before it ends. -/
def Tiles (len : ℕ → ℕ) : ℕ → List ℕ → ℕ → Prop
  | lo, [], hi => lo = hi
  | lo, c :: l, hi => c = lo ∧ Tiles len (lo + len c) l hi

/-- No two neighbours are free. -/
def Coalesced (free : ℕ → Bool) (l : List ℕ) : Prop :=
  l.IsChain fun c d => ¬ (free c = true ∧ free d = true)

section Tiles

variable {len len' : ℕ → ℕ} {lo hi c d n k : ℕ} {l l₁ l₂ : List ℕ}

theorem Tiles.le (h : Tiles len lo l hi) : lo ≤ hi := by
  induction l generalizing lo with
  | nil => exact Nat.le_of_eq h
  | cons c l ih => exact (Nat.le_add_right _ _).trans (ih h.2)

/-- A tiling is two tilings, one up to a piece and one from its end on. -/
theorem tiles_split :
    Tiles len lo (l₁ ++ c :: l₂) hi ↔ Tiles len lo l₁ c ∧ Tiles len (c + len c) l₂ hi := by
  induction l₁ generalizing lo with
  | nil =>
    constructor
    · rintro ⟨rfl, h⟩
      exact ⟨rfl, h⟩
    · rintro ⟨rfl, h⟩
      exact ⟨rfl, h⟩
  | cons d l₁ ih =>
    constructor
    · rintro ⟨hd, h⟩
      exact ⟨⟨hd, (ih.1 h).1⟩, (ih.1 h).2⟩
    · rintro ⟨⟨hd, h₁⟩, h₂⟩
      exact ⟨hd, ih.2 ⟨h₁, h₂⟩⟩

/-- A tiling only reads the lengths of its pieces. -/
theorem Tiles.congr (h : Tiles len lo l hi) (hlen : ∀ c ∈ l, len' c = len c) :
    Tiles len' lo l hi := by
  induction l generalizing lo with
  | nil => exact h
  | cons c l ih =>
    refine ⟨h.1, ?_⟩
    rw [hlen c List.mem_cons_self]
    exact ih h.2 fun d hd => hlen d (List.mem_cons_of_mem _ hd)

theorem Tiles.within (h : Tiles len lo l hi) (hc : c ∈ l) : lo ≤ c ∧ c + len c ≤ hi := by
  obtain ⟨l₁, l₂, rfl⟩ := List.append_of_mem hc
  obtain ⟨h₁, h₂⟩ := tiles_split.1 h
  exact ⟨h₁.le, h₂.le⟩

/-- Each piece ends before the later ones start. -/
theorem Tiles.pairwise (h : Tiles len lo l hi) : l.Pairwise fun c d => c + len c ≤ d := by
  induction l generalizing lo with
  | nil => exact List.Pairwise.nil
  | cons c l ih =>
    obtain ⟨rfl, h⟩ := h
    exact List.pairwise_cons.2 ⟨fun d hd => (h.within hd).1, ih h⟩

theorem Tiles.apart (h : Tiles len lo l hi) (hc : c ∈ l) (hd : d ∈ l) (hne : c ≠ d) :
    (Extent.mk c (len c)).Apart ⟨d, len d⟩ := by
  have hap : l.Pairwise fun c d => (Extent.mk c (len c)).Apart ⟨d, len d⟩ := h.pairwise.imp .inl
  exact hap.forall hc hd hne

theorem Tiles.next (h : Tiles len lo (l₁ ++ c :: d :: l₂) hi) : d = c + len c :=
  (tiles_split.1 h).2.1

/-- As many pieces as there is room for. -/
theorem Tiles.length_le (h : Tiles len lo l hi) (hk : ∀ c ∈ l, k ≤ len c) :
    lo + l.length * k ≤ hi := by
  induction l generalizing lo with
  | nil =>
    obtain rfl : lo = hi := h
    exact Nat.le_of_eq (by simp)
  | cons c l ih =>
    have hle := ih h.2 fun d hd => hk d (List.mem_cons_of_mem _ hd)
    have hc := hk c List.mem_cons_self
    rw [List.length_cons, Nat.succ_mul]
    omega

/-- **A piece cut in two.** -/
theorem Tiles.cut (h : Tiles len lo (l₁ ++ c :: l₂) hi) (hkeep : ∀ d ∈ l₁ ++ l₂, len' d = len d)
    (hn : n = c + len' c) (hsum : len' c + len' n = len c) :
    Tiles len' lo (l₁ ++ c :: n :: l₂) hi := by
  obtain ⟨h₁, h₂⟩ := tiles_split.1 h
  refine tiles_split.2 ⟨h₁.congr fun d hd => hkeep d (List.mem_append_left _ hd), hn, ?_⟩
  rw [Nat.add_assoc, hsum]
  exact h₂.congr fun d hd => hkeep d (List.mem_append_right _ hd)

/-- **Two neighbours made one.** -/
theorem Tiles.join (h : Tiles len lo (l₁ ++ c :: d :: l₂) hi)
    (hkeep : ∀ e ∈ l₁ ++ l₂, len' e = len e) (hsum : len' c = len c + len d) :
    Tiles len' lo (l₁ ++ c :: l₂) hi := by
  obtain ⟨h₁, -, h₂⟩ := tiles_split.1 h
  refine tiles_split.2 ⟨h₁.congr fun e he => hkeep e (List.mem_append_left _ he), ?_⟩
  rw [hsum, ← Nat.add_assoc]
  exact h₂.congr fun e he => hkeep e (List.mem_append_right _ he)

end Tiles

section Coalesced

variable {free free' : ℕ → Bool} {b c d : ℕ} {l l₁ l₂ : List ℕ}

theorem Coalesced.mono (h : Coalesced free l) (hfree : ∀ c ∈ l, free' c = true → free c = true) :
    Coalesced free' l :=
  h.imp_of_mem_imp fun c d hc hd hcd hcd' => hcd ⟨hfree c hc hcd'.1, hfree d hd hcd'.2⟩

/-- What may stand behind a piece: a coalesced list that starts with a used piece. -/
theorem coalesced_cons (h : Coalesced free l) (hhead : ∀ d ∈ l.head?, free d = false) :
    Coalesced free (c :: l) :=
  List.isChain_cons.2 ⟨fun d hd hcd => Bool.false_ne_true ((hhead d hd).symm.trans hcd.2), h⟩

/-- What may stand around a piece: coalesced lists that have no free piece next to it. -/
theorem coalesced_around (h₁ : Coalesced free l₁) (hlast : ∀ b ∈ l₁.getLast?, free b = false)
    (h₂ : Coalesced free l₂) (hhead : ∀ d ∈ l₂.head?, free d = false) :
    Coalesced free (l₁ ++ c :: l₂) := by
  refine List.isChain_append.2 ⟨h₁, coalesced_cons h₂ hhead, ?_⟩
  intro b hb d hd hbd
  exact Bool.false_ne_true ((hlast b hb).symm.trans hbd.1)

/-- A used piece between two coalesced lists. -/
theorem coalesced_of_used (h₁ : Coalesced free l₁) (h₂ : Coalesced free l₂)
    (hc : free c = false) : Coalesced free (l₁ ++ c :: l₂) := by
  refine List.isChain_append.2 ⟨h₁, List.isChain_cons.2 ⟨fun d _ hcd => ?_, h₂⟩, ?_⟩
  · exact Bool.false_ne_true (hc.symm.trans hcd.1)
  · intro b _ d hd hbd
    obtain rfl : c = d := Option.some.inj hd
    exact Bool.false_ne_true (hc.symm.trans hbd.2)

/-- Behind a free piece comes a used one. -/
theorem Coalesced.head_used (h : Coalesced free (c :: l)) (hc : free c = true) :
    ∀ d ∈ l.head?, free d = false := fun _ hd =>
  Bool.eq_false_iff.2 fun hfree => (List.isChain_cons.1 h).1 _ hd ⟨hc, hfree⟩

/-- Before a free piece comes a used one. -/
theorem Coalesced.last_used (h : Coalesced free (l ++ [c])) (hc : free c = true) :
    ∀ b ∈ l.getLast?, free b = false := fun b hb =>
  Bool.eq_false_iff.2 fun hfree => (List.isChain_append.1 h).2.2 b hb c rfl ⟨hfree, hc⟩

/-- When all pieces are free, there is at most one. -/
theorem Coalesced.length_le_one (h : Coalesced free l) (hall : ∀ c ∈ l, free c = true) :
    l.length ≤ 1 := by
  rcases l with - | ⟨c, - | ⟨d, l⟩⟩
  · exact Nat.zero_le _
  · exact le_rfl
  · have hcd := (List.isChain_cons_cons.1 h).1
    exact absurd ⟨hall c (by simp), hall d (by simp)⟩ hcd

end Coalesced

end Tiling
