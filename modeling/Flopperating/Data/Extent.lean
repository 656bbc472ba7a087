/-
# Extents of addresses

An extent is a half-open range of addresses.  An allocator hands out extents
that lie apart from each other (`Extent.Apart`), and what lies within apart
extents is apart (`Extent.Apart.mono`).  A list of pairwise apart extents of the
same length below a bound is short (`length_le_of_apart`).
-/

import Mathlib.Algebra.Group.Nat.Defs
import Mathlib.Data.List.Nodup
import Mathlib.Data.List.Pairwise
import Mathlib.Data.List.Perm.Subperm
import Mathlib.Data.List.Range

/-- The addresses from `start` on, `len` of them. -/
structure Extent where
  start : ℕ
  len : ℕ

namespace Extent

variable {e f e' f' : Extent} {x : ℕ}

/-- The address lies in the extent. -/
def Has (e : Extent) (x : ℕ) : Prop := e.start ≤ x ∧ x < e.start + e.len

/-- One of the extents ends before the other starts. -/
def Apart (e f : Extent) : Prop := e.start + e.len ≤ f.start ∨ f.start + f.len ≤ e.start

/-- The first extent is part of the second. -/
def Within (e f : Extent) : Prop := f.start ≤ e.start ∧ e.start + e.len ≤ f.start + f.len

instance : DecidablePred e.Has := fun _ => inferInstanceAs (Decidable (_ ∧ _))

instance : Decidable (e.Apart f) := inferInstanceAs (Decidable (_ ∨ _))

theorem Apart.symm (h : e.Apart f) : f.Apart e := h.elim .inr .inl

instance {α : Type*} (f : α → Extent) : Std.Symm fun a b => (f a).Apart (f b) :=
  ⟨fun _ _ h => h.symm⟩

theorem Apart.mono (h : e.Apart f) (he : e'.Within e) (hf : f'.Within f) : e'.Apart f' := by
  unfold Apart Within at *
  omega

/-- No address is in two extents that are apart. -/
theorem Apart.not_has (h : e.Apart f) (he : e.Has x) : ¬ f.Has x := by
  unfold Apart Has at *
  omega

theorem apart_of_not_has (hs : ¬ e.Has f.start) (hs' : ¬ f.Has e.start) : e.Apart f := by
  unfold Apart Has at *
  omega

/-- Pairwise apart extents of one length, below a bound: there are not more of
them than fit. -/
theorem length_le_of_apart {starts : List ℕ} {n m : ℕ} (hn : 0 < n)
    (hap : starts.Pairwise fun a b => (Extent.mk a n).Apart ⟨b, n⟩)
    (hlt : ∀ a ∈ starts, a + n ≤ m * n) : starts.length ≤ m := by
  have hnd : (starts.map (· / n)).Nodup := by
    refine List.pairwise_map.2 (hap.imp fun {a b} h heq => ?_)
    have ha := Nat.div_add_mod a n
    have hb := Nat.div_add_mod b n
    have hma := Nat.mod_lt a hn
    have hmb := Nat.mod_lt b hn
    rw [heq] at ha
    simp only [Apart] at h
    omega
  have hsub : starts.map (· / n) ⊆ List.range m := fun q hq => by
    obtain ⟨a, ha, rfl⟩ := List.mem_map.1 hq
    exact List.mem_range.2 ((Nat.div_lt_iff_lt_mul hn).2 (by have := hlt a ha; omega))
  simpa using (hnd.subperm hsub).length_le

end Extent
