/-
# Two-level tables

A store of pages holds, for each page, a word at every index.  A root page links
table pages: `link w` is the page that a word links, if it links one.  The word
that a root gives for a pair of indices is read through the table
(`entry`), and is blank where there is no table.  Tables are made when they are
first needed, filled with blanks, so making one is not seen in the entries
(`entry_install`).

Several roots share one store.  `Separate` says that no table is a root and that
every table is linked from one place only; then a write to a table changes one
entry of one root (`entry_write`), and a page that is neither a root nor linked
may hold anything (`entry_congr`).
-/

import Mathlib.Logic.Function.Basic
import Mathlib.Tactic.TypeStar

namespace TwoLevel

variable {α ι ω : Type*}

/-- The words of every page. -/
abbrev Store (α ι ω : Type*) := α → ι → ω

section Operations

variable [DecidableEq α] [DecidableEq ι]

/-- Overwrite one word. -/
def write (s : Store α ι ω) (a : α) (i : ι) (w : ω) : Store α ι ω :=
  Function.update s a (Function.update (s a) i w)

omit [DecidableEq ι] in
/-- Fill a page with one word. -/
def fill (s : Store α ι ω) (a : α) (w : ω) : Store α ι ω := Function.update s a fun _ => w

variable {s : Store α ι ω} {a b : α} {i j : ι} {w : ω}

@[simp] theorem write_self : write s a i w a i = w := by simp [write]

theorem write_of_ne_page (h : b ≠ a) : write s a i w b = s b := Function.update_of_ne h _ _

theorem write_of_ne_index (h : j ≠ i) : write s a i w a j = s a j := by
  rw [write, Function.update_self, Function.update_of_ne h]

theorem write_apply : write s a i w b j = if b = a ∧ j = i then w else s b j := by
  split
  · next h => rw [h.1, h.2, write_self]
  · next h =>
    rcases eq_or_ne b a with rfl | hb
    · exact write_of_ne_index fun hj => h ⟨rfl, hj⟩
    · rw [write_of_ne_page hb]

omit [DecidableEq ι] in
@[simp] theorem fill_self : fill s a w a i = w := by simp [fill]

omit [DecidableEq ι] in
theorem fill_of_ne (h : b ≠ a) : fill s a w b = s b := Function.update_of_ne h _ _

end Operations

variable (link : ω → Option α)

/-- The word under a root for a pair of indices, `blank` where there is no table. -/
def entry (blank : ω) (s : Store α ι ω) (r : α) (i j : ι) : ω :=
  match link (s r i) with
  | none => blank
  | some t => s t j

/-- The roots `root` use their slots `slot` for tables, and every table has one
place: it is no root and linked once. -/
structure Separate (s : Store α ι ω) (root : α → Prop) (slot : ι → Prop) : Prop where
  not_root : ∀ {r i t}, root r → slot i → link (s r i) = some t → ¬ root t
  inj : ∀ {r r' i i' t}, root r → root r' → slot i → slot i' → link (s r i) = some t →
    link (s r' i') = some t → r = r' ∧ i = i'

/-- The page is neither a root nor linked as a table. -/
def Unused (s : Store α ι ω) (root : α → Prop) (slot : ι → Prop) (t : α) : Prop :=
  ¬ root t ∧ ∀ r i, root r → slot i → link (s r i) ≠ some t

variable {link} {blank : ω} {s s' : Store α ι ω} {root : α → Prop} {slot : ι → Prop}
  {r r' t u : α} {i i' j j' : ι} {w : ω}

theorem entry_of_link (h : link (s r i) = some t) : entry link blank s r i j = s t j := by
  rw [entry, h]

theorem entry_of_none (h : link (s r i) = none) : entry link blank s r i j = blank := by
  rw [entry, h]

/-- Only the pages that are roots or tables matter. -/
theorem entry_congr (hs : ∀ a, ¬ Unused link s root slot a → s' a = s a) (hr : root r)
    (hi : slot i) : entry link blank s' r i j = entry link blank s r i j := by
  have hroot : s' r = s r := hs r fun h => h.1 hr
  rcases hl : link (s r i) with - | t
  · rw [entry_of_none hl, entry_of_none (by rwa [hroot])]
  · rw [entry_of_link hl, entry_of_link (by rwa [hroot]), hs t fun h => h.2 r i hr hi hl]

theorem Separate.congr (h : Separate link s root slot) (hs : ∀ a, root a → s' a = s a) :
    Separate link s' root slot where
  not_root hr hi hl := h.not_root hr hi (by rwa [← hs _ hr])
  inj hr hr' hi hi' hl hl' := h.inj hr hr' hi hi' (by rwa [← hs _ hr]) (by rwa [← hs _ hr'])

theorem Unused.congr (h : Unused link s root slot t) (hs : ∀ a, root a → s' a = s a) :
    Unused link s' root slot t :=
  ⟨h.1, fun a i ha hi => by rw [hs a ha]; exact h.2 a i ha hi⟩

variable [DecidableEq α] [DecidableEq ι]

/-- A write to a page that is no root keeps what the roots link. -/
theorem write_root (ht : ¬ root t) {a : α} (ha : root a) : write s t j w a = s a :=
  write_of_ne_page fun h => ht (h ▸ ha)

/-- **Writing to a table changes one entry of one root.** -/
theorem entry_write (h : Separate link s root slot) (hr : root r) (hi : slot i)
    (hl : link (s r i) = some t) (hr' : root r') (hi' : slot i') :
    entry link blank (write s t j w) r' i' j' =
      if r' = r ∧ i' = i ∧ j' = j then w else entry link blank s r' i' j' := by
  have hroot : write s t j w r' = s r' := write_root (h.not_root hr hi hl) hr'
  rcases hl' : link (s r' i') with - | t'
  · have hne : ¬ (r' = r ∧ i' = i ∧ j' = j) := by
      rintro ⟨rfl, rfl, -⟩
      exact absurd (hl.symm.trans hl') (Option.some_ne_none t)
    rw [if_neg hne, entry_of_none hl', entry_of_none (by rwa [hroot])]
  · rw [entry_of_link hl', entry_of_link (by rwa [hroot]), write_apply]
    refine if_congr ⟨?_, ?_⟩ rfl rfl
    · rintro ⟨rfl, hj⟩
      obtain ⟨rfl, rfl⟩ := h.inj hr' hr hi' hi hl' hl
      exact ⟨rfl, rfl, hj⟩
    · rintro ⟨rfl, rfl, hj⟩
      exact ⟨Option.some.inj (hl'.symm.trans hl), hj⟩

section Install

variable (hr : root r) (hi : slot i) (hnone : link (s r i) = none)
  (ht : Unused link s root slot t) (hw : link w = some t)

include ht in
/-- The words of the roots after a table is made. -/
theorem install_root {a : α} (ha : root a) :
    fill (write s r i w) t blank a = write s r i w a :=
  fill_of_ne fun h => ht.1 (h ▸ ha)

include hr hi hnone ht hw in
/-- **Making a table is not seen in the entries.** -/
theorem entry_install (hsep : Separate link s root slot) (hr' : root r') (hi' : slot i') :
    entry link blank (fill (write s r i w) t blank) r' i' j' = entry link blank s r' i' j' := by
  have hroot : fill (write s r i w) t blank r' = write s r i w r' := install_root ht hr'
  rcases Classical.em (r' = r ∧ i' = i) with ⟨rfl, rfl⟩ | hne
  · rw [entry_of_none hnone, entry_of_link (t := t) (by rw [hroot, write_self, hw]), fill_self]
  · have hword : fill (write s r i w) t blank r' i' = s r' i' := by
      rw [hroot, write_apply, if_neg hne]
    rcases hl : link (s r' i') with - | t'
    · rw [entry_of_none hl, entry_of_none (by rwa [hword])]
    · have htt : t' ≠ t := fun h => ht.2 r' i' hr' hi' (h ▸ hl)
      have htr : t' ≠ r := fun h => hsep.not_root hr' hi' hl (h ▸ hr)
      rw [entry_of_link hl, entry_of_link (by rwa [hword]), fill_of_ne htt,
        write_of_ne_page htr]

include hr ht hw in
theorem Separate.install (hsep : Separate link s root slot) :
    Separate link (fill (write s r i w) t blank) root slot := by
  have hlink : ∀ {a k u}, root a → slot k → link (fill (write s r i w) t blank a k) = some u →
      (a = r ∧ k = i ∧ u = t) ∨ (¬ (a = r ∧ k = i) ∧ link (s a k) = some u) := by
    intro a k u ha _ hl
    rw [install_root ht ha, write_apply] at hl
    split at hl
    · next h => exact .inl ⟨h.1, h.2, Option.some.inj (hl.symm.trans hw)⟩
    · next h => exact .inr ⟨h, hl⟩
  constructor
  · intro a k u ha hk hl
    rcases hlink ha hk hl with ⟨-, -, rfl⟩ | ⟨-, hl⟩
    · exact ht.1
    · exact hsep.not_root ha hk hl
  · intro a a' k k' u ha ha' hk hk' hl hl'
    rcases hlink ha hk hl with ⟨rfl, rfl, rfl⟩ | ⟨-, hold⟩
    · rcases hlink ha' hk' hl' with ⟨rfl, rfl, -⟩ | ⟨-, hold'⟩
      · exact ⟨rfl, rfl⟩
      · exact absurd hold' (ht.2 _ _ ha' hk')
    · rcases hlink ha' hk' hl' with ⟨rfl, rfl, rfl⟩ | ⟨-, hold'⟩
      · exact absurd hold (ht.2 _ _ ha hk)
      · exact hsep.inj ha ha' hk hk' hold hold'

include ht hw in
/-- A page other than the new table stays unused. -/
theorem Unused.install (hu : Unused link s root slot u) (hne : u ≠ t) :
    Unused link (fill (write s r i w) t blank) root slot u := by
  refine ⟨hu.1, fun a k ha hk hl => ?_⟩
  rw [install_root ht ha, write_apply] at hl
  split at hl
  · exact hne (Option.some.inj (hl.symm.trans hw))
  · exact hu.2 a k ha hk hl

end Install

end TwoLevel
