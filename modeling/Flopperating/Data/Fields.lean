/-
# Fields and words

The fields of a list are what stands between its separators, the elements with `p`; they may be
empty (`List.splitOnP`).  Its words are the fields that are not.  `fields` leaves out an empty field
behind a separator that comes last, and `tokens` has nothing for the empty list either.

A list is empty, or without separators, or a field, a separator and a list (`separated_induction`).
-/

import Mathlib.Algebra.Order.Group.Nat
import Mathlib.Data.List.Basic
import Mathlib.Data.List.TakeWhile

namespace Fields

variable {α : Type*} {p : α → Bool} {s t r : List α} {d : α}

/-- The last element is a separator. -/
def endsIn (p : α → Bool) (s : List α) : Bool := s.getLast?.any p

/-- The fields, but for an empty one behind a last separator. -/
def fields (p : α → Bool) (s : List α) : List (List α) :=
  if endsIn p s then (s.splitOnP p).dropLast else s.splitOnP p

/-- The fields of a list that is not empty. -/
def tokens (p : α → Bool) (s : List α) : List (List α) := if s.isEmpty then [] else fields p s

/-- The maximal parts without separators. -/
def words (p : α → Bool) (s : List α) : List (List α) := (s.splitOnP p).filter fun t => !t.isEmpty

/-- Put `ds` between the lists. -/
def joinWith : List (List α) → List α → List α
  | [], _ => []
  | [t], _ => t
  | t :: ts, [] => t ++ joinWith ts []
  | t :: ts, d :: ds => t ++ d :: joinWith ts ds

/-- No element is a separator. -/
def Free (p : α → Bool) (s : List α) : Prop := ∀ c ∈ s, p c = false

theorem Free.takeWhile_eq (h : Free p s) : s.takeWhile (fun c => !p c) = s :=
  List.takeWhile_eq_self_iff.2 fun c hc => by rw [h c hc]; rfl

theorem Free.dropWhile_eq (h : Free p s) : s.dropWhile (fun c => !p c) = [] :=
  List.dropWhile_eq_nil_iff.2 fun c hc => by rw [h c hc]; rfl

theorem Free.takeWhile_append (h : Free p t) (hd : p d = true) : (t ++ d :: r).takeWhile (fun c => !p c) = t := by
  rw [List.takeWhile_append_of_pos fun c hc => by rw [h c hc]; rfl, List.takeWhile_cons_of_neg (by rw [hd]; decide),
    List.append_nil]

theorem Free.dropWhile_append (h : Free p t) (hd : p d = true) :
    (t ++ d :: r).dropWhile (fun c => !p c) = d :: r := by
  rw [List.dropWhile_append_of_pos fun c hc => by rw [h c hc]; rfl, List.dropWhile_cons_of_neg (by rw [hd]; decide)]

theorem Free.filter_eq (h : Free p s) : s.filter p = [] :=
  List.filter_eq_nil_iff.2 fun c hc => by rw [h c hc]; exact Bool.false_ne_true

/-- **Induction along the separators.** -/
theorem separated_induction {motive : List α → Prop} (nil : motive []) (last : ∀ s, s ≠ [] → Free p s → motive s)
    (cons : ∀ t d r, Free p t → p d = true → motive r → motive (t ++ d :: r)) (s : List α) : motive s := by
  induction hn : s.length using Nat.strong_induction_on generalizing s with
  | _ n ih =>
    have hfree : Free p (s.takeWhile fun c => !p c) := fun c hc => by simpa using List.mem_takeWhile_imp hc
    have hs : s.takeWhile (fun c => !p c) ++ s.dropWhile (fun c => !p c) = s := List.takeWhile_append_dropWhile
    rcases hrest : s.dropWhile fun c => !p c with - | ⟨d, r⟩
    · rw [hrest, List.append_nil] at hs
      rw [hs] at hfree
      by_cases hnil : s = []
      · exact hnil ▸ nil
      · exact last s hnil hfree
    · have hd : p d = true := by
        have hstop := List.head?_dropWhile_not (fun c => !p c) s
        rw [hrest] at hstop
        simpa using hstop
      rw [hrest] at hs
      rw [← hs]
      refine cons _ d r hfree hd (ih r.length ?_ r rfl)
      rw [← hn, ← hs, List.length_append, List.length_cons]
      omega

/-! ### Tokens -/

theorem joinWith_cons {u : List α} {us : List (List α)} {ds : List α} :
    joinWith (t :: u :: us) (d :: ds) = t ++ d :: joinWith (u :: us) ds := rfl

theorem endsIn_of_free (h : Free p s) : endsIn p s = false := by
  rw [endsIn, Bool.eq_false_iff]
  intro hlast
  rcases hc : s.getLast? with - | c
  · rw [hc] at hlast
    exact Bool.false_ne_true hlast
  · rw [hc, Option.any_some, h c (List.mem_of_getLast? hc)] at hlast
    exact Bool.false_ne_true hlast

theorem endsIn_append (hr : r ≠ []) : endsIn p (t ++ d :: r) = endsIn p r := by
  obtain ⟨c, r, rfl⟩ := List.exists_cons_of_ne_nil hr
  rw [endsIn, endsIn, List.getLast?_append_cons, List.getLast?_cons_cons]

theorem endsIn_append_singleton (hd : p d = true) : endsIn p (t ++ [d]) = true := by
  rw [endsIn, List.getLast?_concat]
  exact hd

theorem tokens_of_free (hne : s ≠ []) (h : Free p s) : tokens p s = [s] := by
  rw [tokens, if_neg (by simpa using hne), fields, endsIn_of_free h, if_neg Bool.false_ne_true,
    List.splitOnP_eq_singleton h]

/-- **The first token is what stands before the first separator.** -/
theorem tokens_append (h : Free p t) (hd : p d = true) : tokens p (t ++ d :: r) = t :: tokens p r := by
  rw [tokens, if_neg (by simp), fields, List.splitOnP_append_cons_of_forall_mem h d hd]
  rcases r with - | ⟨c, r⟩
  · rw [endsIn_append_singleton hd, if_pos rfl]
    rfl
  · rw [endsIn_append (List.cons_ne_nil _ _), tokens, List.isEmpty_cons, if_neg Bool.false_ne_true, fields]
    split_ifs
    · rw [List.dropLast_cons_of_ne_nil (List.splitOnP_ne_nil _ _)]
    · rfl

theorem tokens_ne_nil (hne : s ≠ []) : tokens p s ≠ [] := by
  induction s using separated_induction (p := p) with
  | nil => exact absurd rfl hne
  | last s hne h =>
    rw [tokens_of_free hne h]
    exact List.cons_ne_nil _ _
  | cons t d r h hd _ =>
    rw [tokens_append h hd]
    exact List.cons_ne_nil _ _

/-- There is a token for each separator, and one more at most. -/
theorem length_tokens : (s.filter p).length ≤ (tokens p s).length ∧ (tokens p s).length ≤ (s.filter p).length + 1 := by
  induction s using separated_induction (p := p) with
  | nil => exact ⟨le_rfl, Nat.zero_le _⟩
  | last s hne h =>
    rw [tokens_of_free hne h, h.filter_eq]
    exact ⟨Nat.zero_le _, le_rfl⟩
  | cons t d r h hd ih =>
    rw [tokens_append h hd, List.filter_append, h.filter_eq, List.nil_append, List.filter_cons_of_pos hd,
      List.length_cons, List.length_cons]
    omega

/-- **Joined by the separators, the tokens are the list**, less a separator that comes last. -/
theorem joinWith_tokens :
    joinWith (tokens p s) (s.filter p) = if endsIn p s then s.dropLast else s := by
  induction s using separated_induction (p := p) with
  | nil => rfl
  | last s hne h =>
    rw [tokens_of_free hne h, endsIn_of_free h]
    rfl
  | cons t d r h hd ih =>
    rw [tokens_append h hd, List.filter_append, h.filter_eq, List.nil_append, List.filter_cons_of_pos hd]
    by_cases hr : r = []
    · rw [hr, endsIn_append_singleton hd, if_pos rfl, List.dropLast_concat]
      rfl
    · obtain ⟨u, us, hu⟩ := List.exists_cons_of_ne_nil (tokens_ne_nil (p := p) hr)
      rw [hu] at ih ⊢
      rw [joinWith_cons, ih, endsIn_append hr]
      split_ifs
      · rw [List.dropLast_append_of_ne_nil (List.cons_ne_nil _ _), List.dropLast_cons_of_ne_nil hr]
      · rfl

/-! ### Words -/

/-- A separator in front is skipped. -/
theorem words_cons (hd : p d = true) : words p (d :: s) = words p s := by
  have hsplit : ([] ++ d :: s).splitOnP p = [] :: s.splitOnP p :=
    List.splitOnP_append_cons_of_forall_mem (by simp) d hd s
  rw [List.nil_append] at hsplit
  rw [words, hsplit, List.filter_cons_of_neg (by simp)]
  rfl

theorem words_append_of_forall (h : ∀ c ∈ t, p c = true) : words p (t ++ s) = words p s := by
  induction t with
  | nil => rfl
  | cons d t ih =>
    rw [List.cons_append, words_cons (h d List.mem_cons_self)]
    exact ih fun c hc => h c (List.mem_cons_of_mem d hc)

theorem words_of_free (hne : t ≠ []) (h : Free p t) : words p t = [t] := by
  rw [words, List.splitOnP_eq_singleton h, List.filter_cons_of_pos (by simpa using hne)]
  rfl

/-- **The first word ends at the first separator behind it.** -/
theorem words_append (hne : t ≠ []) (h : Free p t) (hd : p d = true) : words p (t ++ d :: r) = t :: words p r := by
  rw [words, List.splitOnP_append_cons_of_forall_mem h d hd, List.filter_cons_of_pos (by simpa using hne)]
  rfl

/-- A list has separators in front, and behind them a word that reaches to the end or to a separator. -/
inductive FirstWord (p : α → Bool) : List α → Prop
  | none (s : List α) (hs : ∀ c ∈ s, p c = true) : FirstWord p s
  | last (front t : List α) (hfront : ∀ c ∈ front, p c = true) (hne : t ≠ []) (ht : Free p t) : FirstWord p (front ++ t)
  | more (front t : List α) (d : α) (r : List α) (hfront : ∀ c ∈ front, p c = true) (hne : t ≠ []) (ht : Free p t)
      (hd : p d = true) : FirstWord p (front ++ (t ++ d :: r))

theorem firstWord (p : α → Bool) (s : List α) : FirstWord p s := by
  induction s with
  | nil => exact .none [] (by simp)
  | cons c s ih =>
    by_cases hc : p c = true
    · cases ih with
      | none _ hs => exact .none _ (List.forall_mem_cons.2 ⟨hc, hs⟩)
      | last front t hfront hne ht => exact .last (c :: front) t (List.forall_mem_cons.2 ⟨hc, hfront⟩) hne ht
      | more front t d r hfront hne ht hd =>
        exact .more (c :: front) t d r (List.forall_mem_cons.2 ⟨hc, hfront⟩) hne ht hd
    · have hc : p c = false := Bool.eq_false_iff.2 hc
      induction s using separated_induction (p := p) with
      | nil => exact .last [] [c] (by simp) (by simp) (List.forall_mem_cons.2 ⟨hc, by simp⟩)
      | last s hne hs => exact .last [] (c :: s) (by simp) (by simp) (List.forall_mem_cons.2 ⟨hc, hs⟩)
      | cons t d r ht hd _ =>
        exact .more [] (c :: t) d r (by simp) (by simp) (List.forall_mem_cons.2 ⟨hc, ht⟩) hd

end Fields
