/-
# Paths and trees of names

A path is a list of characters, cut into segments at a separator (`segments`); an empty last
segment does not count, so `a/` has the one segment of `a`, but `a//` has two.

A tree is given by its look-up, a function `child d x` for the node named `x` below `d`, and
`walk` follows a list of names.  A walk only looks below the nodes it passes: where every child is
above its parent in an order, a walk to `m` only looks below nodes before `m`
(`walk_congr_below`).
-/

import Mathlib.Data.List.Basic
import Mathlib.Data.List.TakeWhile
import Mathlib.Order.Basic

namespace NameTree

section Segments

variable {α : Type*}

/-- Put a character in front of the first segment. -/
def consHead (c : α) : List (List α) → List (List α)
  | [] => [[c]]
  | x :: l => (c :: x) :: l

theorem consHead_append (c : α) {l : List (List α)} (hl : l ≠ []) (l' : List (List α)) :
    consHead c (l ++ l') = consHead c l ++ l' := by
  cases l with
  | nil => exact absurd rfl hl
  | cons x l => rfl

variable [DecidableEq α] {sep : α} {d f s x : List α}

/-- What stands between the separators. -/
def segments (sep : α) : List α → List (List α)
  | [] => []
  | c :: s => if c = sep then [] :: segments sep s else consHead c (segments sep s)

@[simp] theorem segments_nil (sep : α) : segments sep [] = [] := rfl

theorem segments_sep_cons (sep : α) (s : List α) : segments sep (sep :: s) = [] :: segments sep s := if_pos rfl

theorem segments_cons {c : α} (hc : c ≠ sep) (s : List α) : segments sep (c :: s) = consHead c (segments sep s) := if_neg hc

/-- The first segment ends at the first separator. -/
theorem segments_eq_cons (hs : s ≠ []) : segments sep s =
    s.takeWhile (fun c => decide (c ≠ sep)) :: segments sep (s.dropWhile fun c => decide (c ≠ sep)).tail := by
  induction s with
  | nil => exact absurd rfl hs
  | cons c s ih =>
    by_cases hc : c = sep
    · rw [hc, segments_sep_cons, List.takeWhile_cons_of_neg (by simp), List.dropWhile_cons_of_neg (by simp), List.tail_cons]
    · rw [segments_cons hc, List.takeWhile_cons_of_pos (by simpa using hc), List.dropWhile_cons_of_pos (by simpa using hc)]
      cases s with
      | nil => rfl
      | cons b s =>
        rw [ih (List.cons_ne_nil _ _)]
        rfl

theorem segments_ne_nil (hs : s ≠ []) : segments sep s ≠ [] := by
  rw [segments_eq_cons hs]
  exact List.cons_ne_nil _ _

/-- A path splits at any separator, which stays with what is before it. -/
theorem segments_append (d f : List α) : segments sep (d ++ sep :: f) = segments sep (d ++ [sep]) ++ segments sep f := by
  induction d with
  | nil =>
    rw [List.nil_append, List.nil_append, segments_sep_cons, segments_sep_cons]
    rfl
  | cons c d ih =>
    rw [List.cons_append, List.cons_append]
    by_cases hc : c = sep
    · rw [hc, segments_sep_cons, segments_sep_cons, ih, List.cons_append]
    · rw [segments_cons hc, segments_cons hc, ih, consHead_append _ (segments_ne_nil (by simp))]

theorem segments_of_not_mem (hf : f ≠ []) (hsep : sep ∉ f) : segments sep f = [f] := by
  have hall : ∀ c ∈ f, decide (c ≠ sep) = true := fun c hc => decide_eq_true (ne_of_mem_of_not_mem hc hsep)
  rw [segments_eq_cons hf, List.takeWhile_eq_self_iff.2 hall, List.dropWhile_eq_nil_iff.2 hall]
  rfl

/-- A separator at the end adds nothing behind a path that ends in another character. -/
theorem segments_snoc (hd : d ≠ []) (hlast : d.getLast? ≠ some sep) : segments sep (d ++ [sep]) = segments sep d := by
  induction d with
  | nil => exact absurd rfl hd
  | cons c d ih =>
    cases d with
    | nil =>
      have hc : c ≠ sep := fun heq => hlast (by rw [heq]; rfl)
      rw [List.singleton_append, segments_cons hc, segments_cons hc, segments_sep_cons]
      rfl
    | cons b d =>
      have hrec := ih (List.cons_ne_nil _ _) hlast
      rw [List.cons_append]
      by_cases hc : c = sep
      · rw [hc, segments_sep_cons, segments_sep_cons, hrec]
      · rw [segments_cons hc, segments_cons hc, hrec]

/-- Behind another separator it adds an empty segment. -/
theorem segments_snoc_sep (hlast : d = [] ∨ d.getLast? = some sep) :
    segments sep (d ++ [sep]) = segments sep d ++ [[]] := by
  rcases hlast with rfl | hlast
  · exact segments_sep_cons sep []
  · obtain ⟨e, rfl⟩ := List.getLast?_eq_some_iff.1 hlast
    rw [List.append_assoc, List.singleton_append, segments_append, segments_sep_cons]
    rfl

theorem not_mem_of_mem_segments (hx : x ∈ segments sep s) : sep ∉ x := by
  induction s generalizing x with
  | nil => exact absurd hx List.not_mem_nil
  | cons c s ih =>
    by_cases hc : c = sep
    · rw [hc, segments_sep_cons] at hx
      rcases List.mem_cons.1 hx with rfl | hx
      · exact List.not_mem_nil
      · exact ih hx
    · rw [segments_cons hc] at hx
      have hcons : ∀ {y : List α}, sep ∉ y → sep ∉ c :: y := fun hy hmem =>
        (List.mem_cons.1 hmem).elim (fun heq => hc heq.symm) hy
      cases hseg : segments sep s with
      | nil =>
        rw [hseg] at hx
        rw [List.mem_singleton.1 hx]
        exact hcons List.not_mem_nil
      | cons y l =>
        rw [hseg] at hx ih
        rcases List.mem_cons.1 hx with rfl | hx
        · exact hcons (ih List.mem_cons_self)
        · exact ih (List.mem_cons_of_mem _ hx)

end Segments

section Walk

variable {ι ν : Type*} {child child' : ι → ν → Option ι} {d m n : ι} {l l' : List ν}

/-- Follow a list of names. -/
def walk (child : ι → ν → Option ι) : List ν → ι → Option ι
  | [], d => some d
  | x :: l, d => (child d x).bind (walk child l)

@[simp] theorem walk_nil (child : ι → ν → Option ι) (d : ι) : walk child [] d = some d := rfl

theorem walk_cons (child : ι → ν → Option ι) (x : ν) (l : List ν) (d : ι) :
    walk child (x :: l) d = (child d x).bind (walk child l) := rfl

theorem walk_singleton (child : ι → ν → Option ι) (x : ν) (d : ι) : walk child [x] d = child d x := by
  rw [walk_cons]
  cases child d x with
  | none => rfl
  | some m => rfl

theorem walk_append (child : ι → ν → Option ι) (l l' : List ν) (d : ι) :
    walk child (l ++ l') d = (walk child l d).bind (walk child l') := by
  induction l generalizing d with
  | nil => rfl
  | cons x l ih =>
    rw [List.cons_append, walk_cons, walk_cons, Option.bind_assoc]
    exact Option.bind_congr fun e _ => ih e

/-- The last step of a walk. -/
theorem walk_last (h : walk child l d = some m) : l = [] ∧ m = d ∨
    ∃ l' x e, l = l' ++ [x] ∧ walk child l' d = some e ∧ child e x = some m := by
  rcases List.eq_nil_or_concat' l with rfl | ⟨l', x, rfl⟩
  · exact .inl ⟨rfl, (Option.some.inj h).symm⟩
  · rw [walk_append] at h
    obtain ⟨e, he, h⟩ := Option.bind_eq_some_iff.1 h
    rw [walk_singleton] at h
    exact .inr ⟨l', x, e, rfl, he, h⟩

/-- Every node on the way has a property that look-up passes on. -/
theorem walk_induction {P : ι → Prop} (hstep : ∀ d x m, P d → child d x = some m → P m) (hd : P d)
    (h : walk child l d = some m) : P m := by
  induction l generalizing d with
  | nil =>
    obtain rfl := Option.some.inj h
    exact hd
  | cons x l ih =>
    obtain ⟨e, he, h⟩ := Option.bind_eq_some_iff.1 h
    exact ih (hstep d x e hd he) h

/-- A walk only looks below nodes with a property that look-up passes on. -/
theorem walk_congr {P : ι → Prop} (hstep : ∀ d x m, P d → child d x = some m → P m)
    (hag : ∀ d x m, P d → child d x = some m → child' d x = some m) (hd : P d) (h : walk child l d = some m) :
    walk child' l d = some m := by
  induction l generalizing d with
  | nil => exact h
  | cons x l ih =>
    obtain ⟨e, he, h⟩ := Option.bind_eq_some_iff.1 h
    rw [walk_cons, hag d x e hd he, Option.bind_some]
    exact ih (hstep d x e hd he) h

variable [PartialOrder ι]

theorem le_of_walk (hlt : ∀ d x m, child d x = some m → d < m) (h : walk child l d = some m) : d ≤ m :=
  walk_induction (P := (d ≤ ·)) (fun _ _ _ hle hc => hle.trans (hlt _ _ _ hc).le) le_rfl h

/-- Only the empty walk comes back. -/
theorem eq_nil_of_walk (hlt : ∀ d x m, child d x = some m → d < m) (h : walk child l d = some d) : l = [] := by
  rcases walk_last h with ⟨hnil, -⟩ | ⟨l', x, e, -, he, hc⟩
  · exact hnil
  · exact absurd ((le_of_walk hlt he).trans_lt (hlt _ _ _ hc)) (lt_irrefl _)

/-- **A walk to `m` only looks below nodes before `m`.** -/
theorem walk_congr_below (hlt : ∀ d x m, child d x = some m → d < m) (hag : ∀ d x e, d < m → child d x = some e → child' d x = some e)
    (h : walk child l d = some m) : walk child' l d = some m := by
  induction l generalizing d with
  | nil => exact h
  | cons x l ih =>
    obtain ⟨e, he, h⟩ := Option.bind_eq_some_iff.1 h
    have hle := le_of_walk hlt h
    rw [walk_cons, hag d x e ((hlt d x e he).trans_le hle) he, Option.bind_some]
    exact ih h

end Walk

end NameTree
