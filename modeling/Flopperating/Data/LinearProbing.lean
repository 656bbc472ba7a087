/-
# Hash tables with linear probing

A table of `n` slots in a circle.  A key is looked for from its `home` on, slot
by slot, until it is found or a slot is empty (`probe`).  An insertion takes the
first empty slot, and a deletion empties a slot and inserts the rest of the
cluster behind it again, entry by entry, while it walks over it.

What makes lookups right is `Reached`: between the home of a stored key and its
slot no slot is empty.  Insertion keeps it because it goes to the first empty
slot.  Deletion breaks it, and the walk restores it: in the middle of the walk
(`Walk`) only the entries up to the next empty slot may have empty slots before
them.  In a table that was full the walk may go round several times; it ends
because an entry that is moved comes closer to its home (`displacement`).

What a table holds is the multiset of its `entries`.  A key may be stored twice;
a table that stores no key twice (`Probed`) is a finite map.

Stretches of the circle are `InArc i j`, the slots from `i` on and before `j`.
An emptied slot keeps its key, so that only the values say what is stored.
-/

import Mathlib.Algebra.BigOperators.Group.Finset.Basic
import Mathlib.Algebra.BigOperators.Group.Finset.Piecewise
import Mathlib.Algebra.Order.BigOperators.Group.Finset
import Mathlib.Algebra.Order.Group.Nat
import Mathlib.Data.List.Nodup
import Mathlib.Data.List.Perm.Subperm
import Mathlib.Data.List.Range
import Mathlib.Logic.Function.Basic
import Mathlib.Tactic.Ring

namespace LinearProbing

/-- A slot of the table, empty when it has no value. -/
structure Slot (K V : Type*) where
  key : K
  value : Option V

/-- The slots of a table, by position. -/
abbrev Table (K V : Type*) := ℕ → Slot K V

/-! ### The circle -/

/-- The slot after `i`, of `n`. -/
def next (n i : ℕ) : ℕ := (i + 1) % n

/-- `x` comes from `i` on and before `j`, going round. -/
def InArc (i j x : ℕ) : Prop := (i ≤ j ∧ i ≤ x ∧ x < j) ∨ (j < i ∧ (i ≤ x ∨ x < j))

/-- The steps from `i` to `j`, going round. -/
def dist (n i j : ℕ) : ℕ := if i ≤ j then j - i else n - i + j

section Circle

variable {n i j x y : ℕ}

theorem next_eq (hi : i < n) : next n i = if i + 1 = n then 0 else i + 1 := by
  unfold next
  split
  · next h => rw [h, Nat.mod_self]
  · exact Nat.mod_eq_of_lt (by omega)

theorem next_lt (hi : i < n) : next n i < n := Nat.mod_lt _ (by omega)

theorem not_inArc_self : ¬ InArc i i x := by
  unfold InArc
  omega

theorem inArc_start (hij : i ≠ j) : InArc i j i := by
  unfold InArc
  omega

/-- An arc without its first slot. -/
theorem inArc_next_iff (hi : i < n) (hj : j < n) (hx : x < n) (hij : i ≠ j) :
    InArc (next n i) j x ↔ x ≠ i ∧ InArc i j x := by
  rw [next_eq hi]
  unfold InArc
  split <;> omega

theorem dist_next (hi : i < n) (hj : j < n) (hij : i ≠ j) :
    dist n i j = dist n (next n i) j + 1 := by
  rw [next_eq hi]
  unfold dist
  split <;> split <;> split <;> omega

theorem dist_lt (hi : i < n) (hj : j < n) : dist n i j < n := by
  unfold dist
  split <;> omega

/-- A slot that comes first, seen from `i`, is nearer. -/
theorem dist_lt_dist (hi : i < n) (hx : x < n) (hne : x ≠ j) (hbefore : ¬ InArc i x j) :
    dist n i x < dist n i j := by
  unfold InArc at hbefore
  unfold dist
  split <;> split <;> omega

/-- Two slots, seen from a third: one of them comes first. -/
theorem inArc_total : x = y ∨ InArc i y x ∨ InArc i x y := by
  unfold InArc
  omega

/-- An arc that goes on past `x` and ends outside the arc from `x` to `y` goes on
past `y`. -/
theorem InArc.past (h : InArc i j x) (hxy : x ≠ y) (hjy : j ≠ y) (hj : ¬ InArc x y j) :
    InArc i j y := by
  unfold InArc at *
  omega

/-- A slot before `j`, which is itself before `y`, is before `y`. -/
theorem InArc.trans (h : InArc i j x) (hj : InArc i y j) : InArc i y x := by
  unfold InArc at *
  omega

end Circle

/-! ### Probing -/

/-- Walk from `i` on to the first slot that stops, over at most `steps` slots. -/
def probe (n : ℕ) (stop : ℕ → Bool) : ℕ → ℕ → Option ℕ
  | 0, _ => none
  | steps + 1, i => if stop i then some i else probe n stop steps (next n i)

/-- **A probe ends at the first slot that stops**, when there is one on the way. -/
theorem probe_spec {n : ℕ} (stop : ℕ → Bool) {steps i e : ℕ} (hi : i < n) (he : e < n)
    (hstop : stop e = true) (hsteps : dist n i e < steps) :
    ∃ x < n, probe n stop steps i = some x ∧ stop x = true ∧
      ∀ y < n, InArc i x y → stop y = false := by
  induction steps generalizing i with
  | zero => exact absurd hsteps (Nat.not_lt_zero _)
  | succ steps ih =>
    by_cases hs : stop i = true
    · exact ⟨i, hi, by rw [probe, if_pos hs], hs, fun y _ hy => absurd hy not_inArc_self⟩
    · have hie : i ≠ e := fun h => hs (h ▸ hstop)
      rw [dist_next hi he hie] at hsteps
      obtain ⟨x, hx, hrun, hsx, hbefore⟩ := ih (next_lt hi) (by omega)
      have hix : i ≠ x := fun h => hs (h ▸ hsx)
      refine ⟨x, hx, by rw [probe, if_neg hs, hrun], hsx, fun y hy hxy => ?_⟩
      by_cases hyi : y = i
      · rw [hyi]
        exact Bool.not_eq_true _ ▸ hs
      · exact hbefore y hy ((inArc_next_iff hi hx hy hix).2 ⟨hyi, hxy⟩)

/-- A probe that ends, ends at a slot that stops. -/
theorem probe_stops {n : ℕ} {stop : ℕ → Bool} {steps i x : ℕ} (hi : i < n)
    (hrun : probe n stop steps i = some x) : x < n ∧ stop x = true := by
  induction steps generalizing i with
  | zero => exact absurd hrun (by simp [probe])
  | succ steps ih =>
    rw [probe] at hrun
    split at hrun
    · next h => exact Option.some.inj hrun ▸ ⟨hi, h⟩
    · exact ih (next_lt hi) hrun

section Tables

variable {K V : Type*}

/-- Slot `i` holds an entry. -/
def Used (t : Table K V) (i : ℕ) : Prop := (t i).value.isSome = true

instance (t : Table K V) : DecidablePred (Used t) := fun i =>
  inferInstanceAs (Decidable ((t i).value.isSome = true))

/-- Some slot holds the entry. -/
def Stored (n : ℕ) (t : Table K V) (k : K) (v : V) : Prop := ∃ i < n, t i = ⟨k, some v⟩

/-- Take the value out of a slot. -/
def clear (t : Table K V) (i : ℕ) : Table K V := Function.update t i { t i with value := none }

/-- Put an entry into a slot. -/
def place (t : Table K V) (i : ℕ) (k : K) (v : V) : Table K V := Function.update t i ⟨k, some v⟩

/-- An insertion: probe for an empty slot and put the entry there. -/
def insert (n : ℕ) (home : K → ℕ) (t : Table K V) (k : K) (v : V) : Option (Table K V) :=
  (probe n (fun i => (t i).value.isNone) n (home k)).map fun i => place t i k v

/-- Insert the entries from `i` on again, up to an empty slot, each after its slot
was emptied. -/
def rehash (n : ℕ) (home : K → ℕ) : ℕ → ℕ → Table K V → Option (Table K V)
  | 0, _, _ => none
  | steps + 1, i, t =>
    match (t i).value with
    | none => some t
    | some v =>
      match insert n home (clear t i) (t i).key v with
      | none => none
      | some t => rehash n home steps (next n i) t

variable [DecidableEq K]

/-- Probe for a key: stop where it is, or at an empty slot. -/
def find (n : ℕ) (home : K → ℕ) (t : Table K V) (k : K) : Option ℕ :=
  probe n (fun i => (t i).value.isNone || (t i).key = k) n (home k)

/-- A lookup: the value found, or that there is none. -/
def lookup (n : ℕ) (home : K → ℕ) (t : Table K V) (k : K) : Option (Option V) :=
  (find n home t k).map fun i => (t i).value

/-- The steps given to the walk of a deletion.  In a table that was full it may go
round several times. -/
def rehashSteps (n : ℕ) : ℕ := n * n * n

/-- A deletion: empty the slot of the key and insert the cluster behind it again. -/
def remove (n : ℕ) (home : K → ℕ) (t : Table K V) (k : K) : Option (Table K V) :=
  match find n home t k with
  | none => none
  | some i =>
    if (t i).value.isNone then some t else rehash n home (rehashSteps n) (next n i) (clear t i)

end Tables

/-! ### Slots of a changed table -/

section Slots

variable {K V : Type*} {t : Table K V} {i j : ℕ} {k : K} {v : V}

theorem clear_of_ne (h : j ≠ i) : clear t i j = t j := Function.update_of_ne h _ _

theorem place_of_ne (h : j ≠ i) : place t i k v j = t j := Function.update_of_ne h _ _

@[simp] theorem place_self : place t i k v i = ⟨k, some v⟩ := Function.update_self ..

theorem used_clear : Used (clear t i) j ↔ j ≠ i ∧ Used t j := by
  by_cases h : j = i
  · subst h
    simp [Used, clear]
  · rw [Used, clear_of_ne h]
    exact (and_iff_right h).symm

theorem used_place : Used (place t i k v) j ↔ j = i ∨ Used t j := by
  by_cases h : j = i
  · subst h
    simp [Used]
  · rw [Used, place_of_ne h]
    exact (or_iff_right h).symm

theorem not_used_iff : ¬ Used t i ↔ (t i).value.isNone = true := by
  rw [Used]
  cases (t i).value <;> simp

theorem Used.exists_value (h : Used t i) : ∃ v, (t i).value = some v := Option.isSome_iff_exists.1 h

end Slots

/-! ### What a table holds -/

section Total

variable {K V M : Type*} [AddCommMonoid M] {n i : ℕ} {f : ℕ → K → V → M} {t t' : Table K V} {k : K}
  {v : V}

/-- The sum of `f` over the entries, by slot, key and value. -/
def total (n : ℕ) (f : ℕ → K → V → M) (t : Table K V) : M :=
  ∑ i ∈ Finset.range n, (t i).value.elim 0 (f i (t i).key)

/-- Tables that agree off slot `i` have sums that agree but for it. -/
theorem total_congr_of_ne (hi : i < n) (hother : ∀ j, j ≠ i → t' j = t j) :
    ∃ r, total n f t = (t i).value.elim 0 (f i (t i).key) + r ∧
      total n f t' = (t' i).value.elim 0 (f i (t' i).key) + r := by
  have hmem : i ∈ Finset.range n := Finset.mem_range.2 hi
  refine ⟨_, (Finset.add_sum_erase _ _ hmem).symm, ?_⟩
  rw [total, ← Finset.add_sum_erase _ _ hmem]
  refine congrArg _ (Finset.sum_congr rfl fun j hj => ?_)
  rw [hother j (Finset.ne_of_mem_erase hj)]

/-- An entry adds its value. -/
theorem total_place (hi : i < n) (hu : ¬ Used t i) : total n f (place t i k v) = f i k v + total n f t := by
  obtain ⟨r, ht, ht'⟩ := total_congr_of_ne (f := f) hi fun j hj => place_of_ne (k := k) (v := v) hj
  have hnone : (t i).value = none := Option.not_isSome_iff_eq_none.1 hu
  rw [ht', ht, place_self, hnone, Option.elim_none, Option.elim_some, zero_add]

/-- Emptying a slot takes its value away. -/
theorem total_clear (hi : i < n) (hv : (t i).value = some v) :
    total n f t = f i (t i).key v + total n f (clear t i) := by
  obtain ⟨r, ht, ht'⟩ := total_congr_of_ne (f := f) hi fun j hj => clear_of_ne (t := t) hj
  have hnone : (clear t i i).value = none := by simp [clear]
  rw [ht', ht, hv, hnone, Option.elim_none, Option.elim_some, zero_add]

end Total

section Entries

variable {K V : Type*} {n i : ℕ} {home : K → ℕ} {t : Table K V} {k : K} {v : V}

/-- The entries of a table. -/
def entries (n : ℕ) (t : Table K V) : Multiset (K × V) := total n (fun _ k v => {(k, v)}) t

/-- The keys of the entries, each as often as it is stored. -/
def keys (n : ℕ) (t : Table K V) : Multiset K := (entries n t).map Prod.fst

/-- How far the entries are from their homes, taken together. -/
def displacement (n : ℕ) (home : K → ℕ) (t : Table K V) : ℕ :=
  total n (fun i k _ => dist n (home k) i) t

theorem entries_place (hi : i < n) (hu : ¬ Used t i) :
    entries n (place t i k v) = (k, v) ::ₘ entries n t := total_place hi hu

theorem entries_clear (hi : i < n) (hv : (t i).value = some v) :
    entries n t = ((t i).key, v) ::ₘ entries n (clear t i) := total_clear hi hv

theorem mem_entries : (k, v) ∈ entries n t ↔ Stored n t k v := by
  simp only [entries, total, Multiset.mem_sum, Finset.mem_range, Stored]
  refine exists_congr fun i => and_congr_right fun _ => ?_
  obtain ⟨k', v'⟩ := t i
  cases v' <;> simp [eq_comm]

theorem keys_eq :
    keys n t = ((Finset.range n).filter fun i => Used t i).val.map fun i => (t i).key := by
  have hsum : keys n t = ∑ i ∈ Finset.range n, if Used t i then {(t i).key} else 0 := by
    rw [keys, entries, total, ← Multiset.coe_mapAddMonoidHom, map_sum]
    refine Finset.sum_congr rfl fun i _ => ?_
    cases hv : (t i).value <;> simp [Used, hv]
  rw [hsum, ← Finset.sum_filter]
  exact (congrArg Multiset.sum (Multiset.map_map ..).symm).trans (Multiset.sum_map_singleton _)

theorem mem_keys : k ∈ keys n t ↔ ∃ i < n, Used t i ∧ (t i).key = k := by
  simp [keys_eq, and_assoc]

theorem keys_of_unused (h : ∀ i, ¬ Used t i) : keys n t = 0 :=
  Multiset.eq_zero_of_forall_notMem fun _ hk =>
    let ⟨i, _, hu, _⟩ := mem_keys.1 hk
    h i hu

/-- **An empty slot** is there when there are fewer entries than slots. -/
theorem exists_not_used_iff : (∃ e < n, ¬ Used t e) ↔ (keys n t).card < n := by
  have hle : (Finset.filter (Used t) (Finset.range n)).card ≤ n :=
    (Finset.card_filter_le _ _).trans_eq (Finset.card_range n)
  have hfull : (Finset.filter (Used t) (Finset.range n)).card = n ↔ ∀ i ∈ Finset.range n, Used t i := by
    simpa only [Finset.card_range] using Finset.card_filter_eq_iff (s := Finset.range n) (p := Used t)
  rw [keys_eq, Multiset.card_map]
  change _ ↔ (Finset.filter (Used t) (Finset.range n)).card < n
  rw [lt_iff_le_and_ne, and_iff_right hle, ne_eq, hfull]
  simp

theorem displacement_le (hhome : ∀ k, home k < n) : displacement n home t ≤ n * (n - 1) := by
  refine (Finset.sum_le_card_nsmul (Finset.range n) _ (n - 1) fun i hi => ?_).trans_eq (by simp)
  have := dist_lt (hhome (t i).key) (Finset.mem_range.1 hi)
  cases (t i).value with
  | none => exact Nat.zero_le _
  | some v =>
    exact Nat.le_sub_one_of_lt this

end Entries

/-! ### The invariant -/

/-- Every entry is where a probe for its key looks. -/
def Reached {K V : Type*} (n : ℕ) (home : K → ℕ) (t : Table K V) : Prop :=
  ∀ j < n, Used t j → ∀ x < n, InArc (home (t j).key) j x → Used t x

/-- Every stored key is where a probe for it looks, and is stored once. -/
structure Probed {K V : Type*} (n : ℕ) (home : K → ℕ) (t : Table K V) : Prop where
  reached : ∀ j < n, Used t j → ∀ x < n, InArc (home (t j).key) j x → Used t x
  distinct : ∀ i < n, ∀ j < n, Used t i → Used t j → (t i).key = (t j).key → i = j

section Operations

variable {K V : Type*} {n : ℕ} {home : K → ℕ} {t : Table K V}

theorem probed_iff : Probed n home t ↔ Reached n home t ∧ (keys n t).Nodup := by
  rw [keys_eq, Multiset.nodup_map_iff_inj_on (Finset.nodup _)]
  simp only [Finset.mem_val, Finset.mem_filter, Finset.mem_range]
  constructor
  · intro hP
    exact ⟨hP.reached, fun i ⟨hi, hui⟩ j ⟨hj, huj⟩ => hP.distinct i hi j hj hui huj⟩
  · rintro ⟨hR, hinj⟩
    exact ⟨hR, fun i hi j hj hui huj => hinj i ⟨hi, hui⟩ j ⟨hj, huj⟩⟩

/-- The first empty slot from a home on, in a table with one. -/
theorem exists_empty_from {i e : ℕ} (hi : i < n) (he : e < n) (hempty : ¬ Used t e) :
    ∃ x < n, probe n (fun i => (t i).value.isNone) n i = some x ∧ ¬ Used t x ∧
      ∀ y < n, InArc i x y → Used t y := by
  obtain ⟨x, hx, hrun, hsx, hbefore⟩ := probe_spec (fun i => (t i).value.isNone) hi he
    (not_used_iff.1 hempty) (dist_lt hi he)
  refine ⟨x, hx, hrun, not_used_iff.2 hsx, fun y hy hxy => ?_⟩
  by_contra hu
  exact absurd ((hbefore y hy hxy).symm.trans (not_used_iff.1 hu)) (by simp)

/-! ### Lookup -/

/-- Where a probe for a key ends, in a table with a slot that ends it: at an entry
with the key, or, when there is none, at an empty slot. -/
theorem Reached.find_spec [DecidableEq K] (hR : Reached n home t) (hhome : ∀ k, home k < n) {k : K}
    (hends : (∃ e < n, ¬ Used t e) ∨ k ∈ keys n t) :
    ∃ x < n, find n home t k = some x ∧ (Used t x ∧ (t x).key = k ∨ ¬ Used t x ∧ k ∉ keys n t) := by
  obtain ⟨e, he, hstop⟩ : ∃ e < n, ((t e).value.isNone || (t e).key = k) = true := by
    rcases hends with ⟨e, he, hue⟩ | hk
    · exact ⟨e, he, by simp [not_used_iff.1 hue]⟩
    · obtain ⟨j, hj, -, hkey⟩ := mem_keys.1 hk
      exact ⟨j, hj, by simp [hkey]⟩
  obtain ⟨x, hx, hrun, hstop, hbefore⟩ := probe_spec
    (fun i => (t i).value.isNone || (t i).key = k) (hhome k) he hstop (dist_lt (hhome k) he)
  refine ⟨x, hx, hrun, ?_⟩
  by_cases hux : Used t x
  · have hne : (t x).value.isNone = false := by
      rw [← Bool.not_eq_true, ← not_used_iff, not_not]
      exact hux
    exact .inl ⟨hux, by simpa [hne] using hstop⟩
  · refine .inr ⟨hux, fun hk => ?_⟩
    obtain ⟨j, hj, huj, hkey⟩ := mem_keys.1 hk
    rcases inArc_total (x := x) (y := j) (i := home k) with rfl | hxj | hjx
    · exact hux huj
    · exact hux (hR j hj huj x hx (hkey ▸ hxj))
    · exact absurd (hbefore j hj hjx) (by simp [hkey])

/-- **A lookup**, in a table with an empty slot, ends and is right. -/
theorem Probed.lookup_spec [DecidableEq K] (hP : Probed n home t) (hhome : ∀ k, home k < n)
    (hempty : ∃ e < n, ¬ Used t e) (k : K) :
    ∃ r, lookup n home t k = some r ∧ ∀ v, r = some v ↔ Stored n t k v := by
  obtain ⟨x, hx, hrun, hend⟩ := Reached.find_spec hP.reached hhome (k := k) (.inl hempty)
  refine ⟨(t x).value, by rw [lookup, hrun, Option.map_some], fun v => ?_⟩
  rcases hend with ⟨hux, hkey⟩ | ⟨hux, hk⟩
  · constructor
    · intro hv
      exact ⟨x, hx, by rw [← hkey, ← hv]⟩
    · rintro ⟨j, hj, htj⟩
      have huj : Used t j := by simp [Used, htj]
      obtain rfl := hP.distinct x hx j hj hux huj (hkey.trans (by rw [htj]))
      rw [htj]
  · constructor
    · intro hv
      exact absurd (by simp [Used, hv]) hux
    · rintro ⟨j, hj, htj⟩
      exact absurd (mem_keys.2 ⟨j, hj, by simp [Used, htj], by rw [htj]⟩) hk

/-! ### Insertion -/

/-- What an insertion does, in a table with an empty slot: the entry goes to the
first one. -/
theorem exists_insert (hhome : ∀ k, home k < n) (hempty : ∃ e < n, ¬ Used t e) (k : K) (v : V) :
    ∃ x < n, insert n home t k v = some (place t x k v) ∧ ¬ Used t x ∧
      ∀ y < n, InArc (home k) x y → Used t y := by
  obtain ⟨e, he, hue⟩ := hempty
  obtain ⟨x, hx, hrun, hux, hbefore⟩ := exists_empty_from (hhome k) he hue
  exact ⟨x, hx, by rw [insert, hrun, Option.map_some], hux, hbefore⟩

/-- **An insertion ends** when there is an empty slot, and only then. -/
theorem insert_isSome_iff (hhome : ∀ k, home k < n) {k : K} {v : V} :
    (insert n home t k v).isSome ↔ ∃ e < n, ¬ Used t e := by
  constructor
  · intro h
    obtain ⟨t', ht'⟩ := Option.isSome_iff_exists.1 h
    obtain ⟨x, hrun, -⟩ := Option.map_eq_some_iff.1 ht'
    obtain ⟨hx, hstop⟩ := probe_stops (hhome k) hrun
    exact ⟨x, hx, not_used_iff.2 hstop⟩
  · intro hempty
    obtain ⟨x, -, hrun, -⟩ := exists_insert hhome hempty k v
    rw [hrun]
    rfl

/-- **An insertion that ends** adds its entry. -/
theorem Reached.insert (hR : Reached n home t) (hhome : ∀ k, home k < n) {k : K} {v : V}
    {t' : Table K V} (hrun : LinearProbing.insert n home t k v = some t') :
    Reached n home t' ∧ entries n t' = (k, v) ::ₘ entries n t := by
  obtain ⟨x, hx, hrun', hux, hbefore⟩ :=
    exists_insert hhome ((insert_isSome_iff hhome).1 (Option.isSome_of_eq_some hrun)) k v
  obtain rfl := Option.some.inj (hrun'.symm.trans hrun)
  refine ⟨fun j hj huj y hy hjy => used_place.2 ?_, entries_place hx hux⟩
  by_cases hjx : j = x
  · subst hjx
    rw [place_self] at hjy
    exact .inr (hbefore y hy hjy)
  · rw [place_of_ne hjx] at hjy
    exact .inr (hR j hj ((used_place.1 huj).resolve_left hjx) y hy hjy)

/-- **An insertion** of a key that is not stored, into a table with an empty slot,
ends and adds the entry. -/
theorem Probed.insert_spec (hP : Probed n home t) (hhome : ∀ k, home k < n)
    (hempty : ∃ e < n, ¬ Used t e) {k : K} (hnew : ∀ v, ¬ Stored n t k v) (v : V) :
    ∃ t', insert n home t k v = some t' ∧ Probed n home t' ∧
      ∀ k' v', Stored n t' k' v' ↔ k' = k ∧ v' = v ∨ Stored n t k' v' := by
  obtain ⟨hR, hnd⟩ := probed_iff.1 hP
  obtain ⟨t', hrun⟩ := Option.isSome_iff_exists.1 ((insert_isSome_iff (v := v) hhome (k := k)).2 hempty)
  obtain ⟨hR', hent⟩ := hR.insert hhome hrun
  refine ⟨t', hrun, probed_iff.2 ⟨hR', ?_⟩, fun k' v' => ?_⟩
  · rw [keys, hent, Multiset.map_cons]
    refine Multiset.nodup_cons.2 ⟨fun hk => ?_, hnd⟩
    obtain ⟨⟨k', v'⟩, hmem, rfl⟩ := Multiset.mem_map.1 hk
    exact hnew v' (mem_entries.1 hmem)
  · rw [← mem_entries, hent, Multiset.mem_cons, Prod.mk.injEq, mem_entries]

/-! ### Deletion -/

/-- The walk of a deletion has come to `i`: the entries up to the next empty slot
`e` are still to be looked at, and the others are where a probe looks. -/
structure Walk (n : ℕ) (home : K → ℕ) (e i : ℕ) (t : Table K V) : Prop where
  stop : e < n
  here : i < n
  empty : ¬ Used t e
  ahead : ∀ x < n, InArc i e x → Used t x
  settled : ∀ j < n, Used t j → ¬ InArc i e j → ∀ x < n, InArc (home (t j).key) j x → Used t x

/-- The walk starts behind the emptied slot. -/
theorem Reached.walk (hR : Reached n home t) {i : ℕ} (hi : i < n) :
    ∃ e, Walk n home e (next n i) (clear t i) := by
  have hui : ¬ Used (clear t i) i := fun h => (used_clear.1 h).1 rfl
  obtain ⟨e, he, -, hue, hbefore⟩ := exists_empty_from (next_lt hi) hi hui
  refine ⟨e, he, next_lt hi, hue, hbefore, fun j hj huj hje x hx hjx => ?_⟩
  obtain ⟨hji, huj'⟩ := used_clear.1 huj
  rw [clear_of_ne hji] at hjx
  refine used_clear.2 ⟨fun hxi => ?_, hR j hj huj' x hx hjx⟩
  subst hxi
  by_cases hxe : x = e
  · subst hxe
    rw [next_eq hi] at hje
    unfold InArc at hje
    split at hje <;> omega
  · -- a path over the emptied slot would go on over the end of the walk
    have hue' : ¬ Used t e := fun h => hue (used_clear.2 ⟨Ne.symm hxe, h⟩)
    have hje' : j ≠ e := fun h => hue' (h ▸ huj')
    have hjarc : ¬ InArc x e j := fun h => hje ((inArc_next_iff hi he hj hxe).2 ⟨hji, h⟩)
    exact hue' (hR j hj huj' e he (hjx.past hxe hje' hjarc))

/-- **One step of the walk**: the entry at `i` is put where a probe looks. -/
theorem Walk.step {e i p : ℕ} {v : V} (hW : Walk n home e i t) (hie : i ≠ e) (hp : p < n)
    (hup : ¬ Used (clear t i) p)
    (hbefore : ∀ y < n, InArc (home (t i).key) p y → Used (clear t i) y) :
    ∃ e', Walk n home e' (next n i) (place (clear t i) p (t i).key v) ∧ (p = i → e' = e) := by
  have hused : ∀ x, Used (place (clear t i) p (t i).key v) x ↔ x = p ∨ x ≠ i ∧ Used t x := fun x => by
    rw [used_place, used_clear]
  have hnext := next_lt hW.here
  have hempty : ∃ w < n, ¬ Used (place (clear t i) p (t i).key v) w := by
    by_cases hpi : p = i
    · exact ⟨e, hW.stop, fun h => ((hused e).1 h).elim (fun h => hie (hpi ▸ h.symm)) fun h => hW.empty h.2⟩
    · exact ⟨i, hW.here, fun h => ((hused i).1 h).elim (fun h => hpi h.symm) fun h => h.1 rfl⟩
  obtain ⟨w, hw, huw⟩ := hempty
  obtain ⟨e', he', -, hue', hahead'⟩ := exists_empty_from hnext hw huw
  -- the walk now ends at `e` or behind it
  have hlater : ∀ x < n, InArc (next n i) e x → Used (place (clear t i) p (t i).key v) x := fun x hx h => by
    obtain ⟨hxi, h⟩ := (inArc_next_iff hW.here hW.stop hx hie).1 h
    exact (hused x).2 (.inr ⟨hxi, hW.ahead x hx h⟩)
  refine ⟨e', ⟨he', hnext, hue', hahead', fun j hj huj hje x hx hjx => ?_⟩, fun hpi => ?_⟩
  · by_cases hjp : j = p
    · subst hjp
      rw [place_self] at hjx
      exact used_place.2 (.inr (hbefore x hx hjx))
    · obtain ⟨hji, huj'⟩ := ((hused j).1 huj).resolve_left hjp
      rw [place_of_ne hjp, clear_of_ne hji] at hjx
      have hje' : j ≠ e := fun h => hW.empty (h ▸ huj')
      have hjarc : ¬ InArc i e j := fun h => by
        have hjn := (inArc_next_iff hW.here hW.stop hj hie).2 ⟨hji, h⟩
        refine hue' (hlater e' he' ?_)
        rcases inArc_total (x := e') (y := j) (i := next n i) with hej | hej | hej
        · exact absurd (hej ▸ huj) hue'
        · exact hej.trans hjn
        · exact absurd hej hje
      refine (hused x).2 (.inr ⟨fun hxi => ?_, hW.settled j hj huj' hjarc x hx hjx⟩)
      -- a path over the emptied slot would go on over the end of the walk
      subst hxi
      exact hW.empty (hW.settled j hj huj' hjarc e hW.stop (hjx.past hie hje' hjarc))
  · rcases inArc_total (x := e') (y := e) (i := next n i) with h | h | h
    · exact h
    · exact absurd (hlater e' he' h) hue'
    · exact ((hused e).1 (hahead' e hW.stop h)).elim (fun h => absurd (hpi ▸ h.symm) hie)
        fun h => absurd h.2 hW.empty

/-- **The walk of a deletion ends**, with every entry where a probe looks. -/
theorem Walk.run (hhome : ∀ k, home k < n) {e i steps : ℕ} (hW : Walk n home e i t)
    (hsteps : displacement n home t * n + dist n i e < steps) :
    ∃ t', rehash n home steps i t = some t' ∧ Reached n home t' ∧ entries n t' = entries n t := by
  induction steps generalizing i e t with
  | zero => exact absurd hsteps (Nat.not_lt_zero _)
  | succ steps ih =>
    rw [rehash]
    cases hv : (t i).value with
    | none =>
      obtain rfl : i = e := by
        by_contra hie
        exact absurd (hW.ahead i hW.here (inArc_start hie)) (by simp [Used, hv])
      exact ⟨t, rfl, fun j hj huj => hW.settled j hj huj not_inArc_self, rfl⟩
    | some v =>
      have hie : i ≠ e := fun h => hW.empty (h ▸ (by simp [Used, hv]))
      have hui : ¬ Used (clear t i) i := fun h => (used_clear.1 h).1 rfl
      have hnear := dist_next hW.here hW.stop hie
      obtain ⟨p, hp, hrun, hup, hbefore⟩ := exists_insert hhome ⟨i, hW.here, hui⟩ (t i).key v
      obtain ⟨e', hW', hsame⟩ := hW.step (v := v) hie hp hup hbefore
      have hent : entries n (place (clear t i) p (t i).key v) = entries n t := by
        rw [entries_place hp hup, ← entries_clear hW.here hv]
      have hdisp : displacement n home (place (clear t i) p (t i).key v) + dist n (home (t i).key) i =
          displacement n home t + dist n (home (t i).key) p := by
        have h₁ := total_place (f := fun i k _ => dist n (home k) i) hp hup (k := (t i).key) (v := v)
        have h₂ := total_clear (f := fun i k _ => dist n (home k) i) hW.here hv
        simp only [displacement]
        omega
      simp only [hrun]
      rw [← hent]
      refine ih hW' ?_
      by_cases hpi : p = i
      · -- the entry stays: the end of the walk is one step nearer
        obtain rfl := hsame hpi
        subst hpi
        have hd : displacement n home (place (clear t p) p (t p).key v) = displacement n home t := by
          omega
        rw [hd]
        omega
      · -- the entry moves towards its home
        have hlt := dist_lt_dist (hhome (t i).key) hp hpi fun h => hui (hbefore i hW.here h)
        have hround := dist_lt hW'.here hW'.stop
        have hmul : (displacement n home (place (clear t i) p (t i).key v) + 1) * n ≤
            displacement n home t * n := Nat.mul_le_mul_right n (by omega)
        rw [Nat.add_mul, Nat.one_mul] at hmul
        omega

/-- **A deletion** of a key that is stored ends, and takes one of its entries out. -/
theorem Reached.remove [DecidableEq K] (hR : Reached n home t) (hhome : ∀ k, home k < n) {k : K}
    (hk : k ∈ keys n t) : ∃ t' v, LinearProbing.remove n home t k = some t' ∧ Reached n home t' ∧
      entries n t = (k, v) ::ₘ entries n t' := by
  obtain ⟨x, hx, hrun, hend⟩ := hR.find_spec hhome (.inr hk)
  obtain ⟨hux, hkey⟩ := hend.resolve_right fun h => h.2 hk
  obtain ⟨v, hv⟩ := hux.exists_value
  obtain ⟨e, hW⟩ := hR.walk hx
  have hsteps : displacement n home (clear t x) * n + dist n (next n x) e < rehashSteps n := by
    have hle := Nat.mul_le_mul_right n (displacement_le (t := clear t x) hhome)
    have hround := dist_lt hW.here hW.stop
    have hn : n * n * n = n * (n - 1) * n + n * n := by
      obtain ⟨m, rfl⟩ : ∃ m, n = m + 1 := ⟨n - 1, by omega⟩
      rw [Nat.add_sub_cancel]
      ring
    have hsq : n ≤ n * n := Nat.le_mul_self n
    rw [rehashSteps]
    omega
  obtain ⟨t', hrun', hR', hent⟩ := hW.run hhome hsteps
  refine ⟨t', v, ?_, hR', ?_⟩
  · rw [LinearProbing.remove, hrun]
    simp only [hv, Option.isNone_some, Bool.false_eq_true, if_false, hrun']
  · rw [hent, entries_clear hx hv, hkey]

/-- A deletion of a key that is not stored changes nothing. -/
theorem Reached.remove_of_notMem [DecidableEq K] (hR : Reached n home t) (hhome : ∀ k, home k < n)
    (hempty : ∃ e < n, ¬ Used t e) {k : K} (hk : k ∉ keys n t) :
    LinearProbing.remove n home t k = some t := by
  obtain ⟨x, hx, hrun, hend⟩ := hR.find_spec hhome (k := k) (.inl hempty)
  have hux : ¬ Used t x := (hend.resolve_left fun h => hk (mem_keys.2 ⟨x, hx, h⟩)).1
  rw [LinearProbing.remove, hrun]
  simp only [not_used_iff.1 hux, if_true]

/-- **A deletion**, in a table with an empty slot, ends and takes the key out. -/
theorem Probed.remove_spec [DecidableEq K] (hP : Probed n home t) (hhome : ∀ k, home k < n)
    (hempty : ∃ e < n, ¬ Used t e) (k : K) :
    ∃ t', remove n home t k = some t' ∧ Probed n home t' ∧
      ∀ k' v', Stored n t' k' v' ↔ k' ≠ k ∧ Stored n t k' v' := by
  obtain ⟨hR, hnd⟩ := probed_iff.1 hP
  by_cases hk : k ∈ keys n t
  · obtain ⟨t', v, hrun, hR', hent⟩ := hR.remove hhome hk
    rw [keys, hent, Multiset.map_cons] at hnd
    obtain ⟨hnew, hnd'⟩ := Multiset.nodup_cons.1 hnd
    refine ⟨t', hrun, probed_iff.2 ⟨hR', hnd'⟩, fun k' v' => ?_⟩
    rw [← mem_entries, ← mem_entries, hent, Multiset.mem_cons, Prod.mk.injEq]
    constructor
    · intro h
      refine ⟨?_, .inr h⟩
      rintro rfl
      exact hnew (Multiset.mem_map.2 ⟨_, h, rfl⟩)
    · rintro ⟨hne, ⟨rfl, -⟩ | h⟩
      · exact absurd rfl hne
      · exact h
  · refine ⟨t, hR.remove_of_notMem hhome hempty hk, hP, fun k' v' => ⟨fun h => ⟨?_, h⟩, fun h => h.2⟩⟩
    rintro rfl
    exact hk (Multiset.mem_map_of_mem Prod.fst (mem_entries.2 h))

/-- A table that stores fewer entries than it has slots has an empty one. -/
theorem Probed.exists_empty (hP : Probed n home t) {l : List K} (hl : l.length < n)
    (hmem : ∀ k v, Stored n t k v → k ∈ l) : ∃ e < n, ¬ Used t e := by
  have hsub : keys n t ≤ (l : Multiset K) :=
    (Multiset.le_iff_subset (probed_iff.1 hP).2).2 fun k hk => by
      obtain ⟨⟨k', v⟩, he, rfl⟩ := Multiset.mem_map.1 hk
      exact Multiset.mem_coe.2 (hmem k' v (mem_entries.1 he))
  exact exists_not_used_iff.2 ((Multiset.card_le_card hsub).trans_lt hl)

/-- A table without values satisfies the invariant. -/
theorem probed_of_unused (h : ∀ i, ¬ Used t i) : Probed n home t :=
  ⟨fun j _ hu => absurd hu (h j), fun i _ _ _ hu => absurd hu (h i)⟩

end Operations

end LinearProbing
