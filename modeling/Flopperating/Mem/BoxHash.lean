/-
# The box hash table

`box_hash_insert`, `box_hash_remove` and `box_hash_lookup` of `src/mem/alloc.c`:
a table of `BOX_HASH_SIZE` slots with linear probing, from the id of a box to
the box.  Its loops are those of `LinearProbing`, with `(idx + 1) &
BOX_HASH_MASK` as the next slot; a loop that never ends is `none`.  A `NULL`
value is an empty slot, whatever its key.

`boxHash_correct` is the correctness of the table over whole runs: it is a
finite map as long as it is not full.
-/

import Flopperating.Data.LinearProbing
import Flopperating.Data.Transition
import Flopperating.Machine

namespace Flopperating

open LinearProbing Transition

/-- `BOX_HASH_SIZE`. -/
abbrev boxHashSize : ℕ := 256

/-- `BOX_HASH_MASK`. -/
def boxHashMask : ℕ := boxHashSize - 1

/-- `box_hash_resolve_index`. -/
def boxHashResolveIndex (id : ℕ) : ℕ := u32 (id * 2654435761) &&& boxHashMask

/-- `box_hash`: the key of an entry is an id, its value the address of a box. -/
abbrev BoxHash := Table ℕ ℕ

/-- `box_hash` before the first insertion: a zero-initialised global. -/
def boxHashZero : BoxHash := fun _ => ⟨0, none⟩

/-- `box_hash_insert`. -/
def boxHashInsert (id box : ℕ) (t : BoxHash) : Option BoxHash :=
  insert boxHashSize boxHashResolveIndex t id box

/-- `box_hash_remove`. -/
def boxHashRemove (id : ℕ) (t : BoxHash) : Option BoxHash :=
  remove boxHashSize boxHashResolveIndex t id

/-- `box_hash_lookup`. -/
def boxHashLookup (id : ℕ) (t : BoxHash) : Option (Option ℕ) :=
  lookup boxHashSize boxHashResolveIndex t id

/-- Masking is going round. -/
theorem and_boxHashMask (x : ℕ) : x &&& boxHashMask = x % boxHashSize :=
  Nat.and_two_pow_sub_one_eq_mod x 8

theorem boxHashResolveIndex_lt (id : ℕ) : boxHashResolveIndex id < boxHashSize := by
  rw [boxHashResolveIndex, and_boxHashMask]
  exact Nat.mod_lt _ (by decide)

/-! ### Runs -/

/-- The table and the boxes stored in it, by id, latest first. -/
structure BoxHashSystem where
  table : BoxHash
  stored : List (ℕ × ℕ)

/-- A call that changes the table. -/
inductive BoxHashOp
  | insert (id box : ℕ)
  | remove (id : ℕ)

/-- An insertion is of an id that is not stored, and leaves an empty slot. -/
def BoxHashOp.Allowed (stored : List (ℕ × ℕ)) : BoxHashOp → Prop
  | .insert id _ => id ∉ stored.map Prod.fst ∧ stored.length + 1 < boxHashSize
  | .remove _ => True

instance (stored : List (ℕ × ℕ)) : DecidablePred (BoxHashOp.Allowed stored)
  | .insert _ _ => inferInstanceAs (Decidable (_ ∧ _))
  | .remove _ => inferInstanceAs (Decidable True)

/-- One call. -/
def BoxHashOp.run (op : BoxHashOp) (σ : BoxHashSystem) : Option BoxHashSystem :=
  if op.Allowed σ.stored then
    match op with
    | .insert id box => (boxHashInsert id box σ.table).map fun t => ⟨t, (id, box) :: σ.stored⟩
    | .remove id => (boxHashRemove id σ.table).map fun t =>
        ⟨t, σ.stored.filter fun x => x.1 ≠ id⟩
  else none

/-- The step relation of the calls. -/
def boxHashStep (σ : BoxHashSystem) (op : BoxHashOp) (σ' : BoxHashSystem) : Prop :=
  op.run σ = some σ'

/-- The table finds what is stored, and every call returns. -/
structure BoxHashCorrect (σ : BoxHashSystem) : Prop where
  lookup : ∀ id, boxHashLookup id σ.table = some (σ.stored.lookup id)
  returns : ∀ op : BoxHashOp, op.Allowed σ.stored → (op.run σ).isSome

/-- The invariant of a run. -/
structure BoxHashInv (σ : BoxHashSystem) : Prop where
  probed : Probed boxHashSize boxHashResolveIndex σ.table
  stored : ∀ id box, Stored boxHashSize σ.table id box ↔ (id, box) ∈ σ.stored
  ids : (σ.stored.map Prod.fst).Nodup
  small : σ.stored.length < boxHashSize

/-- With distinct keys a list of pairs is looked up by membership. -/
theorem lookup_eq_some_iff_mem {α β : Type*} [DecidableEq α] {l : List (α × β)}
    (h : (l.map Prod.fst).Nodup) {a : α} {b : β} : l.lookup a = some b ↔ (a, b) ∈ l := by
  induction l with
  | nil => simp
  | cons x l ih =>
    obtain ⟨c, d⟩ := x
    obtain ⟨hc, hl⟩ := List.nodup_cons.1 h
    rw [List.lookup_cons, List.mem_cons, Prod.mk.injEq]
    by_cases hac : a = c
    · subst hac
      have hnot : (a, b) ∉ l := fun hm => hc (List.mem_map.2 ⟨_, hm, rfl⟩)
      simp [hnot, eq_comm]
    · have hne : (a == c) = false := by simpa using hac
      rw [hne]
      simp [hac, ih hl]

namespace BoxHashInv

variable {σ σ' : BoxHashSystem}

theorem exists_empty (hI : BoxHashInv σ) : ∃ e < boxHashSize, ¬ Used σ.table e :=
  hI.probed.exists_empty (l := σ.stored.map Prod.fst) (by rw [List.length_map]; exact hI.small)
    fun id box h => List.mem_map_of_mem (f := Prod.fst) ((hI.stored id box).1 h)

/-- **Every call returns** and keeps the invariant. -/
theorem run (hI : BoxHashInv σ) {op : BoxHashOp} (hop : op.Allowed σ.stored) :
    ∃ σ', op.run σ = some σ' ∧ BoxHashInv σ' := by
  cases op with
  | insert id box =>
    have hnew : ∀ box', ¬ Stored boxHashSize σ.table id box' := fun box' h =>
      hop.1 (List.mem_map_of_mem (f := Prod.fst) ((hI.stored id box').1 h))
    obtain ⟨t, hrun, hP, hst⟩ :=
      hI.probed.insert_spec boxHashResolveIndex_lt hI.exists_empty hnew box
    refine ⟨⟨t, (id, box) :: σ.stored⟩, ?_, hP, fun id' box' => ?_,
      List.nodup_cons.2 ⟨hop.1, hI.ids⟩, hop.2⟩
    · rw [BoxHashOp.run, if_pos hop, boxHashInsert, hrun, Option.map_some]
    · rw [hst, hI.stored, List.mem_cons, Prod.mk.injEq]
  | remove id =>
    obtain ⟨t, hrun, hP, hst⟩ :=
      hI.probed.remove_spec boxHashResolveIndex_lt hI.exists_empty id
    refine ⟨⟨t, σ.stored.filter fun x => x.1 ≠ id⟩, ?_, hP, fun id' box' => ?_,
      hI.ids.sublist (List.filter_sublist.map _),
      (List.length_filter_le _ _).trans_lt hI.small⟩
    · rw [BoxHashOp.run, if_pos hop, boxHashRemove, hrun, Option.map_some]
    · rw [hst, hI.stored, List.mem_filter, decide_eq_true_eq, and_comm]

theorem correct (hI : BoxHashInv σ) : BoxHashCorrect σ := by
  refine ⟨fun id => ?_, fun op hop => ?_⟩
  · obtain ⟨r, hrun, hr⟩ := hI.probed.lookup_spec boxHashResolveIndex_lt hI.exists_empty id
    rw [boxHashLookup, hrun, Option.some.injEq]
    refine Option.ext fun box => ?_
    rw [hr, hI.stored, lookup_eq_some_iff_mem hI.ids]
  · obtain ⟨σ', hrun, -⟩ := hI.run hop
    rw [hrun, Option.isSome_some]

theorem step (hI : BoxHashInv σ) {op : BoxHashOp} (hstep : boxHashStep σ op σ') :
    BoxHashInv σ' := by
  by_cases hop : op.Allowed σ.stored
  · obtain ⟨τ, hrun, hI'⟩ := hI.run hop
    obtain rfl := Option.some.inj (hrun.symm.trans hstep)
    exact hI'
  · unfold boxHashStep BoxHashOp.run at hstep
    rw [if_neg hop] at hstep
    exact absurd hstep (by simp)

theorem init : BoxHashInv ⟨boxHashZero, []⟩ :=
  ⟨probed_of_unused fun _ h => absurd h (by simp [Used, boxHashZero]),
    fun id box => by simp [Stored, boxHashZero], List.nodup_nil, by decide⟩

end BoxHashInv

/-- **The box hash table is a finite map**, over every run of insertions and
removals that keeps it from filling up. -/
theorem boxHash_correct {σ : BoxHashSystem}
    (hr : Reach (fun σ => σ = ⟨boxHashZero, []⟩) boxHashStep σ) : BoxHashCorrect σ := by
  have hI : BoxHashInv σ := hr.invariant (P := BoxHashInv)
    (fun σ hσ => by rw [hσ]; exact BoxHashInv.init) fun σ op σ' _ hI hstep => hI.step hstep
  exact hI.correct

/-- Three ids with the last slot as their home, of which the first is removed. -/
theorem boxHash_correct_wrap : ∃ σ, σ.stored = [(687, 0x3000), (431, 0x2000)] ∧
    σ.table 255 = ⟨431, some 0x2000⟩ ∧ BoxHashCorrect σ := by
  have hrun : ([.insert 175 0x1000, .insert 431 0x2000, .insert 687 0x3000, .remove 175].foldlM
      (fun σ (op : BoxHashOp) => op.run σ) (⟨boxHashZero, []⟩ : BoxHashSystem)).map
        (fun σ => (σ.stored, (σ.table 255).key, (σ.table 255).value)) =
      some ([(687, 0x3000), (431, 0x2000)], 431, some 0x2000) := by decide
  obtain ⟨σ, hσ, he⟩ := Option.map_eq_some_iff.1 hrun
  obtain ⟨hst, he⟩ := Prod.mk.inj he
  obtain ⟨hkey, hval⟩ := Prod.mk.inj he
  refine ⟨σ, hst, ?_, boxHash_correct (Reach.of_foldlM (.init rfl) hσ)⟩
  rw [← hkey, ← hval]

end Flopperating
