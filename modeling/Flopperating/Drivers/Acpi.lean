/-
# The ACPI tables

`acpi_init` of `src/drivers/acpi/acpi.c`, with the two functions that walk over a table.

| source | here |
| --- | --- |
| a pointer to a table | its address |
| `sdt_t`, `rsdp_t`, `fadt_t`, all packed | words and bytes at offsets |
| `acpi_find_rsdp()` | `rsdp`, any address or `none` |
| `g_fadt`, `g_slp_typa`, `g_slp_typb` | `Acpi` |
| the log "cpu online" | `Acpi.online`, how often it is made |
| a loop that goes on | `none`, when the rounds it may go are used up |

Each walk returns the addresses it reads besides its result.  The entries of a MADT are a linked
list, in which the length of an entry is the link to the next one (`entryNext`).  The walk ends
inside the table when no entry leads back to itself, as one of length 0 does, and what is read of
each entry lies in the table (`MadtSound`).  The search for `_S5` ends always; it stays inside the
table when that has at least 40 bytes and each `_S5` with a package operator behind it lies in it as
far as it is read (`DsdtSound`).  `acpi_init` asks for the checksum, but not for that
(`acpiInit_walksInside_iff`).
-/

import Flopperating.Data.ByteMemory
import Flopperating.Data.LinkedList
import Flopperating.Machine
import Mathlib.Data.List.Perm.Subperm

namespace Flopperating

open ByteMemory LinkedList

/-! ### Tables -/

/-- `sizeof(sdt_t)` -/
abbrev sizeofSdt : ℕ := 36

/-- `t->sig` -/
def sdtSig (m : Memory) (t : ℕ) : ℕ := readWord m t

/-- `t->length` -/
def sdtLength (m : Memory) (t : ℕ) : ℕ := readWord m (t + 4)

abbrev acpiSigFadt : ℕ := 0x50434146
abbrev acpiSigApic : ℕ := 0x43495041
abbrev acpiMadtTypeLapic : BitVec 8 := 0
abbrev acpiPm1SlpTypShift : ℕ := 10

/-- The sum of the first `len` bytes. -/
def acpiSum (m : Memory) (p : ℕ) : ℕ → BitVec 8
  | 0 => 0
  | len + 1 => acpiSum m p len + m (p + len)

/-- `acpi_checksum`. -/
def AcpiChecksum (m : Memory) (p len : ℕ) : Prop := acpiSum m p len = 0

instance (m : Memory) (p len : ℕ) : Decidable (AcpiChecksum m p len) := inferInstanceAs (Decidable (_ = _))

/-- The addresses of the word at `a`. -/
def wordAt (a : ℕ) : List ℕ := [a, a + 1, a + 2, a + 3]

/-! ### The MADT -/

/-- The length byte of the entry at `ptr`. -/
def entryLength (m : Memory) (ptr : ℕ) : ℕ := (m (u32 (ptr + 1))).toNat

/-- The addresses that are read of an entry. -/
def entryReads (m : Memory) (ptr : ℕ) : List ℕ :=
  [ptr, u32 (ptr + 1)] ++ if m ptr = acpiMadtTypeLapic then wordAt (u32 (ptr + 4)) else []

/-- The entry is a processor that is enabled. -/
def EntryOnline (m : Memory) (ptr : ℕ) : Prop :=
  m ptr = acpiMadtTypeLapic ∧ readWord m (u32 (ptr + 4)) % 2 = 1

instance (m : Memory) (ptr : ℕ) : Decidable (EntryOnline m ptr) := inferInstanceAs (Decidable (_ ∧ _))

/-- The loop of `acpi_parse_madt`: how many processors are online, and what is read. -/
def acpiParseMadtFrom (m : Memory) (stop : ℕ) : ℕ → ℕ → Option (ℕ × List ℕ)
  | 0, ptr => if ptr < stop then none else some (0, [])
  | n + 1, ptr =>
    if ptr < stop then
      (acpiParseMadtFrom m stop n (u32 (ptr + entryLength m ptr))).map fun r =>
        ((if EntryOnline m ptr then 1 else 0) + r.1, entryReads m ptr ++ r.2)
    else some (0, [])

/-- `acpi_parse_madt`. -/
def acpiParseMadt (fuel : ℕ) (m : Memory) (madt : ℕ) : Option (ℕ × List ℕ) :=
  (acpiParseMadtFrom m (u32 (madt + sdtLength m madt)) fuel (u32 (madt + sizeofSdt + 8))).map fun r =>
    (r.1, wordAt (madt + 4) ++ r.2)

/-! ### The DSDT -/

/-- The loop of `acpi_parse_s5`, `n` rounds from the `i`-th on: the two values, if it finds them, and
what is read. -/
def acpiParseS5From (m : Memory) (dsdt : ℕ) : ℕ → ℕ → Option (ℕ × ℕ) × List ℕ
  | 0, _ => (none, [])
  | n + 1, i =>
    let rest := acpiParseS5From m dsdt n (i + 1)
    let p := dsdt + i + 4
    if readWord m (dsdt + i) = 0x35535F then
      if m p = 0x12 then
        if 2 ≤ (m (p + 2)).toNat then
          (some ((m (p + 4)).toNat * 2 ^ acpiPm1SlpTypShift % 2 ^ 16,
            (m (p + 6)).toNat * 2 ^ acpiPm1SlpTypShift % 2 ^ 16),
            wordAt (dsdt + i) ++ [p, p + 2, p + 4, p + 6])
        else (rest.1, wordAt (dsdt + i) ++ [p, p + 2] ++ rest.2)
      else (rest.1, wordAt (dsdt + i) ++ [p] ++ rest.2)
    else (rest.1, wordAt (dsdt + i) ++ rest.2)

/-- `acpi_parse_s5`. -/
def acpiParseS5 (m : Memory) (dsdt len : ℕ) : Option (ℕ × ℕ) × List ℕ :=
  acpiParseS5From m dsdt (u32 (2 ^ 32 - 4 + len)) 0

/-! ### `acpi_init` -/

/-- The variables of the file, and the number of processors that were logged. -/
structure Acpi where
  /-- `NULL` is `0`. -/
  gFadt : ℕ
  gSlpTypa : ℕ
  gSlpTypb : ℕ
  online : ℕ

/-- A table, and what was read when it was walked over. -/
structure AcpiWalk where
  table : ℕ
  reads : List ℕ

/-- `rsdp->revision >= 2 && rsdp->xsdt` -/
def HasXsdt (m : Memory) (rsdp : ℕ) : Prop :=
  2 ≤ (m (rsdp + 9)).toNat ∧ ¬ (readWord m (rsdp + 18) = 0 ∧ readWord m (rsdp + 22) = 0)

instance (m : Memory) (rsdp : ℕ) : Decidable (HasXsdt m rsdp) := inferInstanceAs (Decidable (_ ∧ _))

/-- The entries of the root table, each of `size` bytes, as pointers. -/
def rootEntries (m : Memory) (root size : ℕ) : List ℕ :=
  (List.range (u32 (2 ^ 32 - sizeofSdt + sdtLength m root) / size)).map fun i =>
    readWord m (u32 (root + sizeofSdt) + size * i)

/-- The tables that `acpi_init` goes over. -/
def rootTables (m : Memory) (rsdp : ℕ) : List ℕ :=
  if HasXsdt m rsdp then rootEntries m (readWord m (rsdp + 18)) 8
  else rootEntries m (readWord m (rsdp + 10)) 4

/-- A round of the loop of `acpi_init`. -/
def acpiTable (fuel : ℕ) (m : Memory) (s : Acpi × List AcpiWalk) (t : ℕ) : Option (Acpi × List AcpiWalk) :=
  if AcpiChecksum m t (sdtLength m t) then
    let σ := if sdtSig m t = acpiSigFadt then { s.1 with gFadt := t } else s.1
    if sdtSig m t = acpiSigApic then
      (acpiParseMadt fuel m t).map fun r => ({ σ with online := σ.online + r.1 }, s.2 ++ [⟨t, r.2⟩])
    else some (σ, s.2)
  else some s

/-- `acpi_init` behind the loop. -/
def acpiInitDsdt (m : Memory) (s : Acpi × List AcpiWalk) : ℤ × Acpi × List AcpiWalk :=
  if s.1.gFadt = 0 then (-1, s)
  else
    let dsdt := readWord m (s.1.gFadt + 40)
    if AcpiChecksum m dsdt (sdtLength m dsdt) then
      let r := acpiParseS5 m (dsdt + sizeofSdt) (u32 (2 ^ 32 - sizeofSdt + sdtLength m dsdt))
      let σ := match r.1 with
        | some (typa, typb) => { s.1 with gSlpTypa := typa, gSlpTypb := typb }
        | none => s.1
      (0, σ, s.2 ++ [⟨dsdt, r.2⟩])
    else (-1, s)

/-- `acpi_init`, with the tables it walks over. -/
def acpiInit (fuel : ℕ) (m : Memory) (rsdp : Option ℕ) (σ : Acpi) : Option (ℤ × Acpi × List AcpiWalk) :=
  match rsdp with
  | none => some (-1, σ, [])
  | some rsdp => ((rootTables m rsdp).foldlM (acpiTable fuel m) (σ, [])).map (acpiInitDsdt m)

/-! ### What tables are like -/

/-- What is read of the table at `t` lies in it. -/
def ReadsInside (m : Memory) (t : ℕ) (reads : List ℕ) : Prop := ∀ a ∈ reads, t ≤ a ∧ a < t + sdtLength m t

/-- `acpi_init` ends, and its walks stay inside the tables. -/
def WalksInside (m : Memory) (rsdp : Option ℕ) (σ : Acpi) : Prop :=
  ∃ fuel r, acpiInit fuel m rsdp σ = some r ∧ ∀ w ∈ r.2.2, ReadsInside m w.table w.reads

/-- An entry before the end. -/
def entryAt (stop ptr : ℕ) : Option ℕ := if ptr < stop then some ptr else none

/-- The entry that comes after the one at `ptr`, by its length. -/
def entryNext (m : Memory) (stop ptr : ℕ) : Option ℕ := entryAt stop (u32 (ptr + entryLength m ptr))

/-- There is an entry of the MADT at `ptr`. -/
def MadtEntry (m : Memory) (madt ptr : ℕ) : Prop :=
  Linked (entryNext m (u32 (madt + sdtLength m madt)))
    (entryAt (u32 (madt + sdtLength m madt)) (u32 (madt + sizeofSdt + 8))) ptr

/-- What is read of the entry lies in the table. -/
structure EntryFits (m : Memory) (madt ptr : ℕ) : Prop where
  le : madt ≤ ptr
  length : madt ≤ u32 (ptr + 1) ∧ u32 (ptr + 1) < madt + sdtLength m madt
  flags : m ptr = acpiMadtTypeLapic → madt ≤ u32 (ptr + 4) ∧ u32 (ptr + 4) + 4 ≤ madt + sdtLength m madt

/-- The table has its length in it, no entry leads back to itself, and all are in it. -/
structure MadtSound (m : Memory) (madt : ℕ) : Prop where
  header : 8 ≤ sdtLength m madt
  entries : ∀ ptr, MadtEntry m madt ptr →
    ¬ Linked (entryNext m (u32 (madt + sdtLength m madt))) (entryNext m (u32 (madt + sdtLength m madt)) ptr) ptr ∧
      EntryFits m madt ptr

/-- `_S5` and a package operator are at the offset `o` of the table. -/
def S5At (m : Memory) (dsdt o : ℕ) : Prop := readWord m (dsdt + o) = 0x35535F ∧ m (dsdt + o + 4) = 0x12

/-- The package has the two values. -/
def S5Complete (m : Memory) (dsdt o : ℕ) : Prop := S5At m dsdt o ∧ 2 ≤ (m (dsdt + o + 6)).toNat

/-- The table has the header and a word more, and each `_S5`, up to the first complete one, lies in it. -/
structure DsdtSound (m : Memory) (dsdt : ℕ) : Prop where
  header : 40 ≤ sdtLength m dsdt
  packages : ∀ o, sizeofSdt ≤ o → o + 4 < sdtLength m dsdt → S5At m dsdt o →
    (∀ o', sizeofSdt ≤ o' → o' < o → ¬ S5Complete m dsdt o') →
    o + 6 < sdtLength m dsdt ∧ (S5Complete m dsdt o → o + 10 < sdtLength m dsdt)

variable {m : Memory} {madt dsdt t ptr stop fuel n i a : ℕ} {σ : Acpi} {reads reads' : List ℕ}

theorem readsInside_append :
    ReadsInside m t (reads ++ reads') ↔ ReadsInside m t reads ∧ ReadsInside m t reads' :=
  List.forall_mem_append

theorem readsInside_cons : ReadsInside m t (a :: reads) ↔ (t ≤ a ∧ a < t + sdtLength m t) ∧ ReadsInside m t reads :=
  List.forall_mem_cons

theorem readsInside_nil : ReadsInside m t [] := fun _ ha => absurd ha List.not_mem_nil

theorem readsInside_wordAt : ReadsInside m t (wordAt a) ↔ t ≤ a ∧ a + 4 ≤ t + sdtLength m t := by
  simp only [wordAt, readsInside_cons, readsInside_nil, and_true]
  omega

/-! ### The walk over the MADT -/

/-- The loop walks over the list of the entries. -/
theorem acpiParseMadtFrom_eq (n ptr : ℕ) :
    acpiParseMadtFrom m stop n ptr = (walk (entryNext m stop) n (entryAt stop ptr)).map fun l =>
      (l.countP fun p => decide (EntryOnline m p), l.flatMap (entryReads m)) := by
  induction n generalizing ptr with
  | zero =>
    rw [acpiParseMadtFrom, entryAt]
    by_cases hptr : ptr < stop
    · rw [if_pos hptr, if_pos hptr]
      rfl
    · rw [if_neg hptr, if_neg hptr]
      rfl
  | succ n ih =>
    rw [acpiParseMadtFrom]
    by_cases hptr : ptr < stop
    · have hentry : entryAt stop ptr = some ptr := if_pos hptr
      rw [if_pos hptr, ih, hentry, walk, Option.map_map, Option.map_map]
      change Option.map _ (walk (entryNext m stop) n (entryNext m stop ptr)) = _
      congr 1
      funext l
      refine Prod.ext ?_ rfl
      simp only [Function.comp_apply, List.countP_cons, decide_eq_true_eq]
      exact Nat.add_comm _ _
    · have hentry : entryAt stop ptr = none := if_neg hptr
      rw [if_neg hptr, hentry, walk]
      rfl

/-- What is read of the entries lies in the table exactly when they fit. -/
theorem readsInside_entryReads (hptr : ptr < madt + sdtLength m madt) :
    ReadsInside m madt (entryReads m ptr) ↔ EntryFits m madt ptr := by
  rw [entryReads, readsInside_append, readsInside_cons, readsInside_cons]
  have hflags : ReadsInside m madt (if m ptr = acpiMadtTypeLapic then wordAt (u32 (ptr + 4)) else []) ↔
      (m ptr = acpiMadtTypeLapic → madt ≤ u32 (ptr + 4) ∧ u32 (ptr + 4) + 4 ≤ madt + sdtLength m madt) := by
    by_cases htype : m ptr = acpiMadtTypeLapic
    · rw [if_pos htype, readsInside_wordAt, forall_prop_of_true htype]
    · rw [if_neg htype]
      exact iff_of_true readsInside_nil fun h => absurd h htype
  rw [hflags]
  constructor
  · rintro ⟨⟨⟨hle, -⟩, hlength, -⟩, hf⟩
    exact ⟨hle, hlength, hf⟩
  · rintro ⟨hle, hlength, hf⟩
    exact ⟨⟨⟨hle, hptr⟩, hlength, readsInside_nil⟩, hf⟩

theorem entryAt_eq_some_iff {j : ℕ} : entryAt stop ptr = some j ↔ ptr = j ∧ j < stop := by
  rw [entryAt]
  by_cases hptr : ptr < stop
  · rw [if_pos hptr, Option.some.injEq]
    exact ⟨fun h => ⟨h, h ▸ hptr⟩, And.left⟩
  · rw [if_neg hptr]
    exact iff_of_false (by simp) fun h => hptr (h.1 ▸ h.2)

theorem MadtEntry.lt_stop (h : MadtEntry m madt ptr) : ptr < u32 (madt + sdtLength m madt) :=
  h.mem_of_closed (fun _ hj => (entryAt_eq_some_iff.1 hj).2) fun _ _ _ hj => (entryAt_eq_some_iff.1 hj).2

theorem MadtEntry.lt (h : MadtEntry m madt ptr) : ptr < madt + sdtLength m madt :=
  Nat.lt_of_lt_of_le h.lt_stop (Nat.mod_le _ _)

theorem acpiParseMadt_eq_some_iff {r : ℕ × List ℕ} :
    acpiParseMadt fuel m madt = some r ↔ ∃ l, Chain (entryNext m (u32 (madt + sdtLength m madt)))
      (entryAt (u32 (madt + sdtLength m madt)) (u32 (madt + sizeofSdt + 8))) l ∧ l.length ≤ fuel ∧
        r = (l.countP fun p => decide (EntryOnline m p), wordAt (madt + 4) ++ l.flatMap (entryReads m)) := by
  rw [acpiParseMadt, acpiParseMadtFrom_eq, Option.map_map, Option.map_eq_some_iff]
  constructor
  · rintro ⟨l, hl, rfl⟩
    obtain ⟨hchain, hlen⟩ := walk_eq_some_iff.1 hl
    exact ⟨l, hchain, hlen, rfl⟩
  · rintro ⟨l, hchain, hlen, rfl⟩
    exact ⟨l, walk_eq_some_iff.2 ⟨hchain, hlen⟩, rfl⟩

/-- A walk that ends inside the table shows that it is sound. -/
theorem madtSound_of_walk {r : ℕ × List ℕ} (h : acpiParseMadt fuel m madt = some r)
    (hin : ReadsInside m madt r.2) : MadtSound m madt := by
  obtain ⟨l, hchain, -, rfl⟩ := acpiParseMadt_eq_some_iff.1 h
  obtain ⟨hheader, hentries⟩ := readsInside_append.1 hin
  refine ⟨?_, fun ptr hptr => ?_⟩
  · have := readsInside_wordAt.1 hheader
    omega
  · have hmem : ptr ∈ l := (Chain.linked_iff hchain).1 hptr
    refine ⟨Chain.acyclic hchain hmem, (readsInside_entryReads hptr.lt).1 fun a ha => ?_⟩
    exact hentries a (List.mem_flatMap.2 ⟨ptr, hmem, ha⟩)

/-- The walk over a sound table ends inside it, after at most one round for each address. -/
theorem MadtSound.walk (h : MadtSound m madt) :
    ∃ r, acpiParseMadt (2 ^ 32) m madt = some r ∧ ReadsInside m madt r.2 := by
  have hrange : ∀ ptr, MadtEntry m madt ptr → ptr ∈ List.range (2 ^ 32) := fun ptr hptr =>
    List.mem_range.2 (Nat.lt_trans hptr.lt_stop (u32_lt _))
  obtain ⟨l, hl⟩ := exists_chain_of_acyclic hrange fun ptr hptr => (h.entries ptr hptr).1
  have hentry : ∀ ptr ∈ l, MadtEntry m madt ptr := fun ptr hptr => (Chain.linked_iff hl).2 hptr
  have hlen := ((Chain.nodup hl).subperm fun ptr hptr => hrange ptr (hentry ptr hptr)).length_le
  rw [List.length_range] at hlen
  refine ⟨_, acpiParseMadt_eq_some_iff.2 ⟨l, hl, hlen, rfl⟩, readsInside_append.2 ⟨?_, fun a ha => ?_⟩⟩
  · have := h.header
    exact readsInside_wordAt.2 (by omega)
  · obtain ⟨ptr, hptr, ha⟩ := List.mem_flatMap.1 ha
    have hfits := (h.entries ptr (hentry ptr hptr)).2
    exact (readsInside_entryReads (hentry ptr hptr).lt).2 hfits a ha

/-! ### A MADT that is not at the end of the address space -/

theorem MadtEntry.u32_add (hroom : madt + sdtLength m madt + 255 ≤ 2 ^ 32) (h : MadtEntry m madt ptr) (hn : n ≤ 255) :
    u32 (ptr + n) = ptr + n := by
  have := h.lt
  exact u32_of_lt (by omega)

/-- Each entry comes right behind the one before. -/
theorem MadtEntry.next (hroom : madt + sdtLength m madt + 255 ≤ 2 ^ 32) (h : MadtEntry m madt ptr) {j : ℕ}
    (hj : entryNext m (u32 (madt + sdtLength m madt)) ptr = some j) :
    MadtEntry m madt j ∧ j = ptr + entryLength m ptr := by
  have hlength : entryLength m ptr ≤ 255 := Nat.le_of_lt_succ (m (u32 (ptr + 1))).isLt
  refine ⟨h.step hj, ?_⟩
  rw [entryNext, h.u32_add hroom hlength] at hj
  exact (entryAt_eq_some_iff.1 hj).1.symm

theorem MadtEntry.le (hroom : madt + sdtLength m madt + 255 ≤ 2 ^ 32) (h : MadtEntry m madt ptr) : madt ≤ ptr := by
  have hfrom : madt ≤ ptr ∧ MadtEntry m madt ptr := by
    refine h.mem_of_closed (S := fun j => madt ≤ j ∧ MadtEntry m madt j) ?_ ?_
    · intro j hj
      have hfirst : u32 (madt + 36 + 8) = j := (entryAt_eq_some_iff.1 hj).1
      refine ⟨?_, ?_⟩
      · rw [← hfirst, u32_of_lt (by omega)]
        omega
      · rw [MadtEntry, hj]
        exact .here j
    · rintro j k ⟨hle, hentry⟩ hk
      obtain ⟨hentry', rfl⟩ := hentry.next hroom hk
      exact ⟨Nat.le_add_right_of_le hle, hentry'⟩
  exact hfrom.1

/-- **Away from the end of the address space** a MADT is sound when the length of no entry is 0 and
none is cut off. -/
theorem madtSound_iff_of_below (hroom : madt + sdtLength m madt + 255 ≤ 2 ^ 32) :
    MadtSound m madt ↔ 8 ≤ sdtLength m madt ∧ ∀ ptr, MadtEntry m madt ptr → entryLength m ptr ≠ 0 ∧
      ptr + 2 ≤ madt + sdtLength m madt ∧ (m ptr = acpiMadtTypeLapic → ptr + 8 ≤ madt + sdtLength m madt) := by
  constructor
  · rintro ⟨hheader, hentries⟩
    refine ⟨hheader, fun ptr hptr => ?_⟩
    obtain ⟨hacyclic, -, hlength, hflags⟩ := hentries ptr hptr
    rw [hptr.u32_add hroom (by omega)] at hlength hflags
    refine ⟨fun hzero => hacyclic ?_, hlength.2, fun htype => (hflags htype).2⟩
    have hself : entryNext m (u32 (madt + sdtLength m madt)) ptr = some ptr := by
      rw [entryNext, hzero, hptr.u32_add hroom (Nat.zero_le _)]
      exact entryAt_eq_some_iff.2 ⟨rfl, hptr.lt_stop⟩
    rw [hself]
    exact .here ptr
  · rintro ⟨hheader, hentries⟩
    refine ⟨hheader, fun ptr hptr => ⟨fun hcycle => ?_, ?_⟩⟩
    · -- the entries that come after it lie behind it
      have hahead : ptr < ptr ∧ MadtEntry m madt ptr := by
        refine hcycle.mem_of_closed (S := fun j => ptr < j ∧ MadtEntry m madt j) ?_ ?_
        · intro j hj
          obtain ⟨hentry, rfl⟩ := hptr.next hroom hj
          exact ⟨Nat.lt_add_of_pos_right (Nat.pos_of_ne_zero (hentries ptr hptr).1), hentry⟩
        · rintro j k ⟨hlt, hentry⟩ hk
          obtain ⟨hentry', rfl⟩ := hentry.next hroom hk
          exact ⟨Nat.lt_add_right _ hlt, hentry'⟩
      exact Nat.lt_irrefl _ hahead.1
    · obtain ⟨-, hlength, hflags⟩ := hentries ptr hptr
      have hle := hptr.le hroom
      refine ⟨hle, ?_, fun htype => ?_⟩
      · rw [hptr.u32_add hroom (by omega)]
        omega
      · have := hflags htype
        rw [hptr.u32_add hroom (by omega)]
        omega

/-! ### The search in the DSDT -/

/-- The addresses that are read in a round of the search. -/
def s5Reads (m : Memory) (dsdt i : ℕ) : List ℕ :=
  wordAt (dsdt + i) ++ if readWord m (dsdt + i) = 0x35535F then
    (dsdt + i + 4) :: if m (dsdt + i + 4) = 0x12 then
      (dsdt + i + 6) :: if 2 ≤ (m (dsdt + i + 6)).toNat then [dsdt + i + 8, dsdt + i + 10] else []
    else []
  else []

instance (m : Memory) (dsdt o : ℕ) : Decidable (S5At m dsdt o) := inferInstanceAs (Decidable (_ ∧ _))

instance (m : Memory) (dsdt o : ℕ) : Decidable (S5Complete m dsdt o) := inferInstanceAs (Decidable (_ ∧ _))

/-- The search stops at the first complete package. -/
theorem acpiParseS5From_succ_snd (n i : ℕ) : (acpiParseS5From m dsdt (n + 1) i).2 =
    s5Reads m dsdt i ++ if S5Complete m dsdt i then [] else (acpiParseS5From m dsdt n (i + 1)).2 := by
  rw [acpiParseS5From, s5Reads]
  by_cases hsig : readWord m (dsdt + i) = 0x35535F
  · rw [if_pos hsig, if_pos hsig]
    by_cases hop : m (dsdt + i + 4) = 0x12
    · rw [if_pos hop, if_pos hop]
      by_cases hcount : 2 ≤ (m (dsdt + i + 6)).toNat
      · have hc : S5Complete m dsdt i := ⟨⟨hsig, hop⟩, hcount⟩
        rw [if_pos hcount, if_pos hcount, if_pos hc, List.append_nil]
      · have hc : ¬ S5Complete m dsdt i := fun h => hcount h.2
        rw [if_neg hcount, if_neg hcount, if_neg hc]
    · have hc : ¬ S5Complete m dsdt i := fun h => hop h.1.2
      rw [if_neg hop, if_neg hop, if_neg hc]
  · have hc : ¬ S5Complete m dsdt i := fun h => hsig h.1.1
    rw [if_neg hsig, if_neg hsig, if_neg hc, List.append_nil]

/-- The reads of the search are those of all rounds up to the first complete package. -/
theorem readsInside_acpiParseS5From : ReadsInside m t (acpiParseS5From m dsdt n i).2 ↔
    ∀ k, i ≤ k → k < i + n → (∀ j, i ≤ j → j < k → ¬ S5Complete m dsdt j) → ReadsInside m t (s5Reads m dsdt k) := by
  induction n generalizing i with
  | zero => exact iff_of_true readsInside_nil fun k hle hlt => absurd hlt (Nat.not_lt.2 hle)
  | succ n ih =>
    rw [acpiParseS5From_succ_snd, readsInside_append]
    by_cases hc : S5Complete m dsdt i
    · rw [if_pos hc]
      constructor
      · rintro ⟨hround, -⟩ k hle - hnone
        rcases Nat.eq_or_lt_of_le hle with rfl | hlt
        · exact hround
        · exact absurd hc (hnone i (Nat.le_refl _) hlt)
      · exact fun h => ⟨h i (Nat.le_refl _) (by omega) fun j hle hlt => absurd hlt (Nat.not_lt.2 hle), readsInside_nil⟩
    · rw [if_neg hc, ih]
      constructor
      · rintro ⟨hround, hrest⟩ k hle hlt hnone
        rcases Nat.eq_or_lt_of_le hle with rfl | hik
        · exact hround
        · exact hrest k hik (by omega) fun j hj => hnone j (Nat.le_of_lt hj)
      · refine fun h => ⟨h i (Nat.le_refl _) (by omega) fun j hle hlt => absurd hlt (Nat.not_lt.2 hle),
          fun k hle hlt hnone => h k (Nat.le_of_lt hle) (by omega) fun j hij hjk => ?_⟩
        rcases Nat.eq_or_lt_of_le hij with rfl | hij
        · exact hc
        · exact hnone j hij hjk

/-- A round reads in the table when it looks at a word that is followed by a byte, and the package, if
there is one, is not cut off. -/
theorem readsInside_s5Reads {o : ℕ} (ho : o + 4 < sdtLength m t) : ReadsInside m t (s5Reads m t o) ↔
    (S5At m t o → o + 6 < sdtLength m t ∧ (S5Complete m t o → o + 10 < sdtLength m t)) := by
  have hword : t ≤ t + o ∧ t + o + 4 ≤ t + sdtLength m t := by omega
  rw [s5Reads, readsInside_append, readsInside_wordAt, and_iff_right hword]
  by_cases hsig : readWord m (t + o) = 0x35535F
  · rw [if_pos hsig, readsInside_cons, and_iff_right (by omega)]
    by_cases hop : m (t + o + 4) = 0x12
    · rw [if_pos hop, readsInside_cons, forall_prop_of_true ⟨hsig, hop⟩]
      refine and_congr (by omega) ?_
      by_cases hcount : 2 ≤ (m (t + o + 6)).toNat
      · rw [if_pos hcount, readsInside_cons, readsInside_cons, forall_prop_of_true ⟨⟨hsig, hop⟩, hcount⟩,
          and_iff_left readsInside_nil]
        omega
      · rw [if_neg hcount]
        exact iff_of_true readsInside_nil fun h => absurd h.2 hcount
    · rw [if_neg hop]
      exact iff_of_true readsInside_nil fun h => absurd h.2 hop
  · rw [if_neg hsig]
    exact iff_of_true readsInside_nil fun h => absurd h.1 hsig

/-- The search from an offset of the table is the one from the table, at that offset. -/
theorem acpiParseS5From_add (base : ℕ) : acpiParseS5From m (t + base) n i = acpiParseS5From m t n (base + i) := by
  induction n generalizing i with
  | zero => rfl
  | succ n ih => rw [acpiParseS5From, acpiParseS5From, ih, Nat.add_assoc t base i, Nat.add_assoc base i 1]

/-- What is read in the search of the DSDT. -/
def dsdtReads (m : Memory) (dsdt : ℕ) : List ℕ :=
  (acpiParseS5 m (dsdt + sizeofSdt) (u32 (2 ^ 32 - sizeofSdt + sdtLength m dsdt))).2

/-- **The search stays inside the table** exactly when it is sound. -/
theorem readsInside_dsdtReads : ReadsInside m t (dsdtReads m t) ↔ DsdtSound m t := by
  have hlt : sdtLength m t < 2 ^ 32 := readWord_lt m (t + 4)
  rw [dsdtReads, acpiParseS5, acpiParseS5From_add, readsInside_acpiParseS5From]
  change (∀ k, 36 + 0 ≤ k → k < 36 + 0 + u32 (2 ^ 32 - 4 + u32 (2 ^ 32 - 36 + sdtLength m t)) → _) ↔ _
  by_cases hheader : 40 ≤ sdtLength m t
  · have hrounds : u32 (2 ^ 32 - 4 + u32 (2 ^ 32 - 36 + sdtLength m t)) = sdtLength m t - 40 := by
      unfold u32
      omega
    rw [hrounds]
    constructor
    · refine fun h => ⟨hheader, fun o hle ho hat hnone => ?_⟩
      exact (readsInside_s5Reads ho).1 (h o hle (by omega) hnone) hat
    · intro h k hle hk hnone
      have hk4 : k + 4 < sdtLength m t := by omega
      exact (readsInside_s5Reads hk4).2 fun hat => h.packages k hle hk4 hat hnone
  · -- the bound wraps, and the first word does not lie in the table
    have hrounds : 0 < u32 (2 ^ 32 - 4 + u32 (2 ^ 32 - 36 + sdtLength m t)) := by
      unfold u32
      omega
    refine iff_of_false (fun h => ?_) fun h => hheader h.header
    have hfirst := h 36 (Nat.le_refl _) (by omega) fun j hle hj => absurd hj (Nat.not_lt.2 hle)
    have hword := readsInside_wordAt.1 (readsInside_append.1 hfirst).1
    omega

/-! ### All walks -/

/-- `g_fadt` behind the loop. -/
def lastFadt (m : Memory) (gFadt : ℕ) (tables : List ℕ) : ℕ :=
  tables.foldl (fun g t => if AcpiChecksum m t (sdtLength m t) ∧ sdtSig m t = acpiSigFadt then t else g) gFadt

/-- `acpi_init` walks over the table as a MADT. -/
def IsMadt (m : Memory) (t : ℕ) : Prop := AcpiChecksum m t (sdtLength m t) ∧ sdtSig m t = acpiSigApic

/-- `g_fadt->dsdt` -/
def dsdtOf (m : Memory) (fadt : ℕ) : ℕ := readWord m (fadt + 40)

/-- `acpi_init` searches the DSDT. -/
def HasDsdt (m : Memory) (fadt : ℕ) : Prop := fadt ≠ 0 ∧ AcpiChecksum m (dsdtOf m fadt) (sdtLength m (dsdtOf m fadt))

instance (m : Memory) (fadt : ℕ) : Decidable (HasDsdt m fadt) := inferInstanceAs (Decidable (_ ∧ _))

/-- Each table that `acpi_init` walks over is sound. -/
structure TablesSound (m : Memory) (rsdp gFadt : ℕ) : Prop where
  madt : ∀ t ∈ rootTables m rsdp, IsMadt m t → MadtSound m t
  dsdt : HasDsdt m (lastFadt m gFadt (rootTables m rsdp)) →
    DsdtSound m (dsdtOf m (lastFadt m gFadt (rootTables m rsdp)))

variable {s s' : Acpi × List AcpiWalk} {tables : List ℕ}

/-- A round that comes to its end. -/
theorem acpiTable_some (h : acpiTable fuel m s t = some s') :
    s'.1.gFadt = lastFadt m s.1.gFadt [t] ∧ (∀ w ∈ s.2, w ∈ s'.2) ∧
      (IsMadt m t → ∃ r, acpiParseMadt fuel m t = some r ∧ ⟨t, r.2⟩ ∈ s'.2) := by
  rw [acpiTable] at h
  by_cases hsum : AcpiChecksum m t (sdtLength m t)
  · rw [if_pos hsum] at h
    have hfadt : (if sdtSig m t = acpiSigFadt then { s.1 with gFadt := t } else s.1).gFadt =
        lastFadt m s.1.gFadt [t] := by
      simp only [lastFadt, List.foldl_cons, List.foldl_nil, hsum, true_and]
      split <;> rfl
    by_cases hsig : sdtSig m t = acpiSigApic
    · simp only [if_pos hsig] at h
      obtain ⟨r, hr, rfl⟩ := Option.map_eq_some_iff.1 h
      exact ⟨hfadt, fun w hw => List.mem_append_left _ hw,
        fun _ => ⟨r, hr, List.mem_append_right _ (List.mem_singleton.2 rfl)⟩⟩
    · simp only [if_neg hsig] at h
      obtain rfl := Option.some.inj h
      exact ⟨hfadt, fun w hw => hw, fun hmadt => absurd hmadt.2 hsig⟩
  · rw [if_neg hsum] at h
    obtain rfl := Option.some.inj h
    refine ⟨?_, fun w hw => hw, fun hmadt => absurd hmadt.1 hsum⟩
    simp only [lastFadt, List.foldl_cons, List.foldl_nil, hsum, false_and, if_false]

/-- A round over a sound table comes to its end. -/
theorem acpiTable_of_sound (hsound : IsMadt m t → MadtSound m t) (hin : ∀ w ∈ s.2, ReadsInside m w.table w.reads) :
    ∃ s', acpiTable (2 ^ 32) m s t = some s' ∧ ∀ w ∈ s'.2, ReadsInside m w.table w.reads := by
  rw [acpiTable]
  by_cases hsum : AcpiChecksum m t (sdtLength m t)
  · rw [if_pos hsum]
    by_cases hsig : sdtSig m t = acpiSigApic
    · obtain ⟨r, hr, hinside⟩ := (hsound ⟨hsum, hsig⟩).walk
      simp only [if_pos hsig, hr, Option.map_some]
      refine ⟨_, rfl, fun w hw => ?_⟩
      rcases List.mem_append.1 hw with hw | hw
      · exact hin w hw
      · rw [List.mem_singleton.1 hw]
        exact hinside
    · simp only [if_neg hsig]
      exact ⟨_, rfl, hin⟩
  · rw [if_neg hsum]
    exact ⟨s, rfl, hin⟩

/-- The loop, when it comes to its end. -/
theorem acpiTables_some (h : tables.foldlM (acpiTable fuel m) s = some s') :
    s'.1.gFadt = lastFadt m s.1.gFadt tables ∧ (∀ w ∈ s.2, w ∈ s'.2) ∧
      ∀ t ∈ tables, IsMadt m t → ∃ r, acpiParseMadt fuel m t = some r ∧ ⟨t, r.2⟩ ∈ s'.2 := by
  induction tables generalizing s with
  | nil =>
    obtain rfl : s = s' := Option.some.inj h
    exact ⟨rfl, fun w hw => hw, fun t ht => absurd ht List.not_mem_nil⟩
  | cons t tables ih =>
    rw [List.foldlM_cons] at h
    obtain ⟨s₁, h₁, h⟩ := Option.bind_eq_some_iff.1 h
    obtain ⟨hfadt₁, hkeep₁, hmadt₁⟩ := acpiTable_some h₁
    obtain ⟨hfadt, hkeep, hmadt⟩ := ih h
    refine ⟨?_, fun w hw => hkeep w (hkeep₁ w hw), fun u hu hu' => ?_⟩
    · rw [hfadt, hfadt₁]
      rfl
    · rcases List.mem_cons.1 hu with rfl | hu
      · obtain ⟨r, hr, hmem⟩ := hmadt₁ hu'
        exact ⟨r, hr, hkeep _ hmem⟩
      · exact hmadt u hu hu'

/-- The loop over sound tables comes to its end. -/
theorem acpiTables_of_sound (hsound : ∀ t ∈ tables, IsMadt m t → MadtSound m t)
    (hin : ∀ w ∈ s.2, ReadsInside m w.table w.reads) :
    ∃ s', tables.foldlM (acpiTable (2 ^ 32) m) s = some s' ∧ ∀ w ∈ s'.2, ReadsInside m w.table w.reads := by
  induction tables generalizing s with
  | nil => exact ⟨s, rfl, hin⟩
  | cons t tables ih =>
    obtain ⟨s₁, h₁, hin₁⟩ := acpiTable_of_sound (hsound t List.mem_cons_self) hin
    obtain ⟨s', h', hin'⟩ := ih (fun u hu => hsound u (List.mem_cons_of_mem _ hu)) hin₁
    refine ⟨s', ?_, hin'⟩
    rw [List.foldlM_cons, h₁]
    exact h'

/-- The walk over the DSDT comes behind the others. -/
theorem acpiInitDsdt_walks : (acpiInitDsdt m s).2.2 =
    s.2 ++ if HasDsdt m s.1.gFadt then [⟨dsdtOf m s.1.gFadt, dsdtReads m (dsdtOf m s.1.gFadt)⟩] else [] := by
  rw [acpiInitDsdt]
  by_cases hnull : s.1.gFadt = 0
  · have hno : ¬ HasDsdt m s.1.gFadt := fun h => h.1 hnull
    rw [if_pos hnull, if_neg hno, List.append_nil]
  · rw [if_neg hnull]
    by_cases hsum : AcpiChecksum m (dsdtOf m s.1.gFadt) (sdtLength m (dsdtOf m s.1.gFadt))
    · have hyes : HasDsdt m s.1.gFadt := ⟨hnull, hsum⟩
      rw [if_pos hyes]
      exact congrArg (fun r : ℤ × Acpi × List AcpiWalk => r.2.2) (if_pos hsum)
    · have hno : ¬ HasDsdt m s.1.gFadt := fun h => hsum h.2
      rw [if_neg hno, List.append_nil]
      exact congrArg (fun r : ℤ × Acpi × List AcpiWalk => r.2.2) (if_neg hsum)

theorem acpiInitDsdt_inside : (∀ w ∈ (acpiInitDsdt m s).2.2, ReadsInside m w.table w.reads) ↔
    (∀ w ∈ s.2, ReadsInside m w.table w.reads) ∧ (HasDsdt m s.1.gFadt → DsdtSound m (dsdtOf m s.1.gFadt)) := by
  rw [acpiInitDsdt_walks, List.forall_mem_append]
  refine and_congr_right fun _ => ?_
  by_cases hdsdt : HasDsdt m s.1.gFadt
  · rw [if_pos hdsdt, List.forall_mem_singleton, forall_prop_of_true hdsdt]
    exact readsInside_dsdtReads
  · rw [if_neg hdsdt]
    exact iff_of_true (fun w hw => absurd hw List.not_mem_nil) fun h => absurd h hdsdt

/-- **The walks of `acpi_init` end inside the tables** exactly when the tables it walks over are sound. -/
theorem acpiInit_walksInside_iff (m : Memory) (rsdp : Option ℕ) (σ : Acpi) :
    WalksInside m rsdp σ ↔ ∀ p, rsdp = some p → TablesSound m p σ.gFadt := by
  cases rsdp with
  | none =>
    refine iff_of_true ⟨0, (-1, σ, []), rfl, fun w hw => absurd hw List.not_mem_nil⟩ fun p hp => ?_
    exact absurd hp (by simp)
  | some rsdp =>
    constructor
    · rintro ⟨fuel, r, hrun, hin⟩ p hp
      obtain rfl : rsdp = p := Option.some.inj hp
      obtain ⟨s', hloop, rfl⟩ := Option.map_eq_some_iff.1 hrun
      obtain ⟨hfadt, -, hmadt⟩ := acpiTables_some hloop
      obtain ⟨hwalks, hdsdt⟩ := acpiInitDsdt_inside.1 hin
      rw [hfadt] at hdsdt
      refine ⟨fun t ht ht' => ?_, hdsdt⟩
      obtain ⟨r, hr, hmem⟩ := hmadt t ht ht'
      exact madtSound_of_walk hr (hwalks _ hmem)
    · intro h
      obtain ⟨hmadt, hdsdt⟩ := h rsdp rfl
      have hempty : ∀ w ∈ (σ, ([] : List AcpiWalk)).2, ReadsInside m w.table w.reads := fun w hw =>
        absurd hw List.not_mem_nil
      obtain ⟨s', hloop, hin⟩ := acpiTables_of_sound hmadt hempty
      have hfadt : s'.1.gFadt = lastFadt m σ.gFadt (rootTables m rsdp) := (acpiTables_some hloop).1
      rw [← hfadt] at hdsdt
      have hrun : acpiInit (2 ^ 32) m (some rsdp) σ = some (acpiInitDsdt m s') := by
        rw [acpiInit, hloop]
        rfl
      exact ⟨2 ^ 32, _, hrun, acpiInitDsdt_inside.2 ⟨hin, hdsdt⟩⟩

/-- A root table with one entry, a MADT of 46 bytes; the entry in it is of length 0. -/
def endlessMadt : Memory := fun a =>
  ([(0x10B, 2), (0x204, 40), (0x225, 3), (0x300, 0x41), (0x301, 0x50), (0x302, 0x49), (0x303, 0x43), (0x304, 46),
    (0x309, 180), (0x32C, 1)].lookup a).getD 0

/-- Its checksum is right, and `acpi_init` does not come back. -/
theorem acpiInit_endless : rootTables endlessMadt 0x100 = [0x300] ∧
    AcpiChecksum endlessMadt 0x300 (sdtLength endlessMadt 0x300) ∧ sdtSig endlessMadt 0x300 = acpiSigApic ∧
    ∀ fuel, acpiInit fuel endlessMadt (some 0x100) ⟨0, 0, 0, 0⟩ = none := by
  have htables : rootTables endlessMadt 0x100 = [0x300] := by decide +kernel
  have hsum : AcpiChecksum endlessMadt 0x300 (sdtLength endlessMadt 0x300) := by decide +kernel
  have hsig : sdtSig endlessMadt 0x300 = acpiSigApic := by decide +kernel
  refine ⟨htables, hsum, hsig, fun fuel => Option.eq_none_iff_forall_ne_some.2 fun r hrun => ?_⟩
  obtain ⟨s', hloop, -⟩ := Option.map_eq_some_iff.1 hrun
  obtain ⟨-, -, hmadt⟩ := acpiTables_some hloop
  obtain ⟨r, hr, -⟩ := hmadt 0x300 (htables ▸ List.mem_singleton.2 rfl) ⟨hsum, hsig⟩
  obtain ⟨l, hchain, -, -⟩ := acpiParseMadt_eq_some_iff.1 hr
  have hfirst : entryAt (u32 (0x300 + sdtLength endlessMadt 0x300)) (u32 (0x300 + sizeofSdt + 8)) = some 0x32C := by
    decide +kernel
  have hnext : entryNext endlessMadt (u32 (0x300 + sdtLength endlessMadt 0x300)) 0x32C = some 0x32C := by
    decide +kernel
  rw [hfirst] at hchain
  have hmem : 0x32C ∈ l := (Chain.linked_iff hchain).1 (.here _)
  refine Chain.acyclic hchain hmem ?_
  rw [hnext]
  exact .here _

end Flopperating
