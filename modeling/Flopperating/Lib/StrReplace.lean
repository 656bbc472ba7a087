/-
# Replacing in a string

`flopstrreplace` of `src/lib/str.c`.  It builds the new string in a temporary allocation, which has
the size of the old one, and copies it back.

| source | here |
| --- | --- |
| `temp`, as `kmalloc` gives it | `CharArray.fresh garbage` |
| `str`, from where it is scanned on | a `CString` |
| `result`, the buffer of `str` | `CharArray.fresh buf` |
| `while (*str)` | `replaceFrom`, for at most `fuel` rounds |

The replacement is put in with `flopstrcopy(temp + pos, new_str, new_len)`, whose length is to count
the `NUL`: so it lacks its last character, a `NUL` stands in its place, and the string ends there
(`replaceFrom_truncates`).  An empty `old` is found everywhere and takes the scan no further
(`replaceFrom_stuck`).  What is left is right: to remove, and to find nothing
(`flopstrreplace_replaces_iff`).
-/

import Flopperating.Lib.StrCopy

namespace Flopperating

open TracedMemory

/-- The loop, with the string from `s` on: `pos` and `temp` at the end. -/
def replaceFrom (old new : CString) : ℕ → CString → ℕ → CharArray → Option (ℕ × CharArray)
  | 0, _, _, _ => none
  | _ + 1, [], pos, temp => some (pos, temp)
  | fuel + 1, c :: s, pos, temp =>
    if flopstrncmp (c :: s) old (flopstrlen old) = 0 then
      replaceFrom old new fuel ((c :: s).drop (flopstrlen old)) (u32 (pos + flopstrlen new))
        (flopstrcopy pos new (flopstrlen new) temp)
    else replaceFrom old new fuel s (u32 (pos + 1)) (temp.store pos c.1)

/-- The two arrays after a call. -/
structure Replaced where
  temp : CharArray
  str : CharArray

/-- `flopstrreplace`. -/
def flopstrreplace (fuel : ℕ) (str old new : CString) (garbage buf : ℕ → UInt8) : Option Replaced :=
  (replaceFrom old new fuel str 0 (.fresh garbage)).map fun r =>
    ⟨r.2.store r.1 0, flopstrcopy 0 (textFrom (r.2.store r.1 0).value r.1 0) (u32 (r.1 + 1)) (.fresh buf)⟩

/-- The leftmost occurrences of `old` that do not overlap are replaced by `new`; an empty `old` has none. -/
def replaceAll (old new : CString) : CString → CString
  | [] => []
  | c :: s => if old ≠ [] ∧ old <+: c :: s then new ++ replaceAll old new (s.drop (old.length - 1))
    else c :: replaceAll old new s
termination_by s => s.length
decreasing_by
  · rw [List.length_drop, List.length_cons]
    omega
  · exact Nat.lt_succ_self _

/-- The call keeps to `temp` and to the `room` of the buffer, and it replaces. -/
structure ReplacesWell (str old new : CString) (room : ℕ) (out : Replaced) : Prop where
  inTemp : ∀ i ∈ out.temp.touched, i < str.length + 1
  inBuffer : ∀ i ∈ out.str.touched, i < room
  holds : HoldsAt out.str.value 0 (replaceAll old new str)

variable {a garbage buf : ℕ → UInt8} {temp temp' : CharArray} {str old new s t : CString} {c : CChar}
  {fuel i n pos pos' room z : ℕ}

/-- Comparing as many bytes as the second string has asks whether the first starts with it. -/
theorem flopstrncmp_eq_zero_iff : flopstrncmp s old (flopstrlen old) = 0 ↔ old <+: s := by
  unfold flopstrlen
  induction old generalizing s with
  | nil => exact iff_of_true (by rw [List.length_nil, flopstrncmp]) List.nil_prefix
  | cons d old ih =>
    rcases s with - | ⟨c, s⟩
    · refine iff_of_false (fun hzero => d.2 ?_) fun hfound => List.cons_ne_nil _ _ (List.prefix_nil.1 hfound)
      have hzero : ((0 : UInt8).toNat : ℤ) - d.1.toNat = 0 := hzero
      exact (toNat_sub_eq_zero.1 hzero).symm
    · rw [List.length_cons, flopstrncmp, List.cons_prefix_cons]
      split_ifs with heq
      · rw [List.tail_cons, ih, eq_comm, and_iff_right]
        exact Subtype.ext heq
      · exact iff_of_false (fun hzero => heq (toNat_sub_eq_zero.1 hzero)) fun h => heq (congrArg Subtype.val h.1.symm)

theorem replaceAll_nil : replaceAll old new [] = [] := by rw [replaceAll]

theorem replaceAll_of_found (hne : old ≠ []) (h : old <+: c :: s) :
    replaceAll old new (c :: s) = new ++ replaceAll old new ((c :: s).drop old.length) := by
  obtain ⟨k, hk⟩ : ∃ k, old.length = k + 1 := Nat.exists_eq_succ_of_ne_zero (List.length_pos_iff.2 hne).ne'
  rw [replaceAll, if_pos ⟨hne, h⟩, hk, List.drop_succ_cons, Nat.add_sub_cancel]

theorem replaceAll_of_not_found (h : ¬ old <+: c :: s) : replaceAll old new (c :: s) = c :: replaceAll old new s := by
  rw [replaceAll, if_neg fun hboth => h hboth.2]

/-! ### The loop -/

theorem replaceFrom_of_found (h : old <+: c :: s) : replaceFrom old new (fuel + 1) (c :: s) pos temp =
    replaceFrom old new fuel ((c :: s).drop old.length) (u32 (pos + new.length))
      (flopstrcopy pos new new.length temp) :=
  if_pos (flopstrncmp_eq_zero_iff.2 h)

theorem replaceFrom_of_not_found (h : ¬ old <+: c :: s) : replaceFrom old new (fuel + 1) (c :: s) pos temp =
    replaceFrom old new fuel s (u32 (pos + 1)) (temp.store pos c.1) :=
  if_neg fun hzero => h (flopstrncmp_eq_zero_iff.1 hzero)

/-- **An empty `old` is never done with.** -/
theorem replaceFrom_stuck (hs : s ≠ []) : replaceFrom [] new fuel s pos temp = none := by
  induction fuel generalizing pos temp with
  | zero => rfl
  | succ fuel ih =>
    obtain ⟨c, s, rfl⟩ := List.exists_cons_of_ne_nil hs
    rw [replaceFrom_of_found List.nil_prefix]
    exact ih

/-- What was written stays written. -/
theorem mem_touched_replaceFrom (hrun : replaceFrom old new fuel s pos temp = some (pos', temp')) (hi : i ∈ temp.touched) :
    i ∈ temp'.touched := by
  induction fuel generalizing s pos temp with
  | zero => exact absurd hrun (Option.some_ne_none _).symm
  | succ fuel ih =>
    rcases s with - | ⟨c, s⟩
    · obtain ⟨rfl, rfl⟩ := Prod.mk.inj (Option.some.inj hrun)
      exact hi
    · by_cases hfound : old <+: c :: s
      · rw [replaceFrom_of_found hfound] at hrun
        exact ih hrun (mem_touched_copyTerminated.2 (.inl hi))
      · rw [replaceFrom_of_not_found hfound] at hrun
        exact ih hrun (List.mem_cons_of_mem pos hi)

/-! ### A replacement -/

/-- The place that a replacement is put to: it ends with a `NUL`, and what comes then comes behind it. -/
theorem replacement_of_run (hnew : new ≠ []) (hlt : new.length < 2 ^ 32)
    (hrun : replaceFrom old new fuel s (u32 (pos + new.length)) (flopstrcopy pos new new.length temp) = some (pos', temp'))
    (hcap : ∀ i ∈ temp'.touched, i < 2 ^ 32 - 1) :
    u32 (pos + new.length) = pos + new.length ∧
      (flopstrcopy pos new new.length temp).value (pos + (new.length - 1)) = 0 := by
  have hpos := List.length_pos_iff.2 hnew
  have hcopy : flopstrcopy pos new new.length temp = copyTerminated (new.length - 1) pos new temp := by
    rw [flopstrcopy, predSize_of_pos hpos hlt]
  have hlen : (new.take (new.length - 1)).length = new.length - 1 := List.length_take_of_le (Nat.sub_le _ _)
  constructor
  · have hwritten := mem_touched_replaceFrom hrun (by
      rw [hcopy]
      exact mem_touched_copyTerminated.2 (.inr ⟨new.length - 1, hlen.ge, rfl⟩))
    have := hcap _ hwritten
    exact u32_of_lt (by omega)
  · rw [hcopy]
    have hholds : HoldsAt (copyTerminated (new.length - 1) pos new temp).value pos (new.take (new.length - 1)) :=
      holdsAt_copyTerminated temp
    rw [hholds (new.length - 1) hlen.ge, List.drop_eq_nil_of_le hlen.le]
    rfl

/-- A `NUL` before `pos` is not overwritten. -/
theorem replaceFrom_keeps (hnew : new ≠ []) (hlt : new.length < 2 ^ 32)
    (hrun : replaceFrom old new fuel s pos temp = some (pos', temp')) (hcap : ∀ i ∈ temp'.touched, i < 2 ^ 32 - 1)
    (hz : z < pos) (hnul : temp.value z = 0) : z < pos' ∧ temp'.value z = 0 := by
  induction fuel generalizing s pos temp with
  | zero => exact absurd hrun (Option.some_ne_none _).symm
  | succ fuel ih =>
    rcases s with - | ⟨c, s⟩
    · obtain ⟨rfl, rfl⟩ := Prod.mk.inj (Option.some.inj hrun)
      exact ⟨hz, hnul⟩
    · by_cases hfound : old <+: c :: s
      · rw [replaceFrom_of_found hfound] at hrun
        obtain ⟨hpos, -⟩ := replacement_of_run hnew hlt hrun hcap
        rw [hpos] at hrun
        refine ih hrun (by omega) (Eq.trans ?_ hnul)
        exact value_copyTerminated fun k _ => by omega
      · rw [replaceFrom_of_not_found hfound] at hrun
        have hwritten := hcap pos (mem_touched_replaceFrom hrun List.mem_cons_self)
        rw [u32_of_lt (by omega)] at hrun
        exact ih hrun (by omega) ((Function.update_of_ne (Nat.ne_of_lt hz) _ _).trans hnul)

/-- **Where something is replaced, the string ends before its end.** -/
theorem replaceFrom_truncates (hold : old ≠ []) (hnew : new ≠ []) (hlt : new.length < 2 ^ 32) (hoccurs : old <:+: s)
    (hrun : replaceFrom old new fuel s pos temp = some (pos', temp')) (hcap : ∀ i ∈ temp'.touched, i < 2 ^ 32 - 1) :
    ∃ z, z < pos + (replaceAll old new s).length ∧ z < pos' ∧ temp'.value z = 0 := by
  induction fuel generalizing s pos temp with
  | zero => exact absurd hrun (Option.some_ne_none _).symm
  | succ fuel ih =>
    rcases s with - | ⟨c, s⟩
    · exact absurd (List.infix_nil.1 hoccurs) hold
    · by_cases hfound : old <+: c :: s
      · rw [replaceFrom_of_found hfound] at hrun
        obtain ⟨hpos, hnul⟩ := replacement_of_run hnew hlt hrun hcap
        rw [hpos] at hrun
        have hlen := List.length_pos_iff.2 hnew
        obtain ⟨hbefore, hkept⟩ := replaceFrom_keeps hnew hlt hrun hcap (by omega) hnul
        refine ⟨pos + (new.length - 1), ?_, hbefore, hkept⟩
        rw [replaceAll_of_found hold hfound, List.length_append]
        omega
      · rw [replaceFrom_of_not_found hfound] at hrun
        have hwritten := hcap pos (mem_touched_replaceFrom hrun List.mem_cons_self)
        rw [u32_of_lt (by omega)] at hrun
        obtain ⟨z, hz, hbefore, hnul⟩ := ih ((List.infix_cons_iff.1 hoccurs).resolve_left hfound) hrun
        refine ⟨z, ?_, hbefore, hnul⟩
        rw [replaceAll_of_not_found hfound, List.length_cons]
        omega

/-! ### Nothing to put in -/

/-- From `pos` on, `text` was written, to no more than `room` places. -/
structure WroteFrom (pos room : ℕ) (text : CString) (temp temp' : CharArray) : Prop where
  kept : ∀ j < pos, temp'.value j = temp.value j
  chars : ∀ i (hi : i < text.length), temp'.value (pos + i) = (text[i]).1
  within : ∀ j ∈ temp'.touched, j ∈ temp.touched ∨ pos ≤ j ∧ j < pos + room
  fits : text.length ≤ room

theorem WroteFrom.nil : WroteFrom pos 0 [] temp temp where
  kept _ _ := rfl
  chars i hi := absurd hi (Nat.not_lt_zero i)
  within _ hj := .inl hj
  fits := le_rfl

/-- A character that is kept. -/
theorem WroteFrom.cons (h : WroteFrom (pos + 1) room t (temp.store pos c.1) temp') :
    WroteFrom pos (room + 1) (c :: t) temp temp' where
  kept j hj := (h.kept j (by omega)).trans (Function.update_of_ne (by omega) _ _)
  chars i hi := by
    cases i with
    | zero => exact (h.kept pos (Nat.lt_succ_self pos)).trans (Function.update_self ..)
    | succ i =>
      rw [← Nat.succ_add_eq_add_succ]
      exact h.chars i (Nat.lt_of_succ_lt_succ hi)
  within j hj := by
    rcases h.within j hj with hj | hj
    · rcases List.mem_cons.1 hj with rfl | hj
      · exact .inr ⟨le_rfl, by omega⟩
      · exact .inl hj
    · exact .inr (by omega)
  fits := Nat.succ_le_succ h.fits

/-- A `NUL` at a place that is written again. -/
theorem WroteFrom.skip {b : UInt8} (h : WroteFrom pos room t (temp.store pos b) temp') (hroom : room < n) :
    WroteFrom pos n t temp temp' where
  kept j hj := (h.kept j hj).trans (Function.update_of_ne (Nat.ne_of_lt hj) _ _)
  chars := h.chars
  within j hj := by
    rcases h.within j hj with hj | hj
    · rcases List.mem_cons.1 hj with rfl | hj
      · exact .inr ⟨le_rfl, by omega⟩
      · exact .inl hj
    · exact .inr (by omega)
  fits := h.fits.trans hroom.le

/-- **The scan is right where no character is put in.** -/
theorem replaceFrom_right (hold : old ≠ []) (h : new = [] ∨ ¬ old <:+: s) (hfuel : s.length < fuel)
    (hlen : pos + s.length < 2 ^ 32) :
    ∃ temp', replaceFrom old new fuel s pos temp = some (pos + (replaceAll old new s).length, temp') ∧
      WroteFrom pos s.length (replaceAll old new s) temp temp' := by
  induction fuel generalizing s pos temp with
  | zero => exact absurd hfuel (Nat.not_lt_zero _)
  | succ fuel ih =>
    rcases s with - | ⟨c, s⟩
    · rw [replaceAll_nil]
      exact ⟨temp, rfl, .nil⟩
    · rw [List.length_cons] at hfuel hlen
      by_cases hfound : old <+: c :: s
      · obtain rfl : new = [] := h.resolve_right fun hnot => hnot hfound.isInfix
        have hdrop : ((c :: s).drop old.length).length < (c :: s).length := by
          have := List.length_pos_iff.2 hold
          rw [List.length_drop, List.length_cons]
          omega
        rw [List.length_cons] at hdrop
        obtain ⟨temp', hrun, hwrote⟩ : ∃ temp', replaceFrom old [] fuel ((c :: s).drop old.length) pos
            (flopstrcopy pos [] 0 temp) = some (pos + (replaceAll old [] ((c :: s).drop old.length)).length, temp') ∧
            WroteFrom pos ((c :: s).drop old.length).length (replaceAll old [] ((c :: s).drop old.length))
              (temp.store pos 0) temp' := ih (.inl rfl) (by omega) (by omega)
        rw [replaceFrom_of_found hfound, List.length_nil, Nat.add_zero, u32_of_lt (by omega), hrun,
          replaceAll_of_found hold hfound, List.nil_append]
        exact ⟨temp', rfl, hwrote.skip hdrop⟩
      · obtain ⟨temp', hrun, hwrote⟩ : ∃ temp', replaceFrom old new fuel s (pos + 1) (temp.store pos c.1) =
            some (pos + 1 + (replaceAll old new s).length, temp') ∧
            WroteFrom (pos + 1) s.length (replaceAll old new s) (temp.store pos c.1) temp' :=
          ih (h.imp_right fun hnot hin => hnot (List.infix_cons hin)) (by omega) (by omega)
        rw [replaceFrom_of_not_found hfound, u32_of_lt (by omega), hrun, replaceAll_of_not_found hfound,
          List.length_cons, Nat.add_right_comm, Nat.add_assoc]
        exact ⟨temp', rfl, hwrote.cons⟩

/-! ### The copy back -/

theorem WroteFrom.holdsAt (h : WroteFrom 0 room s temp temp') : HoldsAt (temp'.store s.length 0).value 0 s := by
  intro i hi
  rw [Nat.zero_add]
  rcases Nat.lt_or_eq_of_le hi with hlt | rfl
  · have hat := h.chars i hlt
    rw [Nat.zero_add] at hat
    rw [charAt_drop_of_lt hlt]
    exact (Function.update_of_ne (Nat.ne_of_lt hlt) _ _).trans hat
  · rw [List.drop_length]
    exact Function.update_self ..

theorem flopstrreplace_nil : flopstrreplace 1 [] old new garbage buf =
    some ⟨(CharArray.fresh garbage).store 0 0, (CharArray.fresh buf).store 0 0⟩ := rfl

/-- Where the run ends well, so does the call. -/
theorem flopstrreplace_right (hold : old ≠ []) (h : new = [] ∨ ¬ old <:+: str) (hstr : str.length + 1 < 2 ^ 32)
    (hroom : str.length < room) :
    ∃ out, flopstrreplace (str.length + 1) str old new garbage buf = some out ∧ ReplacesWell str old new room out := by
  obtain ⟨temp', hrun, hwrote⟩ : ∃ temp', replaceFrom old new (str.length + 1) str 0 (.fresh garbage) =
      some (0 + (replaceAll old new str).length, temp') ∧
      WroteFrom 0 str.length (replaceAll old new str) (.fresh garbage) temp' :=
    replaceFrom_right hold h (Nat.lt_succ_self str.length) (by omega)
  rw [Nat.zero_add] at hrun
  have hfits := hwrote.fits
  have htext : textFrom (temp'.store (replaceAll old new str).length 0).value (replaceAll old new str).length 0 =
      replaceAll old new str := textFrom_eq hwrote.holdsAt le_rfl
  have hcopy : flopstrcopy 0 (replaceAll old new str) (u32 ((replaceAll old new str).length + 1)) (.fresh buf) =
      copyTerminated (replaceAll old new str).length 0 (replaceAll old new str) (.fresh buf) := by
    rw [flopstrcopy, u32_of_lt (by omega), predSize_of_pos (Nat.succ_pos _) (by omega), Nat.succ_sub_one]
  rw [flopstrreplace, hrun, Option.map_some, htext, hcopy]
  refine ⟨_, rfl, fun i hi => ?_, copyTerminated_writes (by omega), ?_⟩
  · rcases List.mem_cons.1 hi with rfl | hi
    · omega
    · rcases hwrote.within i hi with hi | hi
      · exact absurd hi List.not_mem_nil
      · omega
  · have hholds : HoldsAt (copyTerminated (replaceAll old new str).length 0 (replaceAll old new str) (.fresh buf)).value 0
      ((replaceAll old new str).take (replaceAll old new str).length) := holdsAt_copyTerminated _
    rwa [List.take_length] at hholds

/-- A string that ends before its end is another one. -/
theorem not_replacesWell_of_run {out : Replaced} (hold : old ≠ []) (hnew : new ≠ []) (hlt : new.length < 2 ^ 32)
    (hstr : str.length + 1 < 2 ^ 32) (hoccurs : old <:+: str)
    (hrun : flopstrreplace fuel str old new garbage buf = some out) : ¬ ReplacesWell str old new room out := by
  intro h
  obtain ⟨⟨pos, temp⟩, hloop, rfl⟩ := Option.map_eq_some_iff.1 hrun
  obtain ⟨z, hz, hbefore, hnul⟩ := replaceFrom_truncates hold hnew hlt hoccurs hloop fun i hi => by
    have := h.inTemp i (List.mem_cons_of_mem pos hi)
    omega
  have hstored : (temp.store pos 0).value (0 + z) = 0 := by
    rw [Nat.zero_add]
    exact (Function.update_of_ne (Nat.ne_of_lt hbefore) _ _).trans hnul
  have htext : replaceAll old new str = (textFrom (temp.store pos 0).value pos 0).take (predSize (u32 (pos + 1))) :=
    h.holds.unique (holdsAt_copyTerminated _)
  have hlen : (textFrom (temp.store pos 0).value pos 0).length ≤ z := length_textFrom_le hstored
  rw [htext, List.length_take] at hz
  omega

/-- **`flopstrreplace` does what it is to do exactly when there is nothing to scan, or `old` is not
empty and either is removed or does not occur.** -/
theorem flopstrreplace_replaces_iff (hstr : str.length + 1 < 2 ^ 32) (hnew : new.length < 2 ^ 32)
    (hroom : str.length < room) :
    (∃ fuel out, flopstrreplace fuel str old new garbage buf = some out ∧ ReplacesWell str old new room out) ↔
      str = [] ∨ old ≠ [] ∧ (new = [] ∨ ¬ old <:+: str) := by
  constructor
  · rintro ⟨fuel, out, hrun, hwell⟩
    by_contra hnot
    have hne : str ≠ [] := fun hnil => hnot (.inl hnil)
    by_cases hold : old = []
    · rw [hold, flopstrreplace, replaceFrom_stuck hne] at hrun
      exact Option.some_ne_none out hrun.symm
    · have hput : new ≠ [] := fun hnil => hnot (.inr ⟨hold, .inl hnil⟩)
      have hoccurs : old <:+: str := by
        by_contra hno
        exact hnot (.inr ⟨hold, .inr hno⟩)
      exact not_replacesWell_of_run hold hput hnew hstr hoccurs hrun hwell
  · rintro (rfl | ⟨hold, h⟩)
    · refine ⟨1, _, flopstrreplace_nil, fun i hi => ?_, fun i hi => ?_, fun i hi => ?_⟩
      · exact (List.mem_singleton.1 hi).symm ▸ Nat.one_pos
      · exact (List.mem_singleton.1 hi).symm ▸ hroom
      · rw [replaceAll_nil] at hi ⊢
        obtain rfl : i = 0 := Nat.le_zero.1 hi
        show Function.update buf 0 0 0 = 0
        exact Function.update_self ..
    · obtain ⟨out, hrun, hwell⟩ := flopstrreplace_right hold h hstr hroom
      exact ⟨_, out, hrun, hwell⟩

theorem flopstrreplace_removes : ∃ fuel out,
    flopstrreplace fuel (ascii "abab") (ascii "a") [] (fun _ => 7) (fun _ => 9) = some out ∧
      ReplacesWell (ascii "abab") (ascii "a") [] 5 out :=
  (flopstrreplace_replaces_iff (by decide) (by decide) (by decide)).2 (by decide)

/-- `"xy"` is put in for the `"a"` of `"abc"`: what is left is `"x"`. -/
theorem not_flopstrreplace_replaces : ¬ ∃ fuel out,
    flopstrreplace fuel (ascii "abc") (ascii "a") (ascii "xy") (fun _ => 0) (fun _ => 0) = some out ∧
      ReplacesWell (ascii "abc") (ascii "a") (ascii "xy") 5 out := by
  rintro ⟨fuel, out, hrun, hwell⟩
  exact not_replacesWell_of_run (by decide) (by decide) (by decide) (by decide) (by decide) hrun hwell

end Flopperating
