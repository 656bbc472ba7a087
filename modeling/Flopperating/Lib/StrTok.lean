/-
# Tokenisers

`flopstrtok` and `flopstrtok_r` of `src/lib/str.c`.  They do the same from the pointer that they go
on from (`scanToken`), and differ in where they keep it: one in a variable of the file, the other
behind a pointer of the caller.

| source | here |
| --- | --- |
| `flopstrtok_next`, `*saveptr` | `Tok.next`, `Tok.save`; `NULL` is `0` |
| `while (*str && flopstrchr(delim, *str)) str++;` | `scanWhile (skips delim)` |
| a caller of `flopstrtok`, or of `flopstrtok_r` with save pointer `k` | `none`, `some k` |
| `NULL` is followed | the result is `none` |

Any number of callers take turns, each with a string of its own (`TokRun.step`).  Behind the last
token both keep `NULL`.  `flopstrtok` then returns `NULL` for every further call; `flopstrtok_r` does
not ask, and reads the character at `NULL` (`tokenises_iff`).
-/

import Flopperating.Lib.StrSplit

namespace Flopperating

open Fields TracedMemory

variable {ι : Type}

/-- `*str && flopstrchr(delim, *str)` -/
def skips (delim : CString) (c : UInt8) : Bool := c ≠ 0 && (flopstrchr delim c).isSome

/-- `*str && !flopstrchr(delim, *str)` -/
def takes (delim : CString) (c : UInt8) : Bool := c ≠ 0 && !(flopstrchr delim c).isSome

/-- `while (cond(*str)) str++;`, which is given as many rounds as there are addresses. -/
def scanWhile (cond : UInt8 → Bool) (str : ℕ) (m : CharArray) : Option (ℕ × CharArray) :=
  (loadUntil (fun c => !cond c) id str (2 ^ 32) m).1.map fun k =>
    (str + k, (loadUntil (fun c => !cond c) id str (2 ^ 32) m).2)

/-- What both do from `str` on: the token and where to go on, or that there is none. -/
def scanToken (delim : CString) (str : ℕ) (m : CharArray) : Option (Option (ℕ × ℕ) × CharArray) :=
  (scanWhile (skips delim) str m).bind fun r =>
    if r.2.value r.1 = 0 then some (none, r.2)
    else (scanWhile (takes delim) r.1 r.2).map fun q =>
      if q.2.value q.1 ≠ 0 then (some (r.1, q.1 + 1), q.2.store q.1 0) else (some (r.1, q.1), q.2)

/-- The memory with the strings, `flopstrtok_next` and the save pointers. -/
structure Tok (ι : Type) where
  mem : CharArray
  next : ℕ
  save : ι → ℕ

/-- The pointer that is returned. -/
def tokenStart (o : Option (ℕ × ℕ)) : ℕ := (o.map Prod.fst).getD 0

/-- The pointer that is kept. -/
def resume (o : Option (ℕ × ℕ)) : ℕ := (o.map Prod.snd).getD 0

/-- `flopstrtok`. -/
def flopstrtok (str : ℕ) (delim : CString) (σ : Tok ι) : Option (ℕ × Tok ι) :=
  if (if str ≠ 0 then str else σ.next) = 0 then some (0, σ)
  else (scanToken delim (if str ≠ 0 then str else σ.next) σ.mem).map fun r =>
    (tokenStart r.1, { σ with mem := r.2, next := resume r.1 })

/-- `flopstrtok_r`, which follows the pointer without asking for `NULL`. -/
def flopstrtokR [DecidableEq ι] (str : ℕ) (delim : CString) (saveptr : ι) (σ : Tok ι) : Option (ℕ × Tok ι) :=
  if (if str = 0 then σ.save saveptr else str) = 0 then none
  else (scanToken delim (if str = 0 then σ.save saveptr else str) σ.mem).map fun r =>
    (tokenStart r.1, { σ with mem := r.2, save := Function.update σ.save saveptr (resume r.1) })

/-! ### Callers that take turns -/

/-- The string of a caller, and what delimits its tokens. -/
structure TokCaller where
  start : ℕ
  text : CString
  delim : CString

/-- What the callers got, and the addresses that their calls accessed. -/
structure TokRun (ι : Type) where
  tok : Tok ι
  results : Option ι → List (Option CString)
  accessed : Option ι → List ℕ

/-- The string that a pointer leads to. -/
def stringAt (m : CharArray) (p : ℕ) : Option CString := if p = 0 then none else some (textFrom m.value (2 ^ 32) p)

variable [DecidableEq ι]

/-- The call of a caller. -/
def Tok.call (c : Option ι) (str : ℕ) (delim : CString) (σ : Tok ι) : Option (ℕ × Tok ι) :=
  match c with
  | none => flopstrtok str delim σ
  | some k => flopstrtokR str delim k σ

/-- A caller calls, the first time with its string and then with `NULL`. -/
def TokRun.step (callers : Option ι → TokCaller) (ρ : TokRun ι) (c : Option ι) : Option (TokRun ι) :=
  (Tok.call c (if ρ.results c = [] then (callers c).start else 0) (callers c).delim
    { ρ.tok with mem := .fresh ρ.tok.mem.value }).map fun r =>
      ⟨r.2, Function.update ρ.results c (ρ.results c ++ [stringAt r.2.mem r.1]),
        Function.update ρ.accessed c (ρ.accessed c ++ r.2.mem.touched)⟩

/-- Before the first call. -/
def Tok.start (σ : Tok ι) : TokRun ι := ⟨σ, fun _ => [], fun _ => []⟩

/-- The strings are in memory, apart from each other. -/
structure Laid (callers : Option ι → TokCaller) (a : ℕ → UInt8) : Prop where
  pos : ∀ c, 0 < (callers c).start
  fits : ∀ c, (callers c).start + (callers c).text.length < 2 ^ 32
  holds : ∀ c, HoldsAt a (callers c).start (callers c).text
  apart : ∀ c c', c ≠ c' → (callers c).start + (callers c).text.length < (callers c').start ∨
    (callers c').start + (callers c').text.length < (callers c).start

/-- The maximal parts of the string without delimiters. -/
def TokCaller.words (c : TokCaller) : List CString := Fields.words (isDelim c.delim) c.text

/-- Every caller gets its tokens and then `NULL`, and its calls access nothing but its string. -/
def Tokenises (callers : Option ι → TokCaller) (σ : Tok ι) (cs : List (Option ι)) : Prop :=
  ∃ ρ, cs.foldlM (TokRun.step callers) σ.start = some ρ ∧ ∀ c,
    ρ.results c = (List.range (cs.count c)).map (fun i => (callers c).words[i]?) ∧
    ∀ a ∈ ρ.accessed c, (callers c).start ≤ a ∧ a ≤ (callers c).start + (callers c).text.length

variable {delim s rest front back w r : CString} {c d : CChar} {m m' : CharArray} {a : ℕ → UInt8} {p q n str : ℕ}
  {cond : UInt8 → Bool} {σ : Tok ι} {callers : Option ι → TokCaller} {cs : List (Option ι)} {ρ ρ' : TokRun ι}

/-! ### A scan -/

theorem skips_val : skips delim c.1 = isDelim delim c := by
  rw [skips, decide_eq_true c.2, Bool.true_and]
  rfl

theorem takes_val : takes delim c.1 = !isDelim delim c := by
  rw [takes, decide_eq_true c.2, Bool.true_and]
  rfl

/-- The loop stops behind the characters with the condition. -/
theorem scanWhile_eq (h : HoldsAt m.value p (front ++ back)) (hlen : front.length < 2 ^ 32)
    (hfront : ∀ c ∈ front, cond c.1 = true) (hback : cond (charAt back) = false) :
    ∃ m', scanWhile cond p m = some (p + front.length, m') ∧ m'.value = m.value ∧
      ∀ a ∈ m'.touched, a ∈ m.touched ∨ p ≤ a ∧ a ≤ p + front.length := by
  have hstop : (!cond (m.value (p + front.length))) = true := by
    rw [h front.length (by rw [List.length_append]; omega), List.drop_left, hback]
    rfl
  have hbefore : ∀ j < front.length, (!cond (m.value (p + j))) = false := by
    intro j hj
    rw [h j (by rw [List.length_append]; omega), charAt_drop_of_lt (by rw [List.length_append]; omega),
      List.getElem_append_left hj, hfront _ (List.getElem_mem hj)]
    rfl
  obtain ⟨m', hrun, hvalue, htouched⟩ : ∃ m', loadUntil (fun c => !cond c) id p (2 ^ 32) m = (some front.length, m') ∧
      m'.value = m.value ∧ ∀ a ∈ m'.touched, a ∈ m.touched ∨ ∃ j ≤ front.length, a = id (p + j) :=
    loadUntil_eq hlen hstop hbefore
  refine ⟨m', by rw [scanWhile, hrun]; rfl, hvalue, fun a ha => ?_⟩
  rcases htouched a ha with ha | ⟨j, hj, rfl⟩
  · exact .inl ha
  · exact .inr ⟨Nat.le_add_right p j, Nat.add_le_add_left hj p⟩

/-- What a scan of the string `rest` at `p` does. -/
structure Scanned (delim : CString) (p : ℕ) (rest : CString) (m : CharArray) (o : Option (ℕ × ℕ)) (m' : CharArray) :
    Prop where
  touched : ∀ a ∈ m'.touched, a ∈ m.touched ∨ p ≤ a ∧ a ≤ p + rest.length
  kept : ∀ a, a < p ∨ p + rest.length < a → m'.value a = m.value a
  found : o = none ∧ Fields.words (isDelim delim) rest = [] ∨
    ∃ t q w rest', o = some (t, q) ∧ Fields.words (isDelim delim) rest = w :: Fields.words (isDelim delim) rest' ∧
      p ≤ t ∧ t + w.length ≤ p + rest.length ∧ HoldsAt m'.value t w ∧
      p ≤ q ∧ q + rest'.length = p + rest.length ∧ HoldsAt m'.value q rest'

/-- The string without its first part, and that part with a `NUL` behind it. -/
theorem HoldsAt.split (h : HoldsAt a p (w ++ d :: r)) :
    HoldsAt (Function.update a (p + w.length) 0) p w ∧ HoldsAt (Function.update a (p + w.length) 0) (p + w.length + 1) r := by
  constructor
  · intro i hi
    rcases Nat.lt_or_eq_of_le hi with hlt | rfl
    · rw [Function.update_of_ne (by omega), h i (by rw [List.length_append]; omega), charAt_drop_of_lt hlt,
        charAt_drop_of_lt (by rw [List.length_append]; omega), List.getElem_append_left hlt]
    · rw [Function.update_self, List.drop_length]
      rfl
  · have hlen : w.length + 1 ≤ (w ++ d :: r).length := by
      rw [List.length_append, List.length_cons]
      omega
    have hr := h.drop hlen
    rw [List.drop_append, List.drop_eq_nil_of_le (Nat.le_succ _), Nat.add_sub_cancel_left, List.nil_append, List.drop_one,
      List.tail_cons, ← Nat.add_assoc] at hr
    exact hr.congr fun i _ => Function.update_of_ne (by omega) _ _

theorem skips_charAt_append (hne : w ≠ []) (hw : Free (isDelim delim) w) : skips delim (charAt (w ++ r)) = false := by
  rcases w with - | ⟨c, w⟩
  · exact absurd rfl hne
  · exact skips_val.trans (hw c List.mem_cons_self)

/-- A scan that finds the word `w`. -/
theorem scanToken_of_word (h : HoldsAt m.value p (front ++ (w ++ back))) (hlen : (front ++ (w ++ back)).length < 2 ^ 32)
    (hfront : ∀ c ∈ front, isDelim delim c = true) (hne : w ≠ []) (hw : Free (isDelim delim) w)
    (hback : takes delim (charAt back) = false) :
    ∃ m', scanToken delim p m = some (if charAt back ≠ 0
        then (some (p + front.length, p + front.length + w.length + 1), m'.store (p + front.length + w.length) 0)
        else (some (p + front.length, p + front.length + w.length), m')) ∧ m'.value = m.value ∧
      ∀ a ∈ m'.touched, a ∈ m.touched ∨ p ≤ a ∧ a ≤ p + (front ++ (w ++ back)).length := by
  rw [List.length_append, List.length_append] at hlen
  obtain ⟨m₁, hskip, hvalue₁, htouched₁⟩ := scanWhile_eq (m := m) h (by omega) (fun c hc => skips_val.trans (hfront c hc))
    (skips_charAt_append hne hw)
  have hrest : HoldsAt m₁.value (p + front.length) (w ++ back) := by
    have hdrop := h.drop (i := front.length) (by rw [List.length_append]; omega)
    rwa [List.drop_left, ← hvalue₁] at hdrop
  obtain ⟨m₂, htake, hvalue₂, htouched₂⟩ := scanWhile_eq (m := m₁) hrest (by omega)
    (fun c hc => by rw [takes_val, hw c hc]; rfl) hback
  have hhead : m₁.value (p + front.length) = charAt (w ++ back) := hrest 0 (Nat.zero_le _)
  have hstart : charAt (w ++ back) ≠ 0 := charAt_drop_ne_zero (i := 0) (by
    rw [List.length_append]
    exact Nat.add_pos_left (List.length_pos_iff.2 hne) _)
  have hstop : m₂.value (p + front.length + w.length) = charAt back := by
    rw [hvalue₂, hrest w.length (by rw [List.length_append]; omega), List.drop_left]
  refine ⟨m₂, ?_, hvalue₂.trans hvalue₁, fun a ha => ?_⟩
  · rw [scanToken, hskip, Option.bind_some, hhead, if_neg hstart, htake, Option.map_some, hstop]
  · rw [List.length_append, List.length_append]
    rcases htouched₂ a ha with ha | ha
    · rcases htouched₁ a ha with ha | ha
      · exact .inl ha
      · exact .inr (by omega)
    · exact .inr (by omega)

/-- **What both tokenisers do with a string.** -/
theorem scanToken_spec (h : HoldsAt m.value p rest) (hlen : rest.length < 2 ^ 32) :
    ∃ o m', scanToken delim p m = some (o, m') ∧ Scanned delim p rest m o m' := by
  cases firstWord (isDelim delim) rest with
  | none _ hs =>
    have hall : HoldsAt m.value p (rest ++ []) := by rwa [List.append_nil]
    obtain ⟨m', hscan, hvalue, htouched⟩ := scanWhile_eq hall hlen (fun c hc => skips_val.trans (hs c hc)) rfl
    have hend : m'.value (p + rest.length) = 0 := by
      rw [hvalue, h rest.length le_rfl, List.drop_length]
      rfl
    refine ⟨none, m', ?_, htouched, fun a _ => congrFun hvalue a, .inl ⟨rfl, ?_⟩⟩
    · rw [scanToken, hscan, Option.bind_some, if_pos hend]
    · have hwords := words_append_of_forall (s := []) hs
      rwa [List.append_nil] at hwords
  | last front w hfront hne hw =>
    have hw' : front ++ (w ++ []) = front ++ w := by rw [List.append_nil]
    obtain ⟨m', hscan, hvalue, htouched⟩ := scanToken_of_word (hw' ▸ h) (hw' ▸ hlen) hfront hne hw rfl
    rw [hw'] at htouched
    have hholds := h.drop (i := front.length) (by rw [List.length_append]; omega)
    rw [List.drop_left, ← hvalue] at hholds
    refine ⟨_, m', hscan, htouched, fun a _ => congrFun hvalue a, .inr ⟨_, _, w, [], rfl, ?_, ?_, ?_, hholds, ?_, ?_, ?_⟩⟩
    · rw [words_append_of_forall hfront, words_of_free hne hw]
      rfl
    · exact Nat.le_add_right _ _
    · rw [List.length_append, Nat.add_assoc]
    · omega
    · rw [List.length_append, List.length_nil]
      omega
    · have hend := hholds.drop le_rfl
      rwa [List.drop_length] at hend
  | more front w d r hfront hne hw hd =>
    obtain ⟨m', hscan, hvalue, htouched⟩ := scanToken_of_word h hlen hfront hne hw
      (show takes delim d.1 = false by rw [takes_val, hd]; rfl)
    rw [if_pos (show charAt (d :: r) ≠ 0 from d.2)] at hscan
    have hholds := h.drop (i := front.length) (by rw [List.length_append]; omega)
    rw [List.drop_left, ← hvalue] at hholds
    obtain ⟨hword, hafter⟩ := hholds.split
    refine ⟨_, _, hscan, fun a ha => ?_, fun a ha => ?_, .inr ⟨_, _, w, r, rfl, ?_, ?_, ?_, hword, ?_, ?_, hafter⟩⟩
    · rcases List.mem_cons.1 ha with rfl | ha
      · rw [List.length_append, List.length_append]
        exact .inr (by omega)
      · exact htouched a ha
    · rw [List.length_append, List.length_append, List.length_cons] at ha
      exact (Function.update_of_ne (by omega) _ _).trans (congrFun hvalue a)
    · rw [words_append_of_forall hfront, words_append hne hw hd]
    · exact Nat.le_add_right _ _
    · rw [List.length_append, List.length_append]
      omega
    · omega
    · rw [List.length_append, List.length_append, List.length_cons]
      omega

/-! ### A call -/

/-- The pointer that a caller's next call goes on from. -/
def Tok.pointer (σ : Tok ι) : Option ι → ℕ
  | none => σ.next
  | some k => σ.save k

/-- The state with other memory and another pointer for a caller. -/
def Tok.moved (σ : Tok ι) (m : CharArray) (p : ℕ) : Option ι → Tok ι
  | none => { σ with mem := m, next := p }
  | some k => { σ with mem := m, save := Function.update σ.save k p }

theorem Tok.moved_mem (c : Option ι) : (σ.moved m p c).mem = m := by
  cases c <;> rfl

theorem Tok.pointer_moved (c : Option ι) : (σ.moved m p c).pointer c = p := by
  cases c with
  | none => rfl
  | some k => exact Function.update_self ..

theorem Tok.pointer_moved_of_ne {c c' : Option ι} (h : c' ≠ c) : (σ.moved m p c).pointer c' = σ.pointer c' := by
  cases c with
  | none =>
    cases c' with
    | none => exact absurd rfl h
    | some k => rfl
  | some k =>
    cases c' with
    | none => rfl
    | some k' => exact Function.update_of_ne (fun heq => h (congrArg some heq)) _ _

/-- The string that is given, or else the pointer. -/
def Tok.origin (σ : Tok ι) (c : Option ι) (str : ℕ) : ℕ := if str = 0 then σ.pointer c else str

theorem Tok.call_eq {c : Option ι} (h : σ.origin c str ≠ 0) : Tok.call c str delim σ =
    (scanToken delim (σ.origin c str) σ.mem).map fun r => (tokenStart r.1, σ.moved r.2 (resume r.1) c) := by
  cases c with
  | none =>
    have hstr : (if str ≠ 0 then str else σ.next) = σ.origin none str := ite_not _ _ _
    show flopstrtok str delim σ = _
    rw [flopstrtok, hstr, if_neg h]
    rfl
  | some k => exact if_neg h

/-- `flopstrtok` asks for `NULL`. -/
theorem Tok.call_none (h : σ.origin none str = 0) : Tok.call none str delim σ = some (0, σ) := by
  have hstr : (if str ≠ 0 then str else σ.next) = σ.origin none str := ite_not _ _ _
  show flopstrtok str delim σ = _
  rw [flopstrtok, hstr, if_pos h]

/-- `flopstrtok_r` does not. -/
theorem Tok.call_some {k : ι} (h : σ.origin (some k) str = 0) : Tok.call (some k) str delim σ = none := if_pos h

/-! ### A run -/

/-- Behind `n` tokens, what is left of the string is at `p`. -/
def TokCaller.Reads (c : TokCaller) (n : ℕ) (a : ℕ → UInt8) (p : ℕ) : Prop :=
  ∃ rest, HoldsAt a p rest ∧ c.start ≤ p ∧ p + rest.length = c.start + c.text.length ∧
    Fields.words (isDelim c.delim) rest = c.words.drop n

/-- **What holds after the calls `cs`**: each caller has a pointer to what is left of its string, or
`NULL` when it has been told that there is no further token. -/
structure TokInv (callers : Option ι → TokCaller) (cs : List (Option ι)) (ρ : TokRun ι) : Prop where
  reads : ∀ c, cs.count c ≤ (callers c).words.length → (callers c).Reads (cs.count c) ρ.tok.mem.value
    (if cs.count c = 0 then (callers c).start else ρ.tok.pointer c)
  ended : ∀ c, (callers c).words.length < cs.count c → ρ.tok.pointer c = 0
  results : ∀ c, ρ.results c = (List.range (cs.count c)).map fun i => (callers c).words[i]?
  accessed : ∀ c, ∀ a ∈ ρ.accessed c, (callers c).start ≤ a ∧ a ≤ (callers c).start + (callers c).text.length

/-- What a call stores is no part of the others' strings. -/
theorem TokCaller.Reads.congr {c : TokCaller} {b : ℕ → UInt8} (h : c.Reads n a p)
    (hkept : ∀ x, c.start ≤ x → x ≤ c.start + c.text.length → b x = a x) : c.Reads n b p := by
  obtain ⟨rest, hholds, hstart, hend, hwords⟩ := h
  exact ⟨rest, hholds.congr fun i hi => hkept _ (by omega) (by omega), hstart, hend, hwords⟩

theorem TokInv.init (hlaid : Laid callers σ.mem.value) : TokInv callers [] σ.start where
  reads c _ := ⟨(callers c).text, hlaid.holds c, le_rfl, rfl, rfl⟩
  ended _ h := absurd h (Nat.not_lt_zero _)
  results _ := rfl
  accessed _ _ ha := absurd ha List.not_mem_nil

theorem count_concat_self {c : Option ι} : (cs ++ [c]).count c = cs.count c + 1 := by simp

theorem count_concat_of_ne {c c' : Option ι} (h : c' ≠ c) : (cs ++ [c]).count c' = cs.count c' := by simp [h.symm]

/-- The next result of a caller, and what its call accessed. -/
theorem TokInv.record {c : Option ι} {o : Option CString} {l : List ℕ} {τ : Tok ι} (hI : TokInv callers cs ρ)
    (ho : o = (callers c).words[cs.count c]?)
    (hl : ∀ a ∈ l, (callers c).start ≤ a ∧ a ≤ (callers c).start + (callers c).text.length)
    (hreads : ∀ c', (cs ++ [c]).count c' ≤ (callers c').words.length → (callers c').Reads ((cs ++ [c]).count c') τ.mem.value
      (if (cs ++ [c]).count c' = 0 then (callers c').start else τ.pointer c'))
    (hended : ∀ c', (callers c').words.length < (cs ++ [c]).count c' → τ.pointer c' = 0) :
    TokInv callers (cs ++ [c]) ⟨τ, Function.update ρ.results c (ρ.results c ++ [o]),
      Function.update ρ.accessed c (ρ.accessed c ++ l)⟩ where
  reads := hreads
  ended := hended
  results c' := by
    rcases eq_or_ne c' c with rfl | hne
    · rw [count_concat_self, List.range_succ, List.map_append, ← hI.results c', ho]
      exact Function.update_self ..
    · rw [count_concat_of_ne hne, ← hI.results c']
      exact Function.update_of_ne hne _ _
  accessed c' a ha := by
    rcases eq_or_ne c' c with rfl | hne
    · have ha : a ∈ Function.update ρ.accessed c' (ρ.accessed c' ++ l) c' := ha
      rw [Function.update_self] at ha
      exact (List.mem_append.1 ha).elim (hI.accessed c' a) (hl a)
    · have ha : a ∈ Function.update ρ.accessed c (ρ.accessed c ++ l) c' := ha
      rw [Function.update_of_ne hne] at ha
      exact hI.accessed c' a ha

/-- The memory of a call, with none of it accessed yet. -/
def TokRun.ready (ρ : TokRun ι) : Tok ι := { ρ.tok with mem := .fresh ρ.tok.mem.value }

omit [DecidableEq ι] in
theorem TokRun.pointer_ready (ρ : TokRun ι) (c : Option ι) : ρ.ready.pointer c = ρ.tok.pointer c := by
  cases c <;> rfl

/-- The pointer that a call goes on from. -/
theorem TokInv.step_eq (hI : TokInv callers cs ρ) (hpos : ∀ c, 0 < (callers c).start) (c : Option ι) :
    ∃ str, ρ.ready.origin c str = (if cs.count c = 0 then (callers c).start else ρ.tok.pointer c) ∧
      TokRun.step callers ρ c = (Tok.call c str (callers c).delim ρ.ready).map fun r =>
        ⟨r.2, Function.update ρ.results c (ρ.results c ++ [stringAt r.2.mem r.1]),
          Function.update ρ.accessed c (ρ.accessed c ++ r.2.mem.touched)⟩ := by
  refine ⟨_, ?_, rfl⟩
  have hresults := hI.results c
  by_cases hzero : cs.count c = 0
  · have hnil : ρ.results c = [] := by
      rw [hresults, hzero]
      rfl
    rw [if_pos hzero, if_pos hnil]
    exact if_neg (hpos c).ne'
  · have hne : ρ.results c ≠ [] := by
      rw [hresults]
      exact fun hnil => hzero (by simpa using congrArg List.length hnil)
    rw [if_neg hzero, if_neg hne]
    exact (if_pos rfl).trans (ρ.pointer_ready c)

/-- **A call while the string is read** gives the next token, or `NULL` behind the last one. -/
theorem TokInv.step_reads {c : Option ι} (hlaid : Laid callers a) (hI : TokInv callers cs ρ)
    (hle : cs.count c ≤ (callers c).words.length) :
    ∃ ρ', TokRun.step callers ρ c = some ρ' ∧ TokInv callers (cs ++ [c]) ρ' := by
  obtain ⟨str, horigin, hstep⟩ := hI.step_eq hlaid.pos c
  obtain ⟨rest, hholds, hstart, hend, hwords⟩ := hI.reads c hle
  have hpos := hlaid.pos c
  have hfits := hlaid.fits c
  generalize hP : (if cs.count c = 0 then (callers c).start else ρ.tok.pointer c) = P at *
  obtain ⟨o, m', hscan, hscanned⟩ : ∃ o m', scanToken (callers c).delim P ρ.ready.mem = some (o, m') ∧
      Scanned (callers c).delim P rest ρ.ready.mem o m' := scanToken_spec hholds (by omega)
  have hcall : Tok.call c str (callers c).delim ρ.ready = some (tokenStart o, ρ.ready.moved m' (resume o) c) := by
    rw [Tok.call_eq (by omega), horigin, hscan]
    rfl
  rw [hstep, hcall]
  refine ⟨_, rfl, hI.record ?_ (fun x hx => ?_) (fun c' hle' => ?_) fun c' hlt => ?_⟩
  · rw [Tok.moved_mem]
    rcases hscanned.found with ⟨rfl, hnone⟩ | ⟨t, q, w, rest', rfl, hfound, hPt, hw, hword, -⟩
    · rw [hnone] at hwords
      exact (List.getElem?_eq_none (List.drop_eq_nil_iff.1 hwords.symm)).symm
    · rw [hfound] at hwords
      have hget : (callers c).words[cs.count c]? = some w := by
        rw [← List.head?_drop, ← hwords]
        rfl
      have htext : textFrom m'.value (2 ^ 32) t = w := textFrom_eq hword (by omega)
      rw [hget, ← htext]
      exact if_neg (show t ≠ 0 by omega)
  · rw [Tok.moved_mem] at hx
    have := (hscanned.touched x hx).resolve_left List.not_mem_nil
    omega
  · rw [Tok.moved_mem]
    rcases eq_or_ne c' c with rfl | hne
    · rw [count_concat_self] at hle' ⊢
      rw [if_neg (Nat.succ_ne_zero _), Tok.pointer_moved]
      rcases hscanned.found with ⟨rfl, hnone⟩ | ⟨t, q, w, rest', rfl, hfound, hPt, hw, hword, hPq, hq, hrest⟩
      · rw [hnone] at hwords
        exact absurd (List.drop_eq_nil_iff.1 hwords.symm) (by omega)
      · rw [hfound] at hwords
        refine ⟨rest', hrest, hstart.trans hPq, hq.trans hend, ?_⟩
        rw [← List.drop_drop, ← hwords]
        rfl
    · rw [count_concat_of_ne hne] at hle' ⊢
      rw [Tok.pointer_moved_of_ne hne, TokRun.pointer_ready]
      refine (hI.reads c' hle').congr fun x hlow hhigh => hscanned.kept x ?_
      have := hlaid.apart c c' hne.symm
      omega
  · rcases eq_or_ne c' c with rfl | hne
    · rw [count_concat_self] at hlt
      rw [Tok.pointer_moved]
      rcases hscanned.found with ⟨rfl, -⟩ | ⟨t, q, w, rest', rfl, hfound, -⟩
      · rfl
      · rw [hfound] at hwords
        have := congrArg List.length hwords
        rw [List.length_cons, List.length_drop] at this
        omega
    · rw [count_concat_of_ne hne] at hlt
      rw [Tok.pointer_moved_of_ne hne, TokRun.pointer_ready]
      exact hI.ended c' hlt

/-- **A further call** of `flopstrtok` gives `NULL` again; one of `flopstrtok_r` follows it. -/
theorem TokInv.step_ended {c : Option ι} (hpos : ∀ c, 0 < (callers c).start) (hI : TokInv callers cs ρ)
    (hlt : (callers c).words.length < cs.count c) :
    (c = none ∧ ∃ ρ', TokRun.step callers ρ c = some ρ' ∧ TokInv callers (cs ++ [c]) ρ') ∨
      (∃ k, c = some k) ∧ TokRun.step callers ρ c = none := by
  obtain ⟨str, horigin, hstep⟩ := hI.step_eq hpos c
  rw [if_neg (Nat.ne_zero_of_lt hlt), hI.ended c hlt] at horigin
  cases c with
  | some k =>
    rw [hstep, Tok.call_some horigin]
    exact .inr ⟨⟨k, rfl⟩, rfl⟩
  | none =>
    rw [hstep, Tok.call_none horigin]
    refine .inl ⟨rfl, _, rfl, hI.record ?_ (fun x hx => absurd hx List.not_mem_nil) (fun c' hle' => ?_) fun c' hlt' => ?_⟩
    · exact (List.getElem?_eq_none hlt.le).symm
    · rcases eq_or_ne c' none with rfl | hne
      · rw [count_concat_self] at hle'
        omega
      · rw [count_concat_of_ne hne] at hle' ⊢
        rw [TokRun.pointer_ready]
        exact hI.reads c' hle'
    · rw [TokRun.pointer_ready]
      rcases eq_or_ne c' none with rfl | hne
      · exact hI.ended none hlt
      · rw [count_concat_of_ne hne] at hlt'
        exact hI.ended c' hlt'

/-- The calls of `flopstrtok_r` go no further than one behind the last token. -/
def WithinTokens (callers : Option ι → TokCaller) (cs : List (Option ι)) : Prop :=
  ∀ k : ι, cs.count (some k) ≤ (callers (some k)).words.length + 1

theorem WithinTokens.of_append {c : Option ι} (h : WithinTokens callers (cs ++ [c])) : WithinTokens callers cs :=
  fun k => ((List.sublist_append_left cs [c]).count_le (some k)).trans (h k)

/-- Such a run does not fail. -/
theorem run_of_within (hlaid : Laid callers σ.mem.value) (h : WithinTokens callers cs) :
    ∃ ρ, cs.foldlM (TokRun.step callers) σ.start = some ρ ∧ TokInv callers cs ρ := by
  induction cs using List.reverseRecOn with
  | nil => exact ⟨_, rfl, .init hlaid⟩
  | append_singleton cs c ih =>
    obtain ⟨ρ, hrun, hI⟩ := ih h.of_append
    rw [List.foldlM_append, hrun]
    obtain ⟨ρ', hstep, hI'⟩ : ∃ ρ', TokRun.step callers ρ c = some ρ' ∧ TokInv callers (cs ++ [c]) ρ' := by
      rcases Nat.lt_or_ge (callers c).words.length (cs.count c) with hlt | hle
      · rcases hI.step_ended hlaid.pos hlt with ⟨-, hok⟩ | ⟨⟨k, rfl⟩, -⟩
        · exact hok
        · have := h k
          rw [count_concat_self] at this
          omega
      · exact hI.step_reads hlaid hle
    refine ⟨ρ', ?_, hI'⟩
    show (List.foldlM (TokRun.step callers) ρ [c]) = some ρ'
    rw [List.foldlM_cons, hstep]
    rfl

/-- Every other run fails. -/
theorem within_of_run (hlaid : Laid callers σ.mem.value)
    (hrun : cs.foldlM (TokRun.step callers) σ.start = some ρ) : WithinTokens callers cs := by
  induction cs using List.reverseRecOn generalizing ρ with
  | nil => exact fun k => Nat.zero_le _
  | append_singleton cs c ih =>
    rw [List.foldlM_append] at hrun
    obtain ⟨ρ₀, hrun₀, hlast⟩ := Option.bind_eq_some_iff.1 hrun
    have hwithin := ih hrun₀
    obtain ⟨ρ₁, hrun₁, hI⟩ := run_of_within hlaid hwithin
    obtain rfl := Option.some.inj (hrun₀.symm.trans hrun₁)
    intro k
    by_cases hck : c = some k
    · rw [← hck, count_concat_self, hck]
      by_contra hover
      have hlt : (callers c).words.length < cs.count c := by
        rw [hck]
        omega
      rcases hI.step_ended hlaid.pos hlt with ⟨hnone, -⟩ | ⟨-, hfail⟩
      · exact Option.some_ne_none k (hck.symm.trans hnone)
      · rw [List.foldlM_cons, hfail] at hlast
        exact Option.some_ne_none ρ hlast.symm
    · rw [count_concat_of_ne (Ne.symm hck)]
      exact hwithin k

/-- **The tokenisers do what they are to do exactly when no call of `flopstrtok_r` comes after one that
returned `NULL`.** -/
theorem tokenises_iff (hlaid : Laid callers σ.mem.value) : Tokenises callers σ cs ↔ WithinTokens callers cs := by
  constructor
  · rintro ⟨ρ, hrun, -⟩
    exact within_of_run hlaid hrun
  · intro h
    obtain ⟨ρ, hrun, hI⟩ := run_of_within hlaid h
    exact ⟨ρ, hrun, fun c => ⟨hI.results c, hI.accessed c⟩⟩

/-- Two callers, each with `"a b"` in memory. -/
def twoCallers (c : Option Unit) : TokCaller := ⟨if c = none then 0x100 else 0x200, ascii "a b", ascii " "⟩

def twoStrings : Tok Unit :=
  ⟨.fresh fun x => if x % 0x100 = 0 then 97 else if x % 0x100 = 1 then 32 else if x % 0x100 = 2 then 98 else 0, 0, fun _ => 0⟩

theorem laid_twoCallers : Laid twoCallers twoStrings.mem.value where
  pos c := by
    cases c with
    | none => decide
    | some _ => exact show 0 < (twoCallers (some ())).start by decide
  fits c := by
    cases c with
    | none => decide
    | some _ => exact show 0x200 + (ascii "a b").length < 2 ^ 32 by decide
  holds c := by
    cases c with
    | none => decide
    | some _ => exact show HoldsAt twoStrings.mem.value 0x200 (ascii "a b") by decide
  apart c c' hne := by
    cases c with
    | none =>
      cases c' with
      | none => exact absurd rfl hne
      | some _ => exact .inl (show 0x100 + (ascii "a b").length < 0x200 by decide)
    | some _ =>
      cases c' with
      | none => exact .inr (show 0x100 + (ascii "a b").length < 0x200 by decide)
      | some _ => exact absurd rfl hne

theorem tokenises_turns : Tokenises twoCallers twoStrings [none, some (), none, some (), some (), none, none] :=
  (tokenises_iff laid_twoCallers).2 (by rintro ⟨⟩; decide)

/-- A fourth call of `flopstrtok_r` for `"a b"`. -/
theorem not_tokenises_fourth : ¬ Tokenises twoCallers twoStrings [some (), some (), some (), some ()] := by
  rintro ⟨ρ, hrun, -⟩
  exact absurd (within_of_run laid_twoCallers hrun ()) (by decide)

end Flopperating
