/-
# Lists that share a link

All lists of threads go through the one field `next`, so what is done with one list may break
another.  Here the lists are looked at together: `Members` says which threads each list should
hold, `Sched.InOrder` that the lists are so.  An operation on a list writes some links
(`ThreadOp.writes`); every list that holds one of these threads needs a link of its own there,
and the lists stay in order if each link that is written is the one that they need
(`ThreadOp.Fits`).
-/

import Flopperating.Task.SchedSpec

namespace Flopperating

open LinkedList ThreadList

/-- The threads that each list should hold, in their order. -/
abbrev Members := ListName → List ℕ

/-- What is done with the lists. -/
inductive ThreadOp
  | add (name : ListName) (t : ℕ)
  /-- A new thread goes to the list of its process and to `sched.user_threads`. -/
  | create (p t : ℕ)
  | remove (name : ListName) (t : ℕ)
  /-- The head and the tail of the list of a process are set to `NULL`. -/
  | clear (p : ℕ)

/-- The threads after an operation. -/
def Members.apply (G : Members) : ThreadOp → Members
  | .add name t => Function.update G name (G name ++ [t])
  | .create p t => Function.update (Function.update G (.threads p) (G (.threads p) ++ [t]))
      .userThreads (G .userThreads ++ [t])
  | .remove name t => Function.update G name ((G name).erase t)
  | .clear p => Function.update G (.threads p) []

namespace ThreadOp

/-- `tail->next = t`. -/
def writesTail (l : List ℕ) (t : ℕ) : List (ℕ × Option ℕ) := l.getLast?.toList.map fun u => (u, some t)

/-- The threads whose link an operation writes, with the link. -/
def writes (G : Members) : ThreadOp → List (ℕ × Option ℕ)
  | add name t => (t, none) :: writesTail (G name) t
  | create p t => (t, none) :: (writesTail (G (.threads p)) t ++ writesTail (G .userThreads) t)
  | remove name t =>
    (t, none) :: (nodeBefore t (G name)).toList.map fun u => (u, nodeAfter t (G name))
  | clear _ => []

/-- The thread is new to a list that it goes to, and in the list that it goes out of. -/
def Allowed (G : Members) : ThreadOp → Prop
  | add name t => t ∉ G name
  | create p t => t ∉ G (.threads p) ∧ t ∉ G .userThreads
  | remove name t => t ∈ G name
  | clear _ => True

/-- The counts of the lists that a thread goes to have room. -/
def Room (G : Members) : ThreadOp → Prop
  | add name _ => (G name).length + 1 < 2 ^ 32
  | create p _ => (G (.threads p)).length + 1 < 2 ^ 32 ∧ (G .userThreads).length + 1 < 2 ^ 32
  | remove _ _ => True
  | clear p => G (.threads p) = []

/-- Each link that is written is the one that each list with this thread needs, and the counts, if
they count, have room. -/
def Fits (tracked : ListName → Prop) (counted : Prop) (G : Members) (op : ThreadOp) : Prop :=
  op.Allowed G ∧ (counted → op.Room G) ∧ ∀ w ∈ op.writes G, ∀ L, tracked L → w.1 ∈ G.apply op L →
    nodeAfter w.1 (G.apply op L) = w.2

end ThreadOp

/-- The threads after some operations. -/
def Members.applyAll (G : Members) (ops : List ThreadOp) : Members := ops.foldl Members.apply G

theorem Members.applyAll_append (G : Members) (ops ops' : List ThreadOp) :
    G.applyAll (ops ++ ops') = (G.applyAll ops).applyAll ops' := List.foldl_append ..

/-- Each of the operations fits when its turn comes. -/
def FitsAll (tracked : ListName → Prop) (counted : Prop) : Members → List ThreadOp → Prop
  | _, [] => True
  | G, op :: ops => op.Fits tracked counted G ∧ FitsAll tracked counted (G.apply op) ops

theorem fitsAll_append {tracked : ListName → Prop} {counted : Prop} {G : Members} {ops ops' : List ThreadOp} :
    FitsAll tracked counted G (ops ++ ops') ↔ FitsAll tracked counted G ops ∧ FitsAll tracked counted (G.applyAll ops) ops' := by
  induction ops generalizing G with
  | nil => simp [FitsAll, Members.applyAll]
  | cons op ops ih =>
    rw [List.cons_append, FitsAll, FitsAll, ih, and_assoc]
    rfl

/-- A list keeps its shape when each link that is written in one of its threads is the one that
was there. -/
theorem ThreadList.Shaped.of_writes {l : List ℕ} {list : ThreadList} {next next' : ℕ → Option ℕ}
    {W : List (ℕ × Option ℕ)} (h : Shaped l (list, next))
    (hout : ∀ x, (∀ w ∈ W, w.1 ≠ x) → next' x = next x) (hin : ∀ w ∈ W, next' w.1 = w.2)
    (hfit : ∀ w ∈ W, w.1 ∈ l → nodeAfter w.1 l = w.2) : Shaped l (list, next') := by
  refine h.congr fun x hx => ?_
  by_cases hw : ∀ w ∈ W, w.1 ≠ x
  · exact hout x hw
  · simp only [not_forall, not_not] at hw
    obtain ⟨w, hw, rfl⟩ := hw
    rw [hin w hw, ← hfit w hw hx]
    exact (h.chain.next_eq hx).symm

namespace Sched

variable {σ σ' : Sched} {tracked : ListName → Prop} {counted : Prop} {G : Members} {name : ListName}
  {t p : ℕ}

/-- The lists have the right shape and hold the threads they should. -/
structure InOrder (tracked : ListName → Prop) (counted : Prop) (G : Members) (σ : Sched) : Prop where
  shaped : ∀ L, tracked L → Shaped (G L) (σ.list L, σ.next)
  count : counted → ∀ L, tracked L → (σ.list L).count = (G L).length

theorem appendLinks_apply (o : Option ℕ) (next : ℕ → Option ℕ) (x : ℕ) :
    appendLinks t o next x = if o = some x then some t else if x = t then none else next x := by
  cases o with
  | none => simp [appendLinks, Function.update_apply]
  | some u => simp [appendLinks, Function.update_apply, eq_comm]

/-- The links that `append` leaves. -/
theorem appendLinks_spec {l : List ℕ} (ht : t ∉ l) (next : ℕ → Option ℕ) :
    (∀ x, (∀ w ∈ (t, none) :: ThreadOp.writesTail l t, w.1 ≠ x) →
      appendLinks t l.getLast? next x = next x) ∧
    ∀ w ∈ (t, none) :: ThreadOp.writesTail l t, appendLinks t l.getLast? next w.1 = w.2 := by
  unfold ThreadOp.writesTail
  cases hlast : l.getLast? with
  | none =>
    refine ⟨fun x hx => Function.update_of_ne (fun h => hx (t, none) (by simp) h.symm) _ _,
      fun w hw => ?_⟩
    obtain rfl : w = (t, none) := by simpa using hw
    exact Function.update_self ..
  | some u =>
    have hut : t ≠ u := fun h => ht (h ▸ List.mem_of_getLast? hlast)
    refine ⟨fun x hx => appendLinks_of_ne (fun h => hx (t, none) (by simp) h.symm)
      fun h => hx (u, some t) (by simp) (Option.some.inj h), fun w hw => ?_⟩
    obtain rfl | rfl : w = (t, none) ∨ w = (u, some t) := by simpa using hw
    · rw [appendLinks, Function.update_of_ne hut, Function.update_self]
    · exact Function.update_self ..

/-- A thread that is put behind two others. -/
theorem appendLinks_comm {o o' : Option ℕ} (ho : o ≠ some t) (ho' : o' ≠ some t)
    (next : ℕ → Option ℕ) :
    appendLinks t o (appendLinks t o' next) = appendLinks t o' (appendLinks t o next) := by
  funext x
  simp only [appendLinks_apply]
  by_cases hx : x = t
  · subst hx
    rw [if_neg ho, if_pos rfl, if_neg ho', if_pos rfl]
  · simp only [hx, if_false]
    split_ifs <;> rfl

/-- **Adding a thread** to a list. -/
theorem InOrder.add (h : InOrder tracked counted G σ) (hname : tracked name)
    (hrun : σ.onList? name (append t) = some σ') (hfits : (ThreadOp.add name t).Fits tracked counted G) :
    InOrder tracked counted (G.apply (.add name t)) σ' := by
  obtain ⟨ht, hroom, hwrites⟩ := hfits
  have hown := h.shaped name hname
  obtain ⟨s, hs, rfl⟩ := onList?_eq_some hrun
  rw [append_eq hown.chain.head_eq hown.tail] at hs
  obtain rfl := Option.some.inj hs
  obtain ⟨hout, hin⟩ := appendLinks_spec ht σ.next
  have hself : G.apply (.add name t) name = G name ++ [t] := Function.update_self ..
  have hsame : ∀ L, L ≠ name → G.apply (.add name t) L = G L :=
    fun L hL => Function.update_of_ne hL _ _
  constructor
  · intro L hL
    dsimp only
    by_cases hLn : L = name
    · subst hLn
      rw [hself, Function.update_self]
      exact hown.append ht
    · rw [hsame L hLn, Function.update_of_ne hLn]
      exact (h.shaped L hL).of_writes hout hin fun w hw => hsame L hLn ▸ hwrites w hw L hL
  · intro hc L hL
    dsimp only
    by_cases hLn : L = name
    · subst hLn
      rw [hself, Function.update_self, List.length_append]
      dsimp only
      rw [h.count hc L hL]
      exact u32_of_lt (hroom hc)
    · rw [hsame L hLn, Function.update_of_ne hLn]
      exact h.count hc L hL

/-- The links that `unlink` leaves. -/
theorem unlinkLinks_spec (name : ListName) {l : List ℕ} (ht : t ∈ l) {next : ℕ → Option ℕ} {head : Option ℕ}
    (hchain : Chain next head l) :
    (∀ x, (∀ w ∈ (ThreadOp.remove name t).writes (Function.update (fun _ => []) name l), w.1 ≠ x) →
      unlinkLinks t (nodeBefore t l) next x = next x) ∧
    ∀ w ∈ (ThreadOp.remove name t).writes (Function.update (fun _ => []) name l),
      unlinkLinks t (nodeBefore t l) next w.1 = w.2 := by
  obtain ⟨a, b, hab, rfl, -⟩ := List.exists_erase_eq ht
  rw [ThreadOp.writes, Function.update_self, nodeBefore_split hab]
  have hnext : next t = nodeAfter t (a ++ t :: b) := hchain.next_eq ht
  cases hlast : a.getLast? with
  | none =>
    refine ⟨fun x hx => Function.update_of_ne (fun h => hx (t, none) (by simp) h.symm) _ _,
      fun w hw => ?_⟩
    obtain rfl : w = (t, none) := by simpa using hw
    exact Function.update_self ..
  | some u =>
    have hut : u ≠ t := fun h => hab (h ▸ List.mem_of_getLast? hlast)
    refine ⟨fun x hx => unlinkLinks_of_ne (fun h => hx (t, none) (by simp) h.symm)
      fun h => hx (u, nodeAfter t (a ++ t :: b)) (by simp) (Option.some.inj h), fun w hw => ?_⟩
    obtain rfl | rfl : w = (t, none) ∨ w = (u, nodeAfter t (a ++ t :: b)) := by simpa using hw
    · exact Function.update_self ..
    · rw [unlinkLinks, Function.update_of_ne hut, Function.update_self, hnext]

/-- **Taking a thread** out of a list. -/
theorem InOrder.remove (h : InOrder tracked counted G σ) (hname : tracked name)
    (hfits : (ThreadOp.remove name t).Fits tracked counted G)
    (hnext : σ'.next = unlinkLinks t (nodeBefore t (G name)) σ.next)
    (hlist : σ'.list = Function.update σ.list name
      (unlink t (nodeBefore t (G name)) (σ.list name, σ.next)).1) :
    InOrder tracked counted (G.apply (.remove name t)) σ' := by
  obtain ⟨ht, -, hwrites⟩ := hfits
  have hown := h.shaped name hname
  obtain ⟨hout, hin⟩ := unlinkLinks_spec name ht hown.chain
  rw [show (ThreadOp.remove name t).writes (Function.update (fun _ => []) name (G name)) =
    (ThreadOp.remove name t).writes G by simp [ThreadOp.writes]] at hout hin
  have hself : G.apply (.remove name t) name = (G name).erase t := Function.update_self ..
  have hsame : ∀ L, L ≠ name → G.apply (.remove name t) L = G L :=
    fun L hL => Function.update_of_ne hL _ _
  constructor
  · intro L hL
    rw [hnext, hlist]
    by_cases hLn : L = name
    · subst hLn
      obtain ⟨a, b, hab, heq, herase⟩ := List.exists_erase_eq ht
      rw [heq] at hown
      rw [hself, Function.update_self, herase, heq, nodeBefore_split hab]
      have hlinks := unlink_links t a.getLast? (σ.list L, σ.next)
      exact hlinks ▸ hown.unlink
    · rw [hsame L hLn, Function.update_of_ne hLn]
      exact (h.shaped L hL).of_writes hout hin fun w hw => hsame L hLn ▸ hwrites w hw L hL
  · intro hc L hL
    rw [hlist]
    by_cases hLn : L = name
    · subst hLn
      rw [hself, Function.update_self, List.length_erase_of_mem ht, ← h.count hc L hL]
      cases nodeBefore t (G L) <;> rfl
    · rw [hsame L hLn, Function.update_of_ne hLn]
      exact h.count hc L hL

/-- **A new thread** of a process. -/
theorem InOrder.create (h : InOrder tracked counted G σ) (hp : tracked (.threads p))
    (hu : tracked .userThreads) (hfits : (ThreadOp.create p t).Fits tracked counted G) {τ : Sched}
    (hrun : σ.onList? (.threads p) (append t) = some τ)
    (hrun' : τ.onList? .userThreads (append t) = some σ') :
    InOrder tracked counted (G.apply (.create p t)) σ' := by
  obtain ⟨⟨htp, htu⟩, hroom, hwrites⟩ := hfits
  have hownp := h.shaped _ hp
  have hownu := h.shaped _ hu
  obtain ⟨s, hs, rfl⟩ := onList?_eq_some hrun
  rw [append_eq hownp.chain.head_eq hownp.tail] at hs
  obtain rfl := Option.some.inj hs
  obtain ⟨s, hs, rfl⟩ := onList?_eq_some hrun'
  have hlist : Function.update σ.list (.threads p) ⟨(G (.threads p) ++ [t]).head?, some t,
      u32 ((σ.list (.threads p)).count + 1)⟩ .userThreads = σ.list .userThreads :=
    Function.update_of_ne (by simp) _ _
  have happend := append_eq (t := t) (s := (σ.list .userThreads,
    appendLinks t (G (.threads p)).getLast? σ.next)) hownu.chain.head_eq hownu.tail
  dsimp only at hs
  rw [hlist, happend] at hs
  obtain rfl := Option.some.inj hs
  obtain ⟨houtp, hinp⟩ := appendLinks_spec htp σ.next
  obtain ⟨houtu, hinu⟩ := appendLinks_spec htu (appendLinks t (G (.threads p)).getLast? σ.next)
  obtain ⟨houtp', hinp'⟩ := appendLinks_spec htp (appendLinks t (G .userThreads).getLast? σ.next)
  -- the two are written in either order, and what the one writes fits the list of the other
  have hcomm := appendLinks_comm (fun h => htu (List.mem_of_getLast? h))
    (fun h => htp (List.mem_of_getLast? h)) σ.next
  have hfitp : ∀ w ∈ (t, none) :: ThreadOp.writesTail (G (.threads p)) t, ∀ L, tracked L →
      w.1 ∈ G.apply (.create p t) L → nodeAfter w.1 (G.apply (.create p t) L) = w.2 := by
    intro w hw
    refine hwrites w ?_
    rcases List.mem_cons.1 hw with rfl | hw
    · exact List.mem_cons_self
    · exact List.mem_cons_of_mem _ (List.mem_append_left _ hw)
  have hfitu : ∀ w ∈ (t, none) :: ThreadOp.writesTail (G .userThreads) t, ∀ L, tracked L →
      w.1 ∈ G.apply (.create p t) L → nodeAfter w.1 (G.apply (.create p t) L) = w.2 := by
    intro w hw
    refine hwrites w ?_
    rcases List.mem_cons.1 hw with rfl | hw
    · exact List.mem_cons_self
    · exact List.mem_cons_of_mem _ (List.mem_append_right _ hw)
  have hGu : G.apply (.create p t) .userThreads = G .userThreads ++ [t] := by
    rw [Members.apply, Function.update_self]
  have hGp : G.apply (.create p t) (.threads p) = G (.threads p) ++ [t] := by
    rw [Members.apply, Function.update_of_ne (by simp), Function.update_self]
  have hG : ∀ L, L ≠ .userThreads → L ≠ .threads p → G.apply (.create p t) L = G L := by
    intro L hLu hLp
    rw [Members.apply, Function.update_of_ne hLu, Function.update_of_ne hLp]
  constructor
  · intro L hL
    have hfitp' := fun w hw => hfitp w hw L hL
    have hfitu' := fun w hw => hfitu w hw L hL
    dsimp only
    by_cases hLu : L = .userThreads
    · subst hLu
      rw [hGu] at hfitp' ⊢
      rw [Function.update_self, hcomm]
      exact (hownu.append htu).of_writes houtp' hinp' hfitp'
    rw [Function.update_of_ne hLu]
    by_cases hLp : L = .threads p
    · subst hLp
      rw [hGp] at hfitu' ⊢
      rw [Function.update_self]
      exact (hownp.append htp).of_writes houtu hinu hfitu'
    · rw [hG L hLu hLp] at hfitp' hfitu' ⊢
      rw [Function.update_of_ne hLp]
      exact ((h.shaped L hL).of_writes houtp hinp hfitp').of_writes houtu hinu hfitu'
  · intro hc L hL
    dsimp only
    by_cases hLu : L = .userThreads
    · subst hLu
      rw [hGu, Function.update_self, List.length_append]
      dsimp only
      rw [h.count hc _ hL]
      exact u32_of_lt (hroom hc).2
    rw [Function.update_of_ne hLu]
    by_cases hLp : L = .threads p
    · subst hLp
      rw [hGp, Function.update_self, List.length_append]
      dsimp only
      rw [h.count hc _ hL]
      exact u32_of_lt (hroom hc).1
    · rw [hG L hLu hLp, Function.update_of_ne hLp]
      exact h.count hc L hL

/-- Threads may change in everything but their links. -/
theorem InOrder.congr (h : InOrder tracked counted G σ) (hnext : σ'.next = σ.next) (hlist : σ'.list = σ.list) :
    InOrder tracked counted G σ' := by
  constructor
  · intro L hL
    rw [hnext, hlist]
    exact h.shaped L hL
  · intro hc L hL
    rw [hlist]
    exact h.count hc L hL

/-! ### Lists that have no thread in common -/

/-- No thread is in two of the lists. -/
def Apart (tracked : ListName → Prop) (G : Members) : Prop :=
  ∀ L M, tracked L → tracked M → L ≠ M → ∀ x ∈ G L, x ∉ G M

theorem mem_writesTail {l : List ℕ} {w : ℕ × Option ℕ} :
    w ∈ ThreadOp.writesTail l t ↔ l.getLast? = some w.1 ∧ w.2 = some t := by
  unfold ThreadOp.writesTail
  cases l.getLast? with
  | none => simp
  | some u =>
    obtain ⟨x, v⟩ := w
    simp [eq_comm]

/-- **A thread of no list** may be added to one. -/
theorem Apart.add (h : Apart tracked G) (hnd : (G name).Nodup) (hname : tracked name)
    (ht : ∀ L, tracked L → t ∉ G L) :
    (ThreadOp.add name t).Fits tracked False G ∧ Apart tracked (G.apply (.add name t)) := by
  have hown : G.apply (.add name t) name = G name ++ [t] := Function.update_self ..
  have hsame : ∀ L, L ≠ name → G.apply (.add name t) L = G L :=
    fun L hL => Function.update_of_ne hL _ _
  refine ⟨⟨ht name hname, False.elim, fun w hw L hL hmem => ?_⟩, fun L M hL hM hne x hx => ?_⟩
  · by_cases hLn : L = name
    · subst hLn
      rw [hown]
      rcases List.mem_cons.1 hw with rfl | hw
      · exact nodeAfter_snoc (ht L hL)
      · obtain ⟨hlast, heq⟩ := mem_writesTail.1 hw
        rw [heq]
        exact nodeAfter_last hnd hlast
    · rw [hsame L hLn] at hmem
      rcases List.mem_cons.1 hw with rfl | hw
      · exact absurd hmem (ht L hL)
      · obtain ⟨hlast, -⟩ := mem_writesTail.1 hw
        exact absurd hmem (h name L hname hL (Ne.symm hLn) w.1 (List.mem_of_getLast? hlast))
  · by_cases hLn : L = name
    · subst hLn
      rw [hown] at hx
      rw [hsame M (Ne.symm hne)]
      rcases List.mem_append.1 hx with hx | hx
      · exact h L M hL hM hne x hx
      · exact List.mem_singleton.1 hx ▸ ht M hM
    · rw [hsame L hLn] at hx
      by_cases hMn : M = name
      · subst hMn
        rw [hown]
        intro hmem
        rcases List.mem_append.1 hmem with hmem | hmem
        · exact h L M hL hM hne x hx hmem
        · exact ht L hL (List.mem_singleton.1 hmem ▸ hx)
      · rw [hsame M hMn]
        exact h L M hL hM hne x hx

/-- **A thread of a list** may be taken out of it. -/
theorem Apart.remove (h : Apart tracked G) (hnd : (G name).Nodup) (hname : tracked name)
    (ht : t ∈ G name) :
    (ThreadOp.remove name t).Fits tracked False G ∧ Apart tracked (G.apply (.remove name t)) := by
  have hown : G.apply (.remove name t) name = (G name).erase t := Function.update_self ..
  have hsame : ∀ L, L ≠ name → G.apply (.remove name t) L = G L :=
    fun L hL => Function.update_of_ne hL _ _
  have hsub : ∀ L, ∀ x ∈ G.apply (.remove name t) L, x ∈ G L := by
    intro L x hx
    by_cases hLn : L = name
    · subst hLn
      rw [hown] at hx
      exact List.mem_of_mem_erase hx
    · rwa [hsame L hLn] at hx
  refine ⟨⟨ht, False.elim, fun w hw L hL hmem => ?_⟩, fun L M hL hM hne x hx hxM =>
    h L M hL hM hne x (hsub L x hx) (hsub M x hxM)⟩
  obtain ⟨a, b, hab, heq, herase⟩ := List.exists_erase_eq ht
  rw [ThreadOp.writes, heq, nodeBefore_split hab, nodeAfter_split hab] at hw
  by_cases hLn : L = name
  · subst hLn
    rw [hown, herase] at hmem ⊢
    have htb : t ∉ b := by
      rw [heq] at hnd
      exact fun hb => (List.nodup_cons.1 (List.nodup_middle.1 hnd)).1 (List.mem_append_right _ hb)
    rcases List.mem_cons.1 hw with rfl | hw
    · exact absurd hmem (mt List.mem_append.1 (not_or.2 ⟨hab, htb⟩))
    · obtain ⟨u, hu, rfl⟩ := List.mem_map.1 hw
      obtain ⟨a, rfl⟩ := List.getLast?_eq_some_iff.1 (Option.mem_toList.1 hu)
      rw [heq] at hnd
      have hua : u ∉ a := (nodup_snoc.1 (List.nodup_append.1 hnd).1).2
      rw [List.append_assoc]
      exact nodeAfter_split hua
  · rw [hsame L hLn] at hmem
    refine absurd hmem (h name L hname hL (Ne.symm hLn) w.1 ?_)
    rcases List.mem_cons.1 hw with rfl | hw
    · exact ht
    · obtain ⟨u, hu, rfl⟩ := List.mem_map.1 hw
      rw [heq]
      exact List.mem_append_left _ (List.mem_of_getLast? (Option.mem_toList.1 hu))

/-! ### The calls of the scheduler -/

/-- The queues of the scheduler. -/
def IsQueue (L : ListName) : Prop := L = .readyQueue ∨ L = .sleepQueue

/-- What `sched_yield` does with the lists before `sched_schedule`. -/
def yieldOps (σ : Sched) (c : ℕ) : List ThreadOp :=
  if c ≠ σ.idleThread then [.add .readyQueue c] else []

/-- What a call does with the lists before `sched_schedule`. -/
def enqueueOps (e : SchedCall) (σ : Sched) : List ThreadOp :=
  match σ.currentThread with
  | none => []
  | some c =>
    match e with
    | .yield | .exit => σ.yieldOps c
    | .sleep ms => if ms = 0 then [] else .add .sleepQueue c :: σ.yieldOps c
    | _ => []

/-- The thread wakes at the next tick. -/
def Wakes (σ : Sched) (t : ℕ) : Prop := (σ.thread t).wakeTime ≤ u64 (σ.ticks + 1)

instance (σ : Sched) (t : ℕ) : Decidable (σ.Wakes t) := inferInstanceAs (Decidable (_ ≤ _))

/-- What a thread that wakes does with the lists. -/
def wakeOps (t : ℕ) : List ThreadOp := [.remove .sleepQueue t, .add .readyQueue t]

/-- What a call does with the lists. -/
def callOps (fuel : ℕ) (e : SchedCall) (σ : Sched) (G : Members) : List ThreadOp :=
  match e with
  | .unblock t => [.add .readyQueue t]
  | .tick => ((G .sleepQueue).filter fun t => σ.Wakes t).flatMap wakeOps
  | e => σ.enqueueOps e ++ (σ.selected fuel e).toList.map (.remove .readyQueue)

variable {fuel : ℕ} {e : SchedCall} {τ : Sched}

theorem inOrder_schedYieldEnqueue {c : ℕ} (h : InOrder tracked counted G σ) (hready : tracked .readyQueue)
    (hc : σ.currentThread = some c) (hrun : σ.schedYieldEnqueue = some τ)
    (hfits : FitsAll tracked counted G (σ.yieldOps c)) : InOrder tracked counted (G.applyAll (σ.yieldOps c)) τ := by
  rw [schedYieldEnqueue, hc] at hrun
  unfold yieldOps at hfits ⊢
  dsimp only at hrun
  split at hrun
  · next hidle =>
    rw [if_pos hidle] at hfits ⊢
    exact h.add hready hrun hfits.1
  · next hidle =>
    obtain rfl := Option.some.inj hrun
    rw [if_neg hidle]
    exact h

theorem inOrder_scheduling (h : InOrder tracked counted G σ) (hready : tracked .readyQueue)
    (hsleep : tracked .sleepQueue) (hrun : σ.scheduling e = some τ)
    (hfits : FitsAll tracked counted G (σ.enqueueOps e)) : InOrder tracked counted (G.applyAll (σ.enqueueOps e)) τ := by
  cases hc : σ.currentThread with
  | none =>
    have hops : σ.enqueueOps e = [] := by rw [enqueueOps, hc]
    rw [hops]
    cases e <;> simp [scheduling, hc] at hrun
    exact hrun ▸ h
  | some c =>
    have hne : σ.currentThread ≠ none := by rw [hc]; simp
    cases e with
    | schedule =>
      obtain rfl := Option.some.inj hrun
      rw [enqueueOps, hc]
      exact h
    | yield =>
      rw [enqueueOps, hc] at hfits ⊢
      rw [scheduling, if_neg hne] at hrun
      exact inOrder_schedYieldEnqueue h hready hc hrun hfits
    | exit =>
      rw [enqueueOps, hc] at hfits ⊢
      rw [scheduling, if_neg hne] at hrun
      exact inOrder_schedYieldEnqueue h hready hc hrun hfits
    | block =>
      rw [scheduling, if_neg hne] at hrun
      obtain rfl := Option.some.inj hrun
      rw [enqueueOps, hc]
      refine h.congr ?_ ?_ <;> rw [schedBlockState, hc] <;> rfl
    | sleep ms =>
      rw [scheduling] at hrun
      split at hrun
      · exact absurd hrun (by simp)
      next hms =>
      have hms : ms ≠ 0 := fun h => hms (.inr h)
      rw [enqueueOps, hc] at hfits ⊢
      dsimp only at hfits ⊢
      rw [if_neg hms] at hfits ⊢
      obtain ⟨ρ, hρ, hτ⟩ := Option.bind_eq_some_iff.1 hrun
      have hcur := (schedSleepEnqueue_currentThread hρ).trans hc
      rw [schedSleepEnqueue, hc] at hρ
      have hidle : ρ.yieldOps c = σ.yieldOps c := by
        obtain ⟨s, -, rfl⟩ := onList?_eq_some hρ
        rfl
      have hset : InOrder tracked counted G (σ.setThread c { σ.thread c with
          wakeTime := u64 (σ.ticks + ms), threadState := .sleeping }) := h.congr rfl rfl
      have hmid : InOrder tracked counted (G.apply (.add .sleepQueue c)) ρ := hset.add hsleep hρ hfits.1
      have hend := inOrder_schedYieldEnqueue hmid hready hcur hτ (hidle ▸ hfits.2)
      rw [hidle] at hend
      exact hend
    | unblock t => exact absurd hrun (by simp [scheduling])
    | tick => exact absurd hrun (by simp [scheduling])
    | vmmSwitch region => exact absurd hrun (by simp [scheduling])

/-- **Choosing** takes the chosen thread out of the ready queue. -/
theorem SelectStep.inOrder {o : Option ℕ} (hstep : SelectStep fuel σ o σ') (h : InOrder tracked counted G σ)
    (hready : tracked .readyQueue)
    (hfits : FitsAll tracked counted G (o.toList.map (.remove .readyQueue))) :
    InOrder tracked counted (G.applyAll (o.toList.map (.remove .readyQueue))) σ' := by
  cases hstep with
  | empty _ => exact h
  | @take a b best thread slice chain length boost others before after =>
    have hG : G .readyQueue = a ++ best :: b := (h.shaped _ hready).chain.unique chain
    have hnd := chain.nodup
    have ha : best ∉ a := fun ha => (List.nodup_cons.1 (List.nodup_middle.1 hnd)).1
      (List.mem_append_left _ ha)
    have hbefore : a.getLast? = nodeBefore best (G .readyQueue) := by rw [hG, nodeBefore_split ha]
    refine h.remove hready hfits.1 ?_ ?_ <;> rw [← hbefore]

/-- `sched_schedule`, after the choice, does nothing with the lists. -/
theorem inOrder_schedScheduleOn {o : Option ℕ} (h : InOrder tracked counted G σ)
    (hrun : σ.schedScheduleOn o = some σ') : InOrder tracked counted G σ' := by
  have hidle : ∀ {ρ : Sched} (o : Option ℕ), (ρ.schedSelectIdleIfNeeded o).2.next = ρ.next ∧
      (ρ.schedSelectIdleIfNeeded o).2.list = ρ.list := by
    intro ρ o
    cases o <;> exact ⟨rfl, rfl⟩
  unfold schedScheduleOn at hrun
  dsimp only at hrun
  split at hrun
  · obtain rfl := Option.some.inj hrun
    exact h.congr (hidle o).1 (hidle o).2
  · unfold schedDetermineAndSwitch at hrun
    dsimp only at hrun
    split at hrun
    · obtain ⟨r, -, rfl⟩ := Option.map_eq_some_iff.1 hrun
      exact h.congr (hidle o).1 (hidle o).2
    · obtain rfl := Option.some.inj hrun
      exact h.congr (hidle o).1 (hidle o).2

/-- The link by which the loop of `sched_tick` goes on. -/
theorem tickNext_eq {done rest : List ℕ} (h : Shaped (done ++ rest) (σ.list .sleepQueue, σ.next)) :
    σ.tickNext done.getLast? = rest.head? := by
  have hchain := h.chain
  rcases List.eq_nil_or_concat done with rfl | ⟨done, u, rfl⟩
  · exact hchain.head_eq
  · rw [List.concat_eq_append, List.getLast?_concat]
    rw [List.concat_eq_append, List.append_assoc] at hchain
    exact Chain.head_eq (Seg.split_cons hchain).2

theorem shouldWake_schedUnblock (hrun : σ.schedUnblock t = some σ') (u : ℕ) :
    σ'.SchedThreadShouldWake u ↔ σ.SchedThreadShouldWake u := by
  obtain ⟨s, -, rfl⟩ := onList?_eq_some hrun
  unfold SchedThreadShouldWake
  have hsame : (Function.update σ.thread t { σ.thread t with threadState := .ready } u).wakeTime =
      (σ.thread u).wakeTime := by
    by_cases hu : u = t
    · rw [hu, Function.update_self]
    · rw [Function.update_of_ne hu]
  exact iff_of_eq (congrArg (· ≤ σ.ticks) hsame)

/-- **Waking** the threads that are due. -/
theorem inOrder_schedTickLoop {n : ℕ} {wake : ℕ → Prop} [DecidablePred wake] {done rest : List ℕ}
    (hready : tracked .readyQueue) (hsleep : tracked .sleepQueue) (h : InOrder tracked counted G σ)
    (hG : G .sleepQueue = done ++ rest) (hwake : ∀ t, σ.SchedThreadShouldWake t ↔ wake t)
    (hrun : schedTickLoop n done.getLast? rest.head? σ = some σ')
    (hfits : FitsAll tracked counted G ((rest.filter fun t => wake t).flatMap wakeOps)) :
    InOrder tracked counted (G.applyAll ((rest.filter fun t => wake t).flatMap wakeOps)) σ' := by
  induction rest generalizing n σ G done with
  | nil =>
    obtain rfl : σ = σ' := by cases n <;> exact Option.some.inj hrun
    exact h
  | cons t rest ih =>
    obtain ⟨m, rfl⟩ : ∃ m, n = m + 1 := by
      cases n with
      | zero => exact absurd hrun (by simp [schedTickLoop])
      | succ m => exact ⟨m, rfl⟩
    have hnd : (done ++ t :: rest).Nodup := hG ▸ (h.shaped _ hsleep).nodup
    have htd : t ∉ done := fun htd => (List.nodup_cons.1 (List.nodup_middle.1 hnd)).1
      (List.mem_append_left _ htd)
    obtain ⟨⟨prev, ρ⟩, hround, hrest⟩ := Option.bind_eq_some_iff.1 hrun
    unfold schedProcessSleepThread at hround
    split at hround
    · next hdue =>
      have hw := (hwake t).1 hdue
      obtain ⟨τ, hunblock, heq⟩ := Option.map_eq_some_iff.1 hround
      obtain ⟨rfl, rfl⟩ := Prod.mk.inj heq
      rw [List.filter_cons_of_pos (by simpa using hw), List.flatMap_cons, fitsAll_append] at hfits
      rw [List.filter_cons_of_pos (by simpa using hw), List.flatMap_cons, Members.applyAll,
        List.foldl_append]
      obtain ⟨⟨hremove, hadd, -⟩, hfits⟩ := hfits
      have hbefore : nodeBefore t (G .sleepQueue) = done.getLast? := by
        rw [hG, nodeBefore_split htd]
      have hmid : InOrder tracked counted (G.apply (.remove .sleepQueue t))
          (σ.onList .sleepQueue (schedRemoveFromSleepQueue t done.getLast?)) := by
        refine h.remove hsleep hremove ?_ ?_ <;> rw [hbefore]
        · exact unlink_links ..
        · rfl
      have hset : InOrder tracked counted (G.apply (.remove .sleepQueue t))
          ((σ.onList .sleepQueue (schedRemoveFromSleepQueue t done.getLast?)).setThread t
            { σ.thread t with threadState := .ready }) := hmid.congr rfl rfl
      have hend := hset.add hready hunblock hadd
      have hG' : ((G.apply (.remove .sleepQueue t)).apply (.add .readyQueue t)) .sleepQueue =
          done ++ rest := by
        rw [Members.apply, Function.update_of_ne (by simp), Members.apply, Function.update_self, hG,
          List.erase_append_right _ htd, List.erase_cons_head]
      refine ih (n := m) hend hG' (fun u => ?_) ?_ hfits
      · rw [shouldWake_schedUnblock hunblock]
        exact hwake u
      · rw [← tickNext_eq (hG' ▸ hend.shaped _ hsleep)]
        exact hrest
    · next hdue =>
      obtain ⟨rfl, rfl⟩ := Prod.mk.inj (Option.some.inj hround)
      have hw : ¬ wake t := fun hw => hdue ((hwake t).2 hw)
      rw [List.filter_cons_of_neg (by simpa using hw)] at hfits ⊢
      have hG' : G .sleepQueue = (done ++ [t]) ++ rest := by rw [hG, List.append_assoc]; rfl
      refine ih (n := m) h hG' hwake ?_ hfits
      rw [← tickNext_eq (hG' ▸ h.shaped _ hsleep), List.getLast?_concat]
      exact hrest

theorem ReturnsAtOnce.callOps (h : σ.ReturnsAtOnce e) : σ.callOps fuel e G = [] := by
  have hselected : σ.selected fuel e = none := by
    rw [selected, h.scheduling]
    rfl
  have henqueue : σ.enqueueOps e = [] := by
    unfold enqueueOps
    cases hc : σ.currentThread with
    | none => rfl
    | some c =>
      cases e with
      | sleep ms => exact if_pos (h.resolve_left (by rw [hc]; simp))
      | yield => exact absurd (hc.symm.trans h) (by simp)
      | exit => exact absurd (hc.symm.trans h) (by simp)
      | _ => rfl
  cases e with
  | unblock t => exact h.elim
  | tick => exact h.elim
  | _ => rw [Sched.callOps, henqueue, hselected] <;> first | rfl | simp

/-- **A call of the scheduler** keeps the lists in order when all it does with them fits. -/
theorem call_inOrder (hready : tracked .readyQueue) (hsleep : tracked .sleepQueue)
    (h : InOrder tracked counted G σ) (hrun : σ.call fuel e = some σ')
    (hfits : FitsAll tracked counted G (σ.callOps fuel e G)) :
    InOrder tracked counted (G.applyAll (σ.callOps fuel e G)) σ' := by
  cases call_cases hrun with
  | nothing hat =>
    rw [hat.callOps]
    exact h
  | @schedule _ τ _ hs hτ =>
    obtain ⟨⟨o, ρ⟩, hselect, hon⟩ := Option.bind_eq_some_iff.1 hτ
    have hselected : σ.selected fuel e = o := by
      rw [selected, hs, Option.bind_some, hselect]
      rfl
    have hops : σ.callOps fuel e G = σ.enqueueOps e ++ o.toList.map (.remove .readyQueue) := by
      cases e with
      | unblock t => exact absurd hs (by simp [scheduling])
      | tick => exact absurd hs (by simp [scheduling])
      | _ => rw [callOps, hselected] <;> simp
    rw [hops, fitsAll_append] at hfits
    rw [hops, Members.applyAll, List.foldl_append]
    have hmid := inOrder_scheduling h hready hsleep hs hfits.1
    exact inOrder_schedScheduleOn ((schedSelectNext_cases hselect).inOrder hmid hready hfits.2) hon
  | @unblock t _ hunblock =>
    have hset : InOrder tracked counted G (σ.setThread t { σ.thread t with threadState := .ready }) :=
      h.congr rfl rfl
    exact hset.add hready hunblock hfits.1
  | tick htick =>
    have hticks : InOrder tracked counted G { σ with ticks := u64 (σ.ticks + 1) } := h.congr rfl rfl
    have hhead : (σ.list .sleepQueue).head = (G .sleepQueue).head? := (h.shaped _ hsleep).chain.head_eq
    refine inOrder_schedTickLoop (n := fuel) hready hsleep hticks
      (show G .sleepQueue = [] ++ G .sleepQueue from rfl) (fun t => Iff.rfl) ?_ hfits
    rw [← hhead]
    exact htick
  | vmmSwitch r =>
    have hops : σ.callOps fuel (.vmmSwitch (some r)) G = [] := by
      unfold callOps enqueueOps selected scheduling
      cases σ.currentThread <;> rfl
    rw [hops]
    exact h.congr rfl rfl

end Sched

end Flopperating
