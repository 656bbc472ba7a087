/-
# Mounting and unmounting

`vfs_add_mountpoint` puts a mountpoint behind the tail, and the searches begin at the tail.
What `vfs_remove_mountpoint` takes out is always the last one, and it stays allocated: of
the reference that it was created with nobody is left to let go.
-/

import Flopperating.Fs.VfsSpec

namespace Flopperating

open LinkedList

namespace Vfs

variable {σ σ' σ₁ σ₂ : Vfs} {i j k m n t : ℕ} {mp mp' mp₁ : VfsMountpoint} {nd : VfsNode} {o : KObject}
  {heap : ℕ → Option KObject} {opens ms ms' l : List ℕ}

/-! ### What linking leaves -/

/-- What is written once. -/
structure SameMount (mp mp' : VfsMountpoint) : Prop where
  filesystem : mp'.filesystem = mp.filesystem
  mountPoint : mp'.mountPoint = mp.mountPoint
  deviceName : mp'.deviceName = mp.deviceName

/-- The same objects, up to the links and counts of mountpoints. -/
structure Keeps (σ σ' : Vfs) : Prop where
  fsList : σ'.fsList = σ.fsList
  grant : σ'.grant = σ.grant
  fresh : σ'.fresh = σ.fresh
  mount : ∀ i mp, σ.heap i = some (.mountpoint mp) → ∃ mp', σ'.heap i = some (.mountpoint mp') ∧ SameMount mp mp'
  other : ∀ i, (∀ mp, σ.heap i ≠ some (.mountpoint mp)) → σ'.heap i = σ.heap i

theorem Keeps.refl (σ : Vfs) : Keeps σ σ := ⟨rfl, rfl, rfl, fun _ mp h => ⟨mp, h, rfl, rfl, rfl⟩, fun _ _ => rfl⟩

/-- A mountpoint of the new heap was one. -/
theorem Keeps.mount_of (h : Keeps σ σ') (hi : σ'.heap i = some (.mountpoint mp')) :
    ∃ mp, σ.heap i = some (.mountpoint mp) ∧ SameMount mp mp' := by
  by_cases hex : ∃ mp, σ.heap i = some (.mountpoint mp)
  · obtain ⟨mp, hmp⟩ := hex
    obtain ⟨mp₁, hmp₁, hsame⟩ := h.mount i mp hmp
    obtain rfl := KObject.mountpoint.inj (Option.some.inj (hi.symm.trans hmp₁))
    exact ⟨mp, hmp, hsame⟩
  · exact absurd ((h.other i fun mp hmp => hex ⟨mp, hmp⟩).symm.trans hi) fun hmp => hex ⟨mp', hmp⟩

theorem Keeps.isSome_iff (h : Keeps σ σ') (i : ℕ) : (σ'.heap i).isSome = (σ.heap i).isSome := by
  by_cases hex : ∃ mp, σ.heap i = some (.mountpoint mp)
  · obtain ⟨mp, hmp⟩ := hex
    obtain ⟨mp', hmp', -⟩ := h.mount i mp hmp
    rw [hmp, hmp']
    rfl
  · rw [h.other i fun mp hmp => hex ⟨mp, hmp⟩]

theorem Keeps.trans (a : Keeps σ σ₁) (b : Keeps σ₁ σ₂) : Keeps σ σ₂ where
  fsList := b.fsList.trans a.fsList
  grant := b.grant.trans a.grant
  fresh := b.fresh.trans a.fresh
  mount i mp hi := by
    obtain ⟨mp₁, h₁, hs₁⟩ := a.mount i mp hi
    obtain ⟨mp₂, h₂, hs₂⟩ := b.mount i mp₁ h₁
    exact ⟨mp₂, h₂, hs₂.filesystem.trans hs₁.filesystem, hs₂.mountPoint.trans hs₁.mountPoint,
      hs₂.deviceName.trans hs₁.deviceName⟩
  other i hi := by
    have hsame := a.other i hi
    rw [b.other i fun mp => by rw [hsame]; exact hi mp, hsame]

theorem keeps_setMp (hi : σ.heap i = some (.mountpoint mp)) (hs : SameMount mp mp') : Keeps σ (σ.setMp i mp') where
  fsList := rfl
  grant := rfl
  fresh := rfl
  mount j mp₁ hj := by
    rcases eq_or_ne j i with rfl | hne
    · obtain rfl := KObject.mountpoint.inj (Option.some.inj (hj.symm.trans hi))
      exact ⟨mp', Function.update_self .., hs⟩
    · exact ⟨mp₁, (Function.update_of_ne hne _ _).trans hj, rfl, rfl, rfl⟩
  other j hj := Function.update_of_ne (fun he => hj mp (by rw [he]; exact hi)) _ _

/-- The list and the counts may change, as long as they agree. -/
theorem Inv.relink (h : σ.Inv opens ms) (hk : Keeps σ σ') (hchain : Chain σ'.nextOf σ'.head ms')
    (htail : σ'.tail = ms'.getLast?) (hlive : ∀ m ∈ ms', ∃ mp, σ.heap m = some (.mountpoint mp))
    (hcount : ∀ m mp mp', σ.heap m = some (.mountpoint mp) → σ'.heap m = some (.mountpoint mp') →
      mp'.refcount + (if m ∈ ms then 1 else 0) = mp.refcount + if m ∈ ms' then 1 else 0) : σ'.Inv opens ms' := by
  have hnode : ∀ n nd, σ'.heap n = some (.node nd) ↔ σ.heap n = some (.node nd) := fun n nd => by
    constructor
    · intro hn
      by_cases hex : ∃ mp, σ.heap n = some (.mountpoint mp)
      · obtain ⟨mp, hmp⟩ := hex
        obtain ⟨mp', hmp', -⟩ := hk.mount n mp hmp
        exact absurd (hn.symm.trans hmp') (by simp)
      · rw [← hn, hk.other n fun mp hmp => hex ⟨mp, hmp⟩]
    · intro hn
      rw [hk.other n fun mp hmp => absurd (hn.symm.trans hmp) (by simp), hn]
  have hopen : ∀ m, openOn σ'.heap opens m = openOn σ.heap opens m := fun m =>
    List.countP_congr fun n hn => by
      obtain ⟨nd, -, hnd, -⟩ := h.node n hn
      rw [hnd, (hnode n nd).2 hnd]
  refine ⟨hchain, htail, fun m hm => ?_, fun a ha => ?_, fun m mp' hm => ?_, h.nodup, fun n hn => ?_,
    fun n nd hn => h.opened n nd ((hnode n nd).1 hn), fun m mp' hm => ?_⟩
  · obtain ⟨mp, hmp⟩ := hlive m hm
    obtain ⟨mp', hmp', -⟩ := hk.mount m mp hmp
    exact ⟨mp', hmp'⟩
  · rw [hk.fresh] at ha
    have hnone := h.bound a ha
    rw [hk.other a fun mp => by rw [hnone]; simp, hnone]
  · obtain ⟨mp, hmp, -⟩ := hk.mount_of hm
    have hold := h.count m mp hmp
    have := hcount m mp mp' hmp hm
    rw [hopen]
    omega
  · obtain ⟨nd, mp, hnd, hmp⟩ := h.node n hn
    obtain ⟨mp', hmp', -⟩ := hk.mount _ mp hmp
    exact ⟨nd, mp', (hnode n nd).2 hnd, hmp'⟩
  · obtain ⟨mp, hmp, hsame⟩ := hk.mount_of hm
    rw [hk.fsList, hsame.filesystem]
    exact h.fs m mp hmp

theorem nextOf_setMp : (σ.setMp i mp).nextOf = Function.update σ.nextOf i mp.nextMountpoint := by
  funext j
  rcases eq_or_ne j i with rfl | hne
  · rw [Function.update_self]
    exact nextOf_of_heap (Function.update_self ..)
  · have hsame : (σ.setMp i mp).mp? j = σ.mp? j := mp?_congr (Function.update_of_ne hne _ _)
    rw [Function.update_of_ne hne, nextOf, nextOf, hsame]

/-- Writing the link that is there changes nothing. -/
theorem nextOf_setMp_same (hi : σ.heap i = some (.mountpoint mp)) (hnext : mp'.nextMountpoint = mp.nextMountpoint) :
    (σ.setMp i mp').nextOf = σ.nextOf := by
  rw [nextOf_setMp, hnext, ← nextOf_of_heap hi, Function.update_eq_self]

/-- The counts are the same. -/
def SameCounts (σ σ' : Vfs) : Prop :=
  ∀ m mp mp', σ.heap m = some (.mountpoint mp) → σ'.heap m = some (.mountpoint mp') → mp'.refcount = mp.refcount

theorem SameCounts.of_heap (h : σ'.heap = σ.heap) : SameCounts σ σ' := fun m mp mp' hm hm' => by
  rw [h, hm] at hm'
  rw [← KObject.mountpoint.inj (Option.some.inj hm')]

theorem SameCounts.of_setMp (hi : σ.heap i = some (.mountpoint mp)) (hheap : σ'.heap = (σ.setMp i mp').heap)
    (hr : mp'.refcount = mp.refcount) : SameCounts σ σ' := fun m mp₀ mp₁ hm hm' => by
  have hm' : Function.update σ.heap i _ m = _ := (congrFun hheap m).symm.trans hm'
  rcases eq_or_ne m i with rfl | hne
  · rw [Function.update_self] at hm'
    rw [← KObject.mountpoint.inj (Option.some.inj hm'), hr,
      KObject.mountpoint.inj (Option.some.inj (hm.symm.trans hi))]
  · rw [Function.update_of_ne hne, hm] at hm'
    rw [← KObject.mountpoint.inj (Option.some.inj hm')]

/-- The list gains or loses `i`, and the count of `i` says so. -/
theorem Inv.recount (h : σ.Inv opens ms) (hk : Keeps σ σ₁) (hsame : SameCounts σ σ₁)
    (hi : σ₁.heap i = some (.mountpoint mp)) (hchain : Chain σ₁.nextOf σ₁.head ms') (htail : σ₁.tail = ms'.getLast?)
    (hlive : ∀ m ∈ ms', ∃ mp, σ.heap m = some (.mountpoint mp)) (hmem : ∀ m, m ≠ i → (m ∈ ms' ↔ m ∈ ms))
    (hs : SameMount mp mp') (hnext : mp'.nextMountpoint = mp.nextMountpoint)
    (hr : mp'.refcount + (if i ∈ ms then 1 else 0) = mp.refcount + if i ∈ ms' then 1 else 0) :
    (σ₁.setMp i mp').Inv opens ms' ∧ Keeps σ (σ₁.setMp i mp') := by
  have hk' : Keeps σ (σ₁.setMp i mp') := hk.trans (keeps_setMp hi hs)
  have hlinks : (σ₁.setMp i mp').nextOf = σ₁.nextOf := nextOf_setMp_same hi hnext
  refine ⟨h.relink hk' ?_ htail hlive fun m mp₀ mp₁ hm hm' => ?_, hk'⟩
  · rw [hlinks]
    exact hchain
  · have hm' : Function.update σ₁.heap i _ m = _ := hm'
    rcases eq_or_ne m i with rfl | hne
    · rw [Function.update_self] at hm'
      rw [← KObject.mountpoint.inj (Option.some.inj hm'), ← hsame m mp₀ mp hm hi]
      exact hr
    · rw [Function.update_of_ne hne] at hm'
      rw [hsame m mp₀ mp₁ hm hm', if_congr (hmem m hne) rfl rfl]

/-! ### Adding to the list -/

/-- **`vfs_add_mountpoint`** puts the mountpoint behind the tail. -/
theorem vfsAddMountpoint_spec (h : σ.Inv opens ms) (hi : σ.heap i = some (.mountpoint mp)) (hnot : i ∉ ms)
    (hnext : mp.nextMountpoint = none) :
    ∃ σ', σ.vfsAddMountpoint i = some σ' ∧ σ'.Inv opens (ms ++ [i]) ∧ Keeps σ σ' := by
  have hpos := h.refcount_pos hi
  have htail := h.tail
  have hin : i ∈ ms ++ [i] := List.mem_append_right _ (List.mem_singleton.2 rfl)
  have hmem : ∀ m, m ≠ i → (m ∈ ms ++ [i] ↔ m ∈ ms) := fun m hne => by simp [hne]
  have hr : mp.refcount + 1 + (if i ∈ ms then 1 else 0) = mp.refcount + if i ∈ ms ++ [i] then 1 else 0 := by
    rw [if_neg hnot, if_pos hin]
  have hlive : ∀ m ∈ ms ++ [i], ∃ mp, σ.heap m = some (.mountpoint mp) := fun m hm => by
    rcases List.mem_append.1 hm with hm | hm
    · exact h.live m hm
    · rw [List.mem_singleton.1 hm]
      exact ⟨mp, hi⟩
  unfold vfsAddMountpoint
  rcases List.eq_nil_or_concat ms with rfl | ⟨l, t, rfl⟩
  · obtain ⟨σ₁, hσ₁⟩ : ∃ σ₁ : Vfs, σ₁ = { σ with tail := some i, head := some i } := ⟨_, rfl⟩
    have hheap₁ : σ₁.heap = σ.heap := by rw [hσ₁]
    have hi₁ : σ₁.heap i = some (.mountpoint mp) := by rw [hheap₁, hi]
    have hk₁ : Keeps σ σ₁ := by
      rw [hσ₁]
      exact ⟨rfl, rfl, rfl, fun _ mp h => ⟨mp, h, rfl, rfl, rfl⟩, fun _ _ => rfl⟩
    have hchain : Chain σ₁.nextOf σ₁.head ([] ++ [i]) := by
      refine ⟨by rw [hσ₁], ?_⟩
      rw [nextOf_of_heap hi₁]
      exact seg_nil.2 hnext
    rw [htail]
    dsimp only [List.getLast?_nil]
    rw [← hσ₁, mpInc_spec hi₁ hpos]
    exact ⟨_, rfl, h.recount hk₁ (.of_heap hheap₁) hi₁ hchain (by rw [hσ₁]; rfl) hlive hmem ⟨rfl, rfl, rfl⟩ rfl hr⟩
  · rw [List.concat_eq_append] at *
    rw [List.getLast?_concat] at htail
    obtain ⟨mpt, ht⟩ := h.live t (List.mem_append_right _ (List.mem_singleton.2 rfl))
    have hne : i ≠ t := fun he => hnot (by rw [he]; exact List.mem_append_right _ (List.mem_singleton.2 rfl))
    obtain ⟨σ₁, hσ₁⟩ : ∃ σ₁ : Vfs, σ₁ = { σ.setMp t { mpt with nextMountpoint := some i } with tail := some i } :=
      ⟨_, rfl⟩
    have hheap₁ : σ₁.heap = (σ.setMp t { mpt with nextMountpoint := some i }).heap := by rw [hσ₁]
    have hi₁ : σ₁.heap i = some (.mountpoint mp) := by
      rw [hheap₁, heapStep_setMp.heap, Function.update_of_ne hne, hi]
    have hk₁ : Keeps σ σ₁ := by
      have hset : Keeps σ (σ.setMp t { mpt with nextMountpoint := some i }) := keeps_setMp ht ⟨rfl, rfl, rfl⟩
      rw [hσ₁]
      exact ⟨hset.fsList, hset.grant, hset.fresh, hset.mount, hset.other⟩
    have hchain : Chain σ₁.nextOf σ₁.head (l ++ [t] ++ [i]) := by
      have hlinks : σ₁.nextOf = Function.update σ.nextOf t (some i) := by
        rw [hσ₁]
        exact nextOf_setMp
      have hhead : σ₁.head = σ.head := by
        rw [hσ₁]
        rfl
      rw [hlinks, hhead]
      exact h.chain.snoc hnot ((nextOf_of_heap hi).trans hnext)
    rw [htail]
    dsimp only
    rw [mp?_eq_some.2 ht, Option.bind_some, ← hσ₁, mpInc_spec hi₁ hpos]
    exact ⟨_, rfl, h.recount hk₁ (.of_setMp ht hheap₁ rfl) hi₁ hchain (by rw [hσ₁, List.getLast?_concat]) hlive hmem ⟨rfl, rfl, rfl⟩ rfl hr⟩

/-! ### Taking out of the list -/

/-- The walk to the last mountpoint, `prev` behind it. -/
theorem unlinkFrom_last {q : Option ℕ} (hchain : Chain σ.nextOf q (l ++ [t]))
    (hlive : ∀ m ∈ l ++ [t], ∃ mp, σ.heap m = some (.mountpoint mp)) {fuel : ℕ} (hfuel : l.length < fuel)
    (prev : Option ℕ) : unlinkFrom t fuel prev q σ = (σ.linkAfter (l.getLast?.or prev) none).map fun σ =>
      if some t = σ.tail then { σ with tail := l.getLast?.or prev } else σ := by
  induction l generalizing q fuel prev with
  | nil =>
    obtain ⟨fuel, rfl⟩ := Nat.exists_eq_add_of_lt hfuel
    obtain ⟨mp, hmp⟩ := hlive t (List.mem_singleton.2 rfl)
    have hnext : σ.nextOf t = none := hchain.2
    rw [nextOf_of_heap hmp] at hnext
    rw [hchain.1, unlinkFrom, mp?_eq_some.2 hmp, Option.bind_some, if_pos rfl, hnext]
    rfl
  | cons m l ih =>
    obtain ⟨rest, rfl⟩ : ∃ rest, fuel = rest + 1 := ⟨fuel - 1, by omega⟩
    rw [List.length_cons] at hfuel
    obtain ⟨mp, hmp⟩ := hlive m List.mem_cons_self
    have hne : m ≠ t := fun he => (List.nodup_cons.1 hchain.nodup).1 (by simp [he])
    have hrest := hchain.2
    rw [nextOf_of_heap hmp] at hrest
    rw [hchain.1, unlinkFrom, mp?_eq_some.2 hmp, Option.bind_some, if_neg hne,
      ih hrest (fun a ha => hlive a (List.mem_cons_of_mem _ ha)) (by omega),
      List.getLast?_cons]
    rcases l.getLast? with - | s <;> rfl

/-- The walk has rounds enough. -/
theorem Inv.length_le (h : σ.Inv opens ms) : ms.length ≤ σ.fresh := by
  have hsub : ms ⊆ List.range σ.fresh := fun m hm => by
    obtain ⟨mp, hmp⟩ := h.live m hm
    exact List.mem_range.2 (h.lt_fresh hmp)
  simpa using (List.subperm_of_subset h.chain.nodup hsub).length_le

/-- **`vfs_remove_mountpoint`** of the last mountpoint takes it out and leaves it allocated. -/
theorem vfsRemoveMountpoint_spec (h : σ.Inv opens (l ++ [t])) :
    ∃ σ', σ.vfsRemoveMountpoint t = some σ' ∧ σ'.Inv opens l ∧ Keeps σ σ' := by
  have hin : t ∈ l ++ [t] := List.mem_append_right _ (List.mem_singleton.2 rfl)
  have hnot : t ∉ l := (nodup_snoc.1 h.chain.nodup).2
  have htail := h.tail
  rw [List.getLast?_concat] at htail
  obtain ⟨mp, ht⟩ := h.live t hin
  have hmore := h.refcount_listed hin ht
  have hmem : ∀ m, m ≠ t → (m ∈ l ↔ m ∈ l ++ [t]) := fun m hne => by simp [hne]
  have hr : mp.refcount - 1 + (if t ∈ l ++ [t] then 1 else 0) = mp.refcount + if t ∈ l then 1 else 0 := by
    rw [if_pos hin, if_neg hnot]
    omega
  have hlive : ∀ m ∈ l, ∃ mp, σ.heap m = some (.mountpoint mp) := fun m hm => h.live m (List.mem_append_left _ hm)
  have hlen := h.length_le
  rw [vfsRemoveMountpoint, unlinkFrom_last h.chain h.live (by rw [List.length_append] at hlen; omega) none, Option.or_none]
  rcases List.eq_nil_or_concat l with rfl | ⟨l, s, rfl⟩
  · obtain ⟨σ₁, hσ₁⟩ : ∃ σ₁ : Vfs, σ₁ = { σ with tail := none, head := none } := ⟨_, rfl⟩
    have hheap₁ : σ₁.heap = σ.heap := by rw [hσ₁]
    have ht₁ : σ₁.heap t = some (.mountpoint mp) := by rw [hheap₁, ht]
    have hk₁ : Keeps σ σ₁ := by
      rw [hσ₁]
      exact ⟨rfl, rfl, rfl, fun _ mp h => ⟨mp, h, rfl, rfl, rfl⟩, fun _ _ => rfl⟩
    have hrun : ((σ.linkAfter none none).map fun σ => if some t = σ.tail then { σ with tail := none } else σ) = some σ₁ := by
      rw [linkAfter, Option.map_some, if_pos htail.symm, hσ₁]
    rw [List.getLast?_nil, hrun, Option.bind_some, mpPut_spec ht₁ hmore]
    exact ⟨_, rfl, h.recount hk₁ (.of_heap hheap₁) ht₁ (by rw [hσ₁]; rfl) (by rw [hσ₁]; rfl) hlive hmem ⟨rfl, rfl, rfl⟩ rfl hr⟩
  · rw [List.concat_eq_append] at *
    obtain ⟨mps, hs⟩ := h.live s (by simp)
    have hne : t ≠ s := fun he => hnot (by rw [he]; exact List.mem_append_right _ (List.mem_singleton.2 rfl))
    obtain ⟨σ₁, hσ₁⟩ : ∃ σ₁ : Vfs, σ₁ = { σ.setMp s { mps with nextMountpoint := none } with tail := some s } :=
      ⟨_, rfl⟩
    have hheap₁ : σ₁.heap = (σ.setMp s { mps with nextMountpoint := none }).heap := by rw [hσ₁]
    have ht₁ : σ₁.heap t = some (.mountpoint mp) := by
      rw [hheap₁, heapStep_setMp.heap, Function.update_of_ne hne, ht]
    have hk₁ : Keeps σ σ₁ := by
      have hset : Keeps σ (σ.setMp s { mps with nextMountpoint := none }) := keeps_setMp hs ⟨rfl, rfl, rfl⟩
      rw [hσ₁]
      exact ⟨hset.fsList, hset.grant, hset.fresh, hset.mount, hset.other⟩
    have hchain : Chain σ₁.nextOf σ₁.head (l ++ [s]) := by
      have hlinks : σ₁.nextOf = Function.update σ.nextOf s none := by
        rw [hσ₁]
        exact nextOf_setMp
      have hhead : σ₁.head = σ.head := by
        rw [hσ₁]
        rfl
      rw [hlinks, hhead]
      exact h.chain.dropLast
    have hrun : ((σ.linkAfter (some s) none).map fun σ => if some t = σ.tail then { σ with tail := some s } else σ) =
        some σ₁ := by
      have htail₁ : some t = (σ.setMp s { mps with nextMountpoint := none }).tail := htail.symm
      rw [linkAfter, mp?_eq_some.2 hs, Option.map_some, Option.map_some, if_pos htail₁, hσ₁]
    rw [List.getLast?_concat, hrun, Option.bind_some, mpPut_spec ht₁ hmore]
    exact ⟨_, rfl, h.recount hk₁ (.of_setMp hs hheap₁ rfl) ht₁ hchain (by rw [hσ₁, List.getLast?_concat]) hlive hmem ⟨rfl, rfl, rfl⟩ rfl hr⟩

/-! ### Creating a mountpoint -/

/-- The file system is known and there is memory for the structure and its two strings. -/
def CanCreate (type : ℤ) (σ : Vfs) : Prop :=
  (σ.vfsFindFs type).isSome ∧ σ.grant σ.fresh = true ∧ σ.grant (σ.fresh + 1) = true ∧ σ.grant (σ.fresh + 2) = true

/-- An object for text becomes a mountpoint. -/
theorem Inv.setText (h : σ.Inv opens ms) (hi : σ.heap i = some .text) (hfs : mp.filesystem ∈ σ.fsList)
    (hone : mp.refcount = 1) : (σ.setMp i mp).Inv opens ms := by
  have hother : ∀ a, a ≠ i → (σ.setMp i mp).heap a = σ.heap a := fun a ha => Function.update_of_ne ha _ _
  have hself : (σ.setMp i mp).heap i = some (.mountpoint mp) := Function.update_self ..
  have hmount : ∀ m mp₀, σ.heap m = some (.mountpoint mp₀) → (σ.setMp i mp).heap m = some (.mountpoint mp₀) :=
    fun m mp₀ hm => (hother m fun he => by rw [he, hi] at hm; exact absurd hm (by simp)).trans hm
  have hnode : ∀ n nd, σ.heap n = some (.node nd) → (σ.setMp i mp).heap n = some (.node nd) :=
    fun n nd hn => (hother n fun he => by rw [he, hi] at hn; exact absurd hn (by simp)).trans hn
  have hopen : ∀ m, openOn (σ.setMp i mp).heap opens m = openOn σ.heap opens m := fun m =>
    List.countP_congr fun n hn => by
      obtain ⟨nd, -, hnd, -⟩ := h.node n hn
      rw [hnd, hnode n nd hnd]
  refine ⟨h.chain.congr fun m hm => ?_, h.tail, fun m hm => ?_, fun a ha => ?_, fun m mp' hm => ?_, h.nodup, fun n hn => ?_,
    fun n nd hn => ?_, fun m mp' hm => ?_⟩
  · obtain ⟨mp₀, hm₀⟩ := h.live m hm
    rw [nextOf_of_heap hm₀, nextOf_of_heap (hmount m mp₀ hm₀)]
  · obtain ⟨mp₀, hm₀⟩ := h.live m hm
    exact ⟨mp₀, hmount m mp₀ hm₀⟩
  · rw [hother a (Nat.ne_of_gt (Nat.lt_of_lt_of_le (h.lt_fresh hi) ha)), h.bound a ha]
  · rw [hopen]
    rcases eq_or_ne m i with rfl | hne
    · obtain rfl := KObject.mountpoint.inj (Option.some.inj (hm.symm.trans hself))
      have hnot : m ∉ ms := fun hin => by
        obtain ⟨mp₀, hm₀⟩ := h.live m hin
        exact absurd (hm₀.symm.trans hi) (by simp)
      have hzero : openOn σ.heap opens m = 0 := List.countP_eq_zero.2 fun n hn => by
        obtain ⟨nd, mp₀, hnd, hm₀⟩ := h.node n hn
        rw [hnd, nodeMp, decide_eq_true_eq]
        intro he
        rw [Option.some.inj he, hi] at hm₀
        exact absurd hm₀ (by simp)
      rw [hone, if_neg hnot, hzero]
    · exact h.count m mp' ((hother m hne).symm.trans hm)
  · obtain ⟨nd, mp₀, hnd, hm₀⟩ := h.node n hn
    exact ⟨nd, mp₀, hnode n nd hnd, hmount _ mp₀ hm₀⟩
  · refine h.opened n nd ((hother n fun he => ?_).symm.trans hn)
    rw [he, hself] at hn
    exact absurd hn (by simp)
  · rcases eq_or_ne m i with rfl | hne
    · obtain rfl := KObject.mountpoint.inj (Option.some.inj (hm.symm.trans hself))
      exact hfs
    · exact h.fs m mp' ((hother m hne).symm.trans hm)

/-- **`vfs_create_mountpoint`**: all of its objects, or none. -/
theorem vfsCreateMountpoint_cases (h : σ.Inv opens ms) (device mountPoint : CString) (type : ℤ) :
    (¬ σ.CanCreate type ∧ ∃ k σ', σ.vfsCreateMountpoint device mountPoint type = some (none, σ') ∧
      HeapStep σ σ' σ.heap k) ∨
    (σ.CanCreate type ∧ ∃ fs σ', fs ∈ σ.fsList ∧
      σ.vfsCreateMountpoint device mountPoint type = some (some σ.fresh, σ') ∧ σ'.Inv opens ms ∧
      HeapStep σ σ' (Function.update (Function.update (Function.update σ.heap (σ.fresh + 1) (some .text))
        (σ.fresh + 2) (some .text)) σ.fresh
          (some (.mountpoint ⟨fs, none, (σ.fresh + 1, mountPoint), (σ.fresh + 2, device), none, 1⟩))) 3) := by
  unfold vfsCreateMountpoint CanCreate
  rcases kmalloc_cases .text σ with ⟨hgrant, σ₁, hrun₁, hs₁⟩ | ⟨hgrant₁, σ₁, hrun₁, hs₁⟩
  · rw [hrun₁]
    exact .inl ⟨fun hc => by simp [hgrant] at hc, 1, σ₁, rfl, hs₁⟩
  · have hinv₁ := h.text hs₁
    have htext₁ : σ₁.heap σ.fresh = some .text := by rw [hs₁.heap, Function.update_self]
    have hback : Function.update σ₁.heap σ.fresh none = σ.heap := by
      rw [hs₁.heap, Function.update_idem, ← h.bound σ.fresh le_rfl, Function.update_eq_self]
    rw [hrun₁]
    dsimp only
    have hfind : σ₁.vfsFindFs type = σ.vfsFindFs type := by rw [vfsFindFs, vfsFindFs, hs₁.fsList]
    rw [hfind]
    rcases hfs : σ.vfsFindFs type with - | fs
    · obtain ⟨σ₂, hfree, hs₂⟩ := kfree_spec htext₁
      dsimp only
      rw [hfree]
      exact .inl ⟨fun hc => by simp at hc, 1, σ₂, rfl, (hs₁.trans hs₂).congr hback⟩
    · have hmem : fs ∈ σ.fsList := List.mem_of_find?_eq_some hfs
      dsimp only
      rcases kmalloc_cases .text σ₁ with ⟨hgrant, σ₂, hrun₂, hs₂⟩ | ⟨hgrant₂, σ₂, hrun₂, hs₂⟩
      · rw [hs₁.grant, hs₁.fresh] at hgrant
        obtain ⟨σ₃, hfree, hs₃⟩ := kfree_spec (σ := σ₂) (i := σ.fresh) (o := .text) (by rw [hs₂.heap, htext₁])
        rw [hrun₂]
        dsimp only
        rw [hfree]
        refine .inl ⟨fun hc => by simp [hgrant] at hc, 2, σ₃, rfl, ((hs₁.trans hs₂).trans hs₃).congr ?_⟩
        rw [hs₂.heap, hback]
      · have hinv₂ := hinv₁.text hs₂
        rw [hs₁.grant, hs₁.fresh] at hgrant₂
        rw [hrun₂]
        dsimp only
        have hheap₂ : σ₂.heap = Function.update (Function.update σ.heap σ.fresh (some .text)) (σ.fresh + 1) (some .text) := by
          rw [hs₂.heap, hs₁.heap, hs₁.fresh]
        rcases kmalloc_cases .text σ₂ with ⟨hgrant, σ₃, hrun₃, hs₃⟩ | ⟨hgrant₃, σ₃, hrun₃, hs₃⟩
        · rw [hs₂.grant, hs₁.grant, hs₂.fresh, hs₁.fresh] at hgrant
          obtain ⟨σ₄, hfree₄, hs₄⟩ := kfree_spec (σ := σ₃) (i := σ₁.fresh) (o := .text) (by
            rw [hs₃.heap, hs₂.heap, Function.update_self])
          obtain ⟨σ₅, hfree₅, hs₅⟩ := kfree_spec (σ := σ₄) (i := σ.fresh) (o := .text) (by
            rw [hs₄.heap, hs₃.heap, hs₂.heap, Function.update_idem, Function.update_of_ne (by rw [hs₁.fresh]; omega),
              htext₁])
          rw [hrun₃]
          dsimp only
          rw [hfree₄, Option.bind_some, hfree₅]
          refine .inl ⟨fun hc => by simp [hgrant] at hc, 3, σ₅, rfl,
            ((((hs₁.trans hs₂).trans hs₃).trans hs₄).trans hs₅).congr ?_⟩
          have hback₁ : Function.update σ₁.heap σ₁.fresh none = σ₁.heap := by
            rw [← hinv₁.bound σ₁.fresh le_rfl, Function.update_eq_self]
          rw [hs₄.heap, hs₃.heap, hs₂.heap, Function.update_idem, hback₁, hback]
        · have hinv₃ := hinv₂.text hs₃
          rw [hs₂.grant, hs₁.grant, hs₂.fresh, hs₁.fresh] at hgrant₃
          have hfresh₂ : σ₂.fresh = σ.fresh + 2 := by rw [hs₂.fresh, hs₁.fresh]
          rw [hrun₃]
          dsimp only
          have htext₃ : σ₃.heap σ.fresh = some .text := by
            rw [hs₃.heap, Function.update_of_ne (by omega), hs₂.heap, Function.update_of_ne (by rw [hs₁.fresh]; omega),
              htext₁]
          have hmem₃ : fs ∈ σ₃.fsList := by rwa [hs₃.fsList, hs₂.fsList, hs₁.fsList]
          rw [hs₁.fresh, hfresh₂]
          refine .inr ⟨⟨rfl, hgrant₁, hgrant₂, hgrant₃⟩, fs, _, hmem, rfl, hinv₃.setText htext₃ hmem₃ rfl,
            (((hs₁.trans hs₂).trans hs₃).trans heapStep_setMp).congr ?_⟩
          rw [hs₃.heap, hheap₂, hfresh₂]
          funext a
          simp only [Function.update_apply]
          split
          · rfl
          · rfl

/-! ### Mounting and unmounting -/

/-- **`vfs_mount`**: nothing, or a mountpoint with its strings, which is in the list when
`vfs_mount` returns `0`. -/
theorem vfsMount_cases (h : σ.Inv opens ms) (device mountPoint : CString) (type : ℤ) :
    (¬ σ.CanCreate type ∧ ∃ k σ', σ.vfsMount device mountPoint type = some (-1, σ') ∧ HeapStep σ σ' σ.heap k) ∨
    (σ.CanCreate type ∧ ∃ fs σ₁ r σ', HeapStep σ σ₁ (Function.update (Function.update (Function.update σ.heap
        (σ.fresh + 1) (some .text)) (σ.fresh + 2) (some .text)) σ.fresh
          (some (.mountpoint ⟨fs, none, (σ.fresh + 1, mountPoint), (σ.fresh + 2, device), none, 1⟩))) 3 ∧
      Keeps σ₁ σ' ∧ σ.vfsMount device mountPoint type = some (r, σ') ∧
        (r = 0 ∧ σ'.Inv opens (ms ++ [σ.fresh]) ∨ r = -1 ∧ σ'.Inv opens ms)) := by
  unfold vfsMount
  rcases vfsCreateMountpoint_cases h device mountPoint type with
    ⟨hnot, k, σ₁, hrun, hs⟩ | ⟨hcan, fs, σ₁, hfs, hrun, hinv₁, hs⟩
  · rw [hrun]
    exact .inl ⟨hnot, k, σ₁, rfl, hs⟩
  · have hi₁ : σ₁.heap σ.fresh =
        some (.mountpoint ⟨fs, none, (σ.fresh + 1, mountPoint), (σ.fresh + 2, device), none, 1⟩) := by
      rw [hs.heap, Function.update_self]
    have hnot : σ.fresh ∉ ms := fun hin => by
      obtain ⟨mp, hmp⟩ := h.live _ hin
      exact Nat.lt_irrefl _ (h.lt_fresh hmp)
    obtain ⟨σ₂, hadd, hinv₂, hk₂⟩ := vfsAddMountpoint_spec hinv₁ hi₁ hnot rfl
    obtain ⟨mp₂, hi₂, -⟩ := hk₂.mount _ _ hi₁
    refine .inr ⟨hcan, fs, σ₁, ?_⟩
    rw [hrun, Option.bind_some]
    dsimp only
    rw [hadd, Option.bind_some, mp?_eq_some.2 hi₂, Option.bind_some]
    rcases mp₂.filesystem.opTable.opMount with - | mount
    · obtain ⟨σ₃, hremove, hinv₃, hk₃⟩ := vfsRemoveMountpoint_spec hinv₂
      dsimp only
      rw [hremove]
      exact ⟨-1, σ₃, hs, hk₂.trans hk₃, rfl, .inr ⟨rfl, hinv₃⟩⟩
    · obtain ⟨σ₃, hσ₃⟩ : ∃ σ₃, σ₃ = σ₂.tick.setMp σ.fresh { mp₂ with dataPointer := mount σ₂.clock } := ⟨_, rfl⟩
      have htick : Keeps σ₂ σ₂.tick := ⟨rfl, rfl, rfl, fun _ mp h => ⟨mp, h, rfl, rfl, rfl⟩, fun _ _ => rfl⟩
      obtain ⟨hinv₃, hk₃⟩ : σ₃.Inv opens (ms ++ [σ.fresh]) ∧ Keeps σ₂ σ₃ := by
        rw [hσ₃]
        exact hinv₂.recount htick (.of_heap rfl) hi₂ hinv₂.chain hinv₂.tail hinv₂.live (fun _ _ => Iff.rfl)
          ⟨rfl, rfl, rfl⟩ rfl rfl
      dsimp only
      rw [← hσ₃]
      by_cases hdata : mount σ₂.clock = none
      · obtain ⟨σ₄, hremove, hinv₄, hk₄⟩ := vfsRemoveMountpoint_spec hinv₃
        rw [if_pos hdata, hremove]
        exact ⟨-1, σ₄, hs, (hk₂.trans hk₃).trans hk₄, rfl, .inr ⟨rfl, hinv₄⟩⟩
      · rw [if_neg hdata]
        exact ⟨0, σ₃, hs, hk₂.trans hk₃, rfl, .inl ⟨rfl, hinv₃⟩⟩

/-- **`vfs_unmount`** can only remove the last mountpoint. -/
theorem vfsUnmount_cases (h : σ.Inv opens ms) {path : CString} (hshort : flopstrlen path < 256) :
    ((∀ t mp, ms.getLast? = some t → σ.heap t = some (.mountpoint mp) →
        ¬ (mp.mountPoint.2 = path ∧ mp.filesystem.opTable.opUnmount.isSome)) ∧
      σ.vfsUnmount path = some (-1, σ)) ∨
    ∃ l t mp σ', ms = l ++ [t] ∧ σ.heap t = some (.mountpoint mp) ∧ mp.mountPoint.2 = path ∧
      mp.filesystem.opTable.opUnmount.isSome ∧ σ.vfsUnmount path = some (0, σ') ∧ σ'.Inv opens l ∧ Keeps σ σ' := by
  rw [vfsUnmount, if_neg (by omega), h.findFrom_tail, Option.bind_some]
  rcases hfound : lastMatch (fun mp => flopstrcmp mp.mountPoint.2 path = 0) σ ms with - | t
  · refine .inl ⟨fun t mp ht hmp hgood => ?_, rfl⟩
    have hsome := lastMatch_eq_some (p := fun mp => flopstrcmp mp.mountPoint.2 path = 0).2
      ⟨ht, mp, hmp, decide_eq_true (flopstrcmp_eq_zero.2 hgood.1)⟩
    exact absurd (hfound.symm.trans hsome) (by simp)
  · obtain ⟨hlast, mp, hmp, hpath⟩ := lastMatch_eq_some.1 hfound
    have hpath := flopstrcmp_eq_zero.1 (of_decide_eq_true hpath)
    obtain ⟨l, rfl⟩ := List.getLast?_eq_some_iff.1 hlast
    dsimp only
    rw [mp?_eq_some.2 hmp, Option.bind_some]
    rcases hop : mp.filesystem.opTable.opUnmount with - | unmount
    · refine .inl ⟨fun t' mp' ht hmp' hgood => ?_, rfl⟩
      obtain rfl := Option.some.inj (hlast.symm.trans ht)
      obtain rfl := KObject.mountpoint.inj (Option.some.inj (hmp.symm.trans hmp'))
      rw [hop] at hgood
      exact absurd hgood.2 (by simp)
    · have htick : σ.tick.Inv opens (l ++ [t]) := h.idle heapStep_tick
      obtain ⟨σ', hremove, hinv, hk⟩ := vfsRemoveMountpoint_spec htick
      dsimp only
      rw [hremove]
      exact .inr ⟨l, t, mp, σ', rfl, hmp, hpath, by rw [hop]; rfl, rfl, hinv, hk.fsList, hk.grant, hk.fresh, hk.mount, hk.other⟩

end Vfs

end Flopperating
