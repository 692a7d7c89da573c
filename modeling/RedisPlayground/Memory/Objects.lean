import Mathlib.Data.Multiset.Bind

/-! Heaps made of objects. An object owns some addresses and says what stands
there; a heap satisfies a multiset of objects when they own different addresses
and everything else is as it was before the program ran. A program that works
on some of the objects is described by an `Update` of the addresses these own,
and the rules at the end frame it against the other objects. -/

namespace CMem

section Update

variable {A B : Type*} {m m' m'' : A → Option B} {S S' S'' T : Multiset A}

/-- A program that owned the addresses `S` turned `m` into `m'` and owns `S'`. -/
structure Update (m m' : A → Option B) (S S' : Multiset A) : Prop where
  nodup : S'.Nodup
  fresh : ∀ p ∈ S', p ∉ S → m p = none
  freed : ∀ p ∈ S, p ∉ S' → m' p = none
  frame : ∀ p, p ∉ S → p ∉ S' → m' p = m p

theorem Update.refl (h : S.Nodup) : Update m m S S :=
  ⟨h, fun _ hp hn => absurd hp hn, fun _ hp hn => absurd hp hn, fun _ _ _ => rfl⟩

theorem Update.trans (h : Update m m' S S') (h' : Update m' m'' S' S'') : Update m m'' S S'' where
  nodup := h'.nodup
  fresh p hp hn := by
    by_cases hp' : p ∈ S'
    · exact h.fresh p hp' hn
    · rw [← h.frame p hn hp']
      exact h'.fresh p hp hp'
  freed p hp hn := by
    by_cases hp' : p ∈ S'
    · exact h'.freed p hp' hn
    · rw [h'.frame p hp' hn]
      exact h.freed p hp hp'
  frame p hn hn'' := by
    by_cases hp' : p ∈ S'
    · rw [h'.freed p hp' hn'', h.fresh p hp' hn]
    · rw [h'.frame p hp' hn'', h.frame p hn hp']

/-- What is live and not owned by the program is not reached by it. -/
theorem Update.notMem (h : Update m m' S S') (hn : (S + T).Nodup) (hT : ∀ p ∈ T, m p ≠ none) :
    ∀ p ∈ T, p ∉ S ∧ p ∉ S' := by
  intro p hp
  have hS : p ∉ S := fun hmem => Multiset.disjoint_left.mp (Multiset.nodup_add.mp hn).2.2 hmem hp
  exact ⟨hS, fun hmem => hT p hp (h.fresh p hmem hS)⟩

theorem Update.same (h : Update m m' S S') (hn : (S + T).Nodup) (hT : ∀ p ∈ T, m p ≠ none) :
    ∀ p ∈ T, m' p = m p := by
  intro p hp
  obtain ⟨hS, hS'⟩ := h.notMem hn hT p hp
  exact h.frame p hS hS'

theorem Update.add (h : Update m m' S S') (hn : (S + T).Nodup) (hT : ∀ p ∈ T, m p ≠ none) :
    Update m m' (S + T) (S' + T) where
  nodup := by
    refine Multiset.nodup_add.mpr ⟨h.nodup, (Multiset.nodup_add.mp hn).2.1, ?_⟩
    exact Multiset.disjoint_right.mpr fun {p} hp => (h.notMem hn hT p hp).2
  fresh p hp hS := by
    rw [Multiset.mem_add, not_or] at hS
    exact h.fresh p ((Multiset.mem_add.mp hp).resolve_right hS.2) hS.1
  freed p hp hS := by
    rw [Multiset.mem_add, not_or] at hS
    exact h.freed p ((Multiset.mem_add.mp hp).resolve_right hS.2) hS.1
  frame p hS hS' := by
    rw [Multiset.mem_add, not_or] at hS hS'
    exact h.frame p hS.1 hS'.1

/-- A program that ends with what it began with changed nothing else. -/
theorem Update.eq_of_empty (h : Update m m' 0 0) : m' = m :=
  funext fun p => h.frame p (Multiset.notMem_zero p) (Multiset.notMem_zero p)

/-- What was live before the program ran is as it was. -/
theorem Update.old {p : A} (h : Update m m' 0 S) (hp : m p ≠ none) : m' p = m p := by
  by_cases hS : p ∈ S
  · exact absurd (h.fresh p hS (Multiset.notMem_zero p)) hp
  · exact h.frame p (Multiset.notMem_zero p) hS

/-- Work on what is already owned. -/
theorem Update.keep (h : Update m m' 0 S) (hw : ∀ p ∉ S, m'' p = m' p) : Update m m'' 0 S where
  nodup := h.nodup
  fresh := h.fresh
  freed p hp := absurd hp (Multiset.notMem_zero p)
  frame p hn hS := (hw p hS).trans (h.frame p hn hS)

/-- Work on what is already owned and on one new block. -/
theorem Update.grow {p : A} (h : Update m m' 0 S) (hlive : ∀ q ∈ S, m' q ≠ none) (hp : m' p = none)
    (hw : ∀ q, q ≠ p → q ∉ S → m'' q = m' q) : Update m m'' 0 (p ::ₘ S) := by
  have hpS : p ∉ S := fun hmem => hlive p hmem hp
  refine ⟨Multiset.nodup_cons.mpr ⟨hpS, h.nodup⟩, fun q hq hn => ?_, fun q hq => ?_, fun q hn hq => ?_⟩
  · rcases Multiset.mem_cons.mp hq with rfl | hq
    · rw [← h.frame q hn hpS, hp]
    · exact h.fresh q hq hn
  · exact absurd hq (Multiset.notMem_zero q)
  · rw [Multiset.mem_cons, not_or] at hq
    rw [hw q hq.1 hq.2, h.frame q hn hq.2]

/-- One block is given back. -/
theorem Update.drop {p : A} (h : Update m m' 0 (p ::ₘ S)) (hp : m'' p = none)
    (hw : ∀ q, q ≠ p → m'' q = m' q) : Update m m'' 0 S := by
  refine ⟨(Multiset.nodup_cons.mp h.nodup).2, fun q hq hn => ?_, fun q hq => ?_, fun q hn hq => ?_⟩
  · exact h.fresh q (Multiset.mem_cons_of_mem hq) hn
  · exact absurd hq (Multiset.notMem_zero q)
  · by_cases hqp : q = p
    · rw [hqp, hp, h.fresh p (Multiset.mem_cons_self p S) (Multiset.notMem_zero p)]
    · rw [hw q hqp, h.frame q hn]
      rw [Multiset.mem_cons, not_or]
      exact ⟨hqp, hq⟩

end Update

section Change

variable {A B : Type*} {m m' m'' : A → Option B} {S S' S'' T : Multiset A}

/-- A program that owned the addresses `S` turned `m` into `m'` and owns `S'`; what it owns no
longer may be freed or not. -/
structure Change (m m' : A → Option B) (S S' : Multiset A) : Prop where
  nodup : S'.Nodup
  fresh : ∀ p ∈ S', p ∉ S → m p = none
  frame : ∀ p, p ∉ S → p ∉ S' → m' p = m p

theorem Update.change (h : Update m m' S S') : Change m m' S S' := ⟨h.nodup, h.fresh, h.frame⟩

theorem Change.update (h : Change m m' S S') (hfreed : ∀ p ∈ S, p ∉ S' → m' p = none) :
    Update m m' S S' := ⟨h.nodup, h.fresh, hfreed, h.frame⟩

end Change

/-- A kind of object in memories `μ` that are viewed as partial maps from
addresses to blocks. -/
structure Shape (μ A B O : Type*) where
  view : μ → A → Option B
  foot : O → Multiset A
  Ok : μ → O → Prop
  live : ∀ {m o p}, Ok m o → p ∈ foot o → view m p ≠ none
  congr : ∀ {m m' o}, (∀ p ∈ foot o, view m' p = view m p) → Ok m o → Ok m' o

namespace Shape

variable {μ A B O : Type*} {X : Shape μ A B O} {m m' m₀ : μ} {V V' W : Multiset O} {o o' : O}

/-- The addresses the objects of `W` own. -/
def owned (X : Shape μ A B O) (W : Multiset O) : Multiset A := W.bind X.foot

@[simp] theorem owned_zero : X.owned 0 = 0 := Multiset.zero_bind _

@[simp] theorem owned_add : X.owned (V + W) = X.owned V + X.owned W := Multiset.add_bind _ _ _

@[simp] theorem owned_singleton : X.owned {o} = X.foot o := Multiset.singleton_bind _ _

@[simp] theorem owned_cons : X.owned (o ::ₘ W) = X.foot o + X.owned W := Multiset.cons_bind _ _ _

theorem foot_le_owned (h : o ∈ W) : X.foot o ≤ X.owned W := Multiset.le_bind W h

/-- `m` holds the objects `W`, and otherwise what `m₀` does. -/
structure Sat (X : Shape μ A B O) (m₀ m : μ) (W : Multiset O) : Prop where
  update : Update (X.view m₀) (X.view m) 0 (X.owned W)
  ok : ∀ o ∈ W, X.Ok m o

theorem Sat.init : X.Sat m m 0 :=
  ⟨by rw [owned_zero]; exact Update.refl Multiset.nodup_zero, by simp⟩

theorem Sat.nodup (h : X.Sat m₀ m W) : (X.owned W).Nodup := h.update.nodup

theorem Sat.foot_nodup (h : X.Sat m₀ m W) (ho : o ∈ W) : (X.foot o).Nodup :=
  Multiset.nodup_of_le (foot_le_owned ho) h.nodup

theorem Sat.live (h : X.Sat m₀ m W) : ∀ p ∈ X.owned W, X.view m p ≠ none := by
  intro p hp
  obtain ⟨o, ho, hpo⟩ := Multiset.mem_bind.mp hp
  exact X.live (h.ok o ho) hpo

/-- The objects a program does not own are not changed by it. -/
theorem Sat.same (h : X.Sat m₀ m (V + W))
    (hu : Update (X.view m) (X.view m') (X.owned V) (X.owned V')) :
    ∀ p ∈ X.owned W, X.view m' p = X.view m p := by
  refine hu.same (owned_add ▸ h.nodup) fun p hp => h.live p ?_
  rw [owned_add]
  exact Multiset.mem_add.mpr (Or.inr hp)

/-- The frame rule: a program may be described on the objects it owns. -/
theorem Sat.step (h : X.Sat m₀ m (V + W))
    (hu : Update (X.view m) (X.view m') (X.owned V) (X.owned V')) (hok : ∀ o ∈ V', X.Ok m' o) :
    X.Sat m₀ m' (V' + W) where
  update := by
    have hW : ∀ p ∈ X.owned W, X.view m p ≠ none := by
      intro p hp
      refine h.live p ?_
      rw [owned_add]
      exact Multiset.mem_add.mpr (Or.inr hp)
    rw [owned_add]
    exact (owned_add ▸ h.update).trans (hu.add (owned_add ▸ h.nodup) hW)
  ok := by
    intro o ho
    rcases Multiset.mem_add.mp ho with ho | ho
    · exact hok o ho
    · refine X.congr (fun p hp => h.same hu p ?_) (h.ok o (Multiset.mem_add.mpr (Or.inr ho)))
      exact Multiset.mem_of_le (foot_le_owned ho) hp

theorem Sat.replace (h : X.Sat m₀ m (o ::ₘ W))
    (hu : Update (X.view m) (X.view m') (X.foot o) (X.foot o')) (hok : X.Ok m' o') :
    X.Sat m₀ m' (o' ::ₘ W) := by
  rw [← Multiset.singleton_add] at h ⊢
  refine h.step (by simpa only [owned_singleton] using hu) fun x hx => ?_
  rw [Multiset.mem_singleton.mp hx]
  exact hok

/-- Two objects become one. -/
theorem Sat.join {o₁ o₂ : O} (h : X.Sat m₀ m (o₁ ::ₘ o₂ ::ₘ W))
    (hu : Update (X.view m) (X.view m') (X.foot o₁ + X.foot o₂) (X.foot o')) (hok : X.Ok m' o') :
    X.Sat m₀ m' (o' ::ₘ W) := by
  rw [← Multiset.singleton_add o₁, ← Multiset.singleton_add o₂, ← add_assoc] at h
  rw [← Multiset.singleton_add]
  refine h.step (by simpa only [owned_add, owned_singleton] using hu) fun x hx => ?_
  rw [Multiset.mem_singleton.mp hx]
  exact hok

theorem Sat.create (h : X.Sat m₀ m W) (hu : Update (X.view m) (X.view m') 0 (X.foot o))
    (hok : X.Ok m' o) : X.Sat m₀ m' (o ::ₘ W) := by
  rw [← zero_add W] at h
  rw [← Multiset.singleton_add]
  refine h.step (by simpa only [owned_singleton, owned_zero] using hu) fun x hx => ?_
  rw [Multiset.mem_singleton.mp hx]
  exact hok

theorem Sat.destroy (h : X.Sat m₀ m (o ::ₘ W)) (hu : Update (X.view m) (X.view m') (X.foot o) 0) :
    X.Sat m₀ m' W := by
  rw [← Multiset.singleton_add] at h
  rw [← zero_add W]
  exact h.step (by simpa only [owned_singleton, owned_zero] using hu) (by simp)

/-- What was live before the program ran is as it was. -/
theorem Sat.old (h : X.Sat m₀ m W) {p : A} (hp : X.view m₀ p ≠ none) : X.view m p = X.view m₀ p :=
  h.update.old hp

/-- When no object is left the memory is the one the program began with. -/
theorem Sat.view_eq (h : X.Sat m₀ m 0) : X.view m = X.view m₀ :=
  Update.eq_of_empty (by simpa only [owned_zero] using h.update)

/-- `m` holds the objects `W`, which own different addresses. Elsewhere it is anything. -/
structure Parted (X : Shape μ A B O) (m : μ) (W : Multiset O) : Prop where
  nodup : (X.owned W).Nodup
  ok : ∀ o ∈ W, X.Ok m o

theorem Parted.init : X.Parted m 0 := ⟨by simp, by simp⟩

theorem Parted.live (h : X.Parted m W) : ∀ p ∈ X.owned W, X.view m p ≠ none := by
  intro p hp
  obtain ⟨o, ho, hpo⟩ := Multiset.mem_bind.mp hp
  exact X.live (h.ok o ho) hpo

/-- The frame rule: a program may change what it owns, and what is not live. -/
theorem Parted.step (h : X.Parted m (V + W)) (hn : (X.owned V').Nodup)
    (hfresh : ∀ p ∈ X.owned V', p ∉ X.owned V → X.view m p = none)
    (hframe : ∀ p, p ∉ X.owned V → p ∉ X.owned V' → X.view m p ≠ none → X.view m' p = X.view m p)
    (hok : ∀ o ∈ V', X.Ok m' o) : X.Parted m' (V' + W) := by
  have hnodup := h.nodup
  rw [owned_add, Multiset.nodup_add] at hnodup
  obtain ⟨-, hW, hdisj⟩ := hnodup
  have hlive : ∀ p ∈ X.owned W, X.view m p ≠ none := by
    intro p hp
    apply h.live p
    rw [owned_add]
    exact Multiset.mem_add.mpr (Or.inr hp)
  have hold : ∀ p ∈ X.owned W, p ∉ X.owned V := fun p hp hmem => Multiset.disjoint_left.mp hdisj hmem hp
  have hnew : ∀ p ∈ X.owned W, p ∉ X.owned V' := fun p hp hmem => hlive p hp (hfresh p hmem (hold p hp))
  refine ⟨?_, fun o ho => ?_⟩
  · rw [owned_add, Multiset.nodup_add]
    exact ⟨hn, hW, Multiset.disjoint_right.mpr fun {p} hp => hnew p hp⟩
  · rcases Multiset.mem_add.mp ho with ho | ho
    · exact hok o ho
    · refine X.congr (fun p hp => ?_) (h.ok o (Multiset.mem_add.mpr (Or.inr ho)))
      have hp := Multiset.mem_of_le (foot_le_owned ho) hp
      exact hframe p (hold p hp) (hnew p hp) (hlive p hp)

theorem Parted.replace (h : X.Parted m (o ::ₘ W)) (hc : Change (X.view m) (X.view m') (X.foot o) (X.foot o'))
    (hok : X.Ok m' o') : X.Parted m' (o' ::ₘ W) := by
  rw [← Multiset.singleton_add] at h ⊢
  refine h.step (by simpa using hc.nodup) (by simpa using hc.fresh) ?_ (by simpa using hok)
  intro p hp hp' _
  rw [owned_singleton] at hp hp'
  exact hc.frame p hp hp'

/-- Two objects become one. -/
theorem Parted.join {o₁ o₂ : O} (h : X.Parted m (o₁ ::ₘ o₂ ::ₘ W))
    (hc : Change (X.view m) (X.view m') (X.foot o₁ + X.foot o₂) (X.foot o')) (hok : X.Ok m' o') :
    X.Parted m' (o' ::ₘ W) := by
  rw [← Multiset.singleton_add o₁, ← Multiset.singleton_add o₂, ← add_assoc] at h
  rw [← Multiset.singleton_add]
  refine h.step (by simpa using hc.nodup) ?_ ?_ (by simpa using hok)
  · simpa only [owned_add, owned_singleton] using hc.fresh
  · intro p hp hp' _
    rw [owned_add, owned_singleton, owned_singleton] at hp
    rw [owned_singleton] at hp'
    exact hc.frame p hp hp'

/-- A new object, beside which all that is live stays as it is. -/
theorem Parted.create (h : X.Parted m W) (hn : (X.foot o).Nodup) (hfresh : ∀ p ∈ X.foot o, X.view m p = none)
    (hframe : ∀ p, X.view m p ≠ none → X.view m' p = X.view m p) (hok : X.Ok m' o) : X.Parted m' (o ::ₘ W) := by
  rw [← zero_add W] at h
  rw [← Multiset.singleton_add]
  refine h.step (by simpa using hn) (by simpa using hfresh) ?_ (by simpa using hok)
  exact fun p _ _ hp => hframe p hp

/-- An object is given up, whatever is left of it. -/
theorem Parted.destroy (h : X.Parted m (o ::ₘ W)) (hframe : ∀ p ∉ X.foot o, X.view m' p = X.view m p) :
    X.Parted m' W := by
  rw [← Multiset.singleton_add] at h
  rw [← zero_add W]
  refine h.step (by simp) (by simp) ?_ (by simp)
  intro p hp _ _
  rw [owned_singleton] at hp
  exact hframe p hp

theorem Parted.congr (h : X.Parted m W) (hframe : ∀ p, X.view m p ≠ none → X.view m' p = X.view m p) :
    X.Parted m' W := by
  rw [← zero_add W] at h ⊢
  exact h.step (by simp) (by simp) (fun p _ _ hp => hframe p hp) (by simp)

end Shape

end CMem
