import RedisPlayground.Memory.Heap
import RedisPlayground.Memory.Objects
import RedisPlayground.Memory.Runs

/-! Components of a program on one heap. A component has calls, and its data is an
object of the heap. Two components whose calls are interleaved in any order are a
component again: what each call does to its own data, and that it needs no other,
is enough to know what the calls of both do. -/

namespace CMem

namespace Shape

section Many

variable {μ A B O : Type*} {X : Shape μ A B O} {m m' m₁ : μ} {S : Multiset A} {W W' : Multiset O}

/-- Some objects as one. -/
def many (X : Shape μ A B O) : Shape μ A B (Multiset O) where
  view := X.view
  foot := X.owned
  Ok m W := ∀ o ∈ W, X.Ok m o
  live hok hp := by
    obtain ⟨o, ho, hpo⟩ := Multiset.mem_bind.mp hp
    exact X.live (hok o ho) hpo
  congr hm hok o ho := X.congr (fun p hp => hm p (Multiset.mem_of_le (foot_le_owned ho) hp)) (hok o ho)

/-- `m₁` is `m` without what stands at `S`. -/
structure Without (X : Shape μ A B O) (m₁ m : μ) (S : Multiset A) : Prop where
  gone : ∀ p ∈ S, X.view m₁ p = none
  kept : ∀ p ∉ S, X.view m₁ p = X.view m p

/-- A program may be described on its objects as if it had made them itself. -/
theorem Without.sat (h : X.Without m₁ m (X.owned W)) (hn : (X.owned W).Nodup) (hok : X.many.Ok m W) :
    X.Sat m₁ m W := by
  refine ⟨⟨hn, fun p hp _ => h.gone p hp, fun p hp => absurd hp (Multiset.notMem_zero p), ?_⟩, hok⟩
  exact fun p _ hp => (h.kept p hp).symm

theorem Without.update (h : X.Without m₁ m (X.owned W)) (hW : X.Sat m₁ m' W') :
    Update (X.view m) (X.view m') (X.owned W) (X.owned W') := by
  have hnone : ∀ p : A, p ∉ (0 : Multiset A) := Multiset.notMem_zero
  refine ⟨hW.nodup, fun p hp hn => ?_, fun p hp hn => ?_, fun p hn hn' => ?_⟩
  · rw [← h.kept p hn]
    exact hW.update.fresh p hp (hnone p)
  · rw [hW.update.frame p (hnone p) hn]
    exact h.gone p hp
  · rw [hW.update.frame p (hnone p) hn', h.kept p hn]

end Many

/-- An object next to one of another kind. -/
def beside {μ A B O P : Type*} (X : Shape μ A B O) (Y : Shape μ A B P) (hview : Y.view = X.view) :
    Shape μ A B (O × P) where
  view := X.view
  foot o := X.foot o.1 + Y.foot o.2
  Ok m o := X.Ok m o.1 ∧ Y.Ok m o.2
  live hok hp := by
    rcases Multiset.mem_add.mp hp with hp | hp
    · exact X.live hok.1 hp
    · exact hview ▸ Y.live hok.2 hp
  congr hm hok := by
    refine ⟨X.congr (fun p hp => hm p (Multiset.mem_add.mpr (Or.inl hp))) hok.1, Y.congr (fun p hp => ?_) hok.2⟩
    rw [hview]
    exact hm p (Multiset.mem_add.mpr (Or.inr hp))

end Shape

/-- The calls `ι` of a component, which of them its clients may make, and the
handles `H` these have after one that returned `r`. -/
structure Component (γ H ι ρ : Type) where
  exec : ι → C γ ρ
  Legal : State γ → H → ι → Prop
  handles : H → ι → ρ → H

namespace Component

variable {γ H H' ι κ ρ : Type}

def step (c : Component γ H ι ρ) (x : State γ × H) (e : ι × ρ) (x' : State γ × H) : Prop :=
  c.Legal x.1 x.2 e.1 ∧ c.exec e.1 x.1 = .ok (e.2, x'.1) ∧ x'.2 = c.handles x.2 e.1 e.2

/-- The calls of both. -/
def beside (c : Component γ H ι ρ) (d : Component γ H' κ ρ) : Component γ (H × H') (ι ⊕ κ) ρ where
  exec := Sum.elim c.exec d.exec
  Legal s h := Sum.elim (c.Legal s h.1) (d.Legal s h.2)
  handles h op r := op.elim (fun op => (c.handles h.1 op r, h.2)) fun op => (h.1, d.handles h.2 op r)

end Component

/-- A step of one of two, during which the other one stays as it is. -/
inductive Beside {α β ι κ ρ : Type*} (f : α → ι × ρ → α → Prop) (g : β → κ × ρ → β → Prop) :
    α × β → (ι ⊕ κ) × ρ → α × β → Prop where
  | left {a a' b op r} : f a (op, r) a' → Beside f g (a, b) (.inl op, r) (a', b)
  | right {a b b' op r} : g b (op, r) b' → Beside f g (a, b) (.inr op, r) (a, b')

/-- Each call of `c` takes the object that represents `a` to one that represents a
state `astep` allows; it reaches no other block that is live. -/
structure Refines {γ H ι ρ α O A B : Type} (E : Stop → Prop) (c : Component γ H ι ρ) (X : Shape Mem A B O)
    (Rep : H → α → O → Prop) (astep : α → ι × ρ → α → Prop) : Prop where
  step : ∀ {s h a o op}, Rep h a o → X.Ok s.mem o → (X.foot o).Nodup → c.Legal s h op →
    wp E (c.exec op) (fun r s' => ∃ a' o', astep a (op, r) a' ∧ Rep (c.handles h op r) a' o' ∧
      X.Ok s'.mem o' ∧ Update (X.view s.mem) (X.view s'.mem) (X.foot o) (X.foot o')) s

namespace Refines

variable {γ H H' ι κ ρ α β O P A B : Type} {E : Stop → Prop} {c : Component γ H ι ρ} {d : Component γ H' κ ρ}
  {X : Shape Mem A B O} {Y : Shape Mem A B P} {Rep : H → α → O → Prop} {Rep' : H' → β → P → Prop}
  {f : α → ι × ρ → α → Prop} {g : β → κ × ρ → β → Prop}

/-- A component whose calls are known wherever its objects are all that is new. -/
theorem of_sat {Rep : H → α → Multiset O → Prop} (hcut : ∀ m S, ∃ m₁, X.Without m₁ m S)
    (hstep : ∀ {m₁ : Mem} {s h a W op}, X.Sat m₁ s.mem W → Rep h a W → c.Legal s h op →
      wp E (c.exec op) (fun r s' => ∃ a' W', f a (op, r) a' ∧ Rep (c.handles h op r) a' W' ∧
        X.Sat m₁ s'.mem W') s) : Refines E c X.many Rep f where
  step := by
    intro s h a W op hrep hok hn hlegal
    obtain ⟨m₁, hm₁⟩ := hcut s.mem (X.owned W)
    refine (hstep (hm₁.sat hn hok) hrep hlegal).mono fun r s' hpost => ?_
    obtain ⟨a', W', ha, hrep', hW⟩ := hpost
    exact ⟨a', W', ha, hrep', hW.ok, hm₁.update hW⟩

/-- The frame rule: side by side, two components do what they do apart. -/
theorem beside (hc : Refines E c X Rep f) (hd : Refines E d Y Rep' g) (hview : Y.view = X.view) :
    Refines E (c.beside d) (X.beside Y hview) (fun h a o => Rep h.1 a.1 o.1 ∧ Rep' h.2 a.2 o.2) (Beside f g) where
  step := by
    rintro s ⟨h, h'⟩ ⟨a, b⟩ ⟨o, o'⟩ op ⟨hrep, hrep'⟩ ⟨hok, hok'⟩ hn hlegal
    change (X.foot o + Y.foot o').Nodup at hn
    obtain ⟨hno, hno', -⟩ := Multiset.nodup_add.mp hn
    have hlive : ∀ p ∈ X.foot o, X.view s.mem p ≠ none := fun p hp => X.live hok hp
    have hlive' : ∀ p ∈ Y.foot o', Y.view s.mem p ≠ none := fun p hp => Y.live hok' hp
    cases op with
    | inl op =>
      refine (hc.step hrep hok hno hlegal).mono fun r s' hpost => ?_
      obtain ⟨a', o₁, ha, hrep₁, hok₁, hu⟩ := hpost
      rw [hview] at hlive'
      refine ⟨(a', b), (o₁, o'), .left ha, ⟨hrep₁, hrep'⟩, ⟨hok₁, Y.congr (fun p hp => ?_) hok'⟩,
        hu.add hn hlive'⟩
      rw [hview]
      exact hu.same hn hlive' p hp
    | inr op =>
      rw [add_comm] at hn
      refine (hd.step hrep' hok' hno' hlegal).mono fun r s' hpost => ?_
      obtain ⟨b', o₁, hb, hrep₁, hok₁, hu⟩ := hpost
      rw [hview] at hu
      refine ⟨(a, b'), (o, o₁), .right hb, ⟨hrep, hrep₁⟩, ⟨X.congr (hu.same hn hlive) hok, hok₁⟩, ?_⟩
      have hadd := hu.add hn hlive
      rw [add_comm _ (X.foot o), add_comm _ (X.foot o)] at hadd
      exact hadd

variable {s₀ s : State γ} {h₀ h : H} {a₀ : α} {o₀ : O} {tr : List ((State γ × H) × ι × ρ)}

/-- A run of a component is a run of what its data stands for. All it leaves on the heap is its object. -/
theorem run (hc : Refines E c X Rep f) (hrep : Rep h₀ a₀ o₀) (hok : X.Ok s₀.mem o₀) (hfoot : X.foot o₀ = 0)
    (hrun : Run c.step (s₀, h₀) tr (s, h)) :
    ∃ atr a o, Run f a₀ atr a ∧ labels atr = labels tr ∧ Rep h a o ∧ X.Ok s.mem o ∧
      Update (X.view s₀.mem) (X.view s.mem) 0 (X.foot o) := by
  have h0 : ∃ o, Rep h₀ a₀ o ∧ X.Ok s₀.mem o ∧ Update (X.view s₀.mem) (X.view s₀.mem) 0 (X.foot o) := by
    refine ⟨o₀, hrep, hok, ?_⟩
    rw [hfoot]
    exact Update.refl Multiset.nodup_zero
  obtain ⟨atr, a, hrun, hlab, o, hrep, hok, hu⟩ := hrun.simulates
    (R := fun x a => ∃ o, Rep x.2 a o ∧ X.Ok x.1.mem o ∧ Update (X.view s₀.mem) (X.view x.1.mem) 0 (X.foot o))
    h0 fun x e x' a ⟨o, hrep, hok, hu⟩ ⟨hlegal, hexec, hh⟩ => by
      obtain ⟨a', o', ha, hrep', hok', hu'⟩ := (hc.step hrep hok hu.nodup hlegal).of_ok hexec
      exact ⟨a', ha, o', hh ▸ hrep', hok', hu.trans hu'⟩
  exact ⟨atr, a, o, hrun, hlab, hrep, hok, hu⟩

end Refines

end CMem
