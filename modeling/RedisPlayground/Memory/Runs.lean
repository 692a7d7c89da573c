import Mathlib.Data.List.Basic
import Mathlib.Tactic

/-! Labelled runs that remember the states they went through, with the rules
that carry an invariant, or an exact condition on the steps, along a run. -/

namespace CMem

variable {σ ε : Type*} {step : σ → ε → σ → Prop} {s₀ s : σ} {tr : List (σ × ε)}

/-- A run from `s₀` to a state: every state it left, with the label it left by. -/
inductive Run (step : σ → ε → σ → Prop) (s₀ : σ) : List (σ × ε) → σ → Prop where
  | nil : Run step s₀ [] s₀
  | snoc {tr s e s'} : Run step s₀ tr s → step s e s' → Run step s₀ (tr ++ [(s, e)]) s'

/-- `P` holds of every state a run went through, the last one included. -/
def Always (P : σ → Prop) (tr : List (σ × ε)) (s : σ) : Prop := (∀ x ∈ tr, P x.1) ∧ P s

theorem Always.last {P : σ → Prop} (h : Always P tr s) : P s := h.2

theorem always_nil {P : σ → Prop} : Always P ([] : List (σ × ε)) s ↔ P s := by simp [Always]

theorem always_snoc {P : σ → Prop} {s' : σ} {e : ε} :
    Always P (tr ++ [(s, e)]) s' ↔ Always P tr s ∧ P s' := by
  simp only [Always, List.forall_mem_append, List.forall_mem_singleton]

/-- A bound on the number of operations of one kind is kept with the invariant:
`P` may speak of the run so far. -/
theorem Run.invariant {P : List (σ × ε) → σ → Prop} (h : Run step s₀ tr s) (h0 : P [] s₀)
    (hstep : ∀ tr s e s', P tr s → step s e s' → P (tr ++ [(s, e)]) s') : P tr s := by
  induction h with
  | nil => exact h0
  | snoc _ hs ih => exact hstep _ _ _ _ ih hs

/-- If a step from a good state keeps `P` exactly when it meets `Ok`, then `P`
holds all along a run exactly if every step of the run meets `Ok`. The invariant
`I` is what is known of a state as long as `P` has held. -/
theorem Run.always_iff {I P : σ → Prop} {Ok : σ → ε → Prop} (h : Run step s₀ tr s)
    (hI : I s₀) (hP : P s₀)
    (hstep : ∀ s e s', I s → P s → step s e s' → I s' ∧ (P s' ↔ Ok s e)) :
    Always P tr s ↔ ∀ x ∈ tr, Ok x.1 x.2 := by
  have key : (Always P tr s → I s) ∧ (Always P tr s ↔ ∀ x ∈ tr, Ok x.1 x.2) := by
    induction h with
    | nil => simpa [always_nil] using ⟨fun _ => hI, hP⟩
    | @snoc tr s e s' _ hs ih =>
      simp only [always_snoc, List.forall_mem_append, List.forall_mem_singleton]
      refine ⟨fun hall => (hstep _ _ _ (ih.1 hall.1) hall.1.last hs).1, ?_⟩
      constructor
      · intro hall
        exact ⟨ih.2.mp hall.1, (hstep _ _ _ (ih.1 hall.1) hall.1.last hs).2.mp hall.2⟩
      · intro hok
        have hall := ih.2.mpr hok.1
        exact ⟨hall, (hstep _ _ _ (ih.1 hall) hall.last hs).2.mpr hok.2⟩
  exact key.2

/-- The labels of a run. -/
def labels (tr : List (σ × ε)) : List ε := tr.map Prod.snd

/-- Forward simulation: a run of the steps is matched by a run of the abstract
steps with the same labels. -/
theorem Run.simulates {α : Type*} {astep : α → ε → α → Prop} {R : σ → α → Prop} {a₀ : α}
    (h : Run step s₀ tr s) (h0 : R s₀ a₀)
    (hstep : ∀ s e s' a, R s a → step s e s' → ∃ a', astep a e a' ∧ R s' a') :
    ∃ atr a, Run astep a₀ atr a ∧ labels atr = labels tr ∧ R s a := by
  induction h with
  | nil => exact ⟨[], a₀, Run.nil, rfl, h0⟩
  | snoc _ hs ih =>
    obtain ⟨atr, a, hrun, hlab, hR⟩ := ih
    obtain ⟨a', ha, hR'⟩ := hstep _ _ _ a hR hs
    refine ⟨_, a', hrun.snoc ha, ?_, hR'⟩
    rw [labels, labels, List.map_append, List.map_append]
    exact congrArg (· ++ _) hlab

end CMem
