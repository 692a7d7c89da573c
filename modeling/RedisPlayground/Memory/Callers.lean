import RedisPlayground.Memory.Heap

/-! Programs that choose each call by the answers they have had. The calls have a
meaning on abstract states and an execution on the heap; where each call does what it
means, so does every program. -/

namespace CMem

/-- The next call, by the answers so far, the latest first. -/
abbrev Caller (κ α : Type) := List α → Option κ

namespace Caller

variable {γ κ α σ ν : Type}

/-- The answers to at most `n` more calls and the state after them, if each call has a meaning. -/
def meaning (means : κ → σ → Option (α × σ)) (f : Caller κ α) : ℕ → List α → σ → Option (List α × σ)
  | 0, as, a => some (as, a)
  | n + 1, as, a =>
    match f as with
    | none => some (as, a)
    | some op => (means op a).bind fun r => meaning means f n (r.1 :: as) r.2

/-- The same calls on the heap, with the variables `ν` of the program. -/
def run (exec : κ → ν → C γ (α × ν)) (f : Caller κ α) : ℕ → List α → ν → C γ (List α × ν)
  | 0, as, v => return (as, v)
  | n + 1, as, v =>
    match f as with
    | none => return (as, v)
    | some op => do
      let r ← exec op v
      run exec f n (r.1 :: as) r.2

variable {means : κ → σ → Option (α × σ)} {exec : κ → ν → C γ (α × ν)} {E : Stop → Prop}
  {R : State γ → ν → σ → Prop} {f : Caller κ α} {s : State γ} {v : ν} {a a' : σ} {n : ℕ} {as bs : List α}

/-- The answers of a program are those its meaning says. -/
theorem run_of_step (hf : f.meaning means n as a = some (bs, a')) (hR : R s v a)
    (hstep : ∀ s v a op r, R s v a → means op a = some r → wp E (exec op v) (fun x s' => x.1 = r.1 ∧ R s' x.2 r.2) s) :
    wp E (f.run exec n as v) (fun x s' => x.1 = bs ∧ R s' x.2 a') s := by
  have hend : ∀ {s v a as}, R s v a → some (as, a) = some (bs, a') →
      wp E (return (as, v)) (fun (x : List α × ν) s' => x.1 = bs ∧ R s' x.2 a') s := by
    intro s v a as hR hf
    obtain ⟨rfl, rfl⟩ := Prod.mk.inj (Option.some.inj hf)
    exact wp_pure.mpr ⟨rfl, hR⟩
  induction n generalizing s v a as with
  | zero => exact hend hR hf
  | succ n ih =>
    rw [meaning] at hf
    rw [run]
    cases hop : f as with
    | none =>
      rw [hop] at hf
      exact hend hR hf
    | some op =>
      rw [hop] at hf
      obtain ⟨r, hr, hf⟩ := Option.bind_eq_some_iff.mp hf
      apply wp_bind.mpr
      refine (hstep s v a op r hR hr).mono fun x s' hx => ?_
      rw [hx.1]
      exact ih hf hx.2

end Caller

end CMem
