import RedisPlayground.Memory.Heap

/-! Values that are used up. Some functions use up the pointer they are called with, and the allocator
may give out the block behind a pointer again; between the two calls on one pointer it has to. What a
program has not used up yet is kept as a multiset of pointers. -/

namespace CMem

/-- The call gives out the block at `p`. -/
def Event.gives (p : Addr) : Event → Prop
  | .malloc _ q => q = p ∧ p ≠ NULL
  | .realloc _ _ q => q = p ∧ p ≠ NULL
  | .free _ => False
  | .call _ _ => False

section Spending

variable (uses : Addr → Prop) (base : Addr → Addr)

/-- Since the last call on `v` that uses it up, its block was given out again. -/
def Unspent (v : Addr) (es : List Event) : Prop :=
  ∀ es₂ f es₁, es = es₂ ++ .call f v :: es₁ → uses f → ∃ e ∈ es₂, e.gives (base v)

/-- No pointer is used up twice. The latest event comes first. -/
def SpentOnce (es : List Event) : Prop :=
  ∀ es₂ f v es₁, es = es₂ ++ .call f v :: es₁ → uses f → Unspent uses base v es₁

/-- No block is given out after a pointer to it was used up. -/
def NeverReused (es : List Event) : Prop :=
  ∀ es₂ f v es₁, es = es₂ ++ .call f v :: es₁ → uses f → ∀ e ∈ es₂, ¬ e.gives (base v)

/-- The pointers used up, the latest first. -/
def spent [DecidablePred uses] (es : List Event) : List Addr :=
  ((calls es).filter fun c => uses c.1).map Prod.snd

variable {uses base} {v f : Addr} {es es' : List Event} {e : Event}

theorem spentOnce_nil : SpentOnce uses base [] := by
  intro es₂ f v es₁ heq
  simp at heq

/-- A call among some events that none of the latest of these is. -/
theorem split_silent {es₁ es₂ : List Event} (hes' : calls es' = []) (h : es' ++ es = es₂ ++ .call f v :: es₁) :
    ∃ es₂', es₂ = es' ++ es₂' ∧ es = es₂' ++ .call f v :: es₁ := by
  rcases List.append_eq_append_iff.mp h with ⟨es₂', rfl, heq⟩ | ⟨rest, rfl, heq⟩
  · exact ⟨es₂', rfl, heq⟩
  · cases rest with
    | nil => exact ⟨[], by simp, heq.symm⟩
    | cons e rest =>
      obtain rfl : .call f v = e := (List.cons.inj heq).1
      rw [calls_append] at hes'
      simp [calls] at hes'

theorem Unspent.silent (h : Unspent uses base v es) (hes' : calls es' = []) : Unspent uses base v (es' ++ es) := by
  intro es₂ f es₁ heq hf
  obtain ⟨es₂', rfl, hrest⟩ := split_silent hes' heq
  obtain ⟨e, he, hgives⟩ := h es₂' f es₁ hrest hf
  exact ⟨e, List.mem_append_right _ he, hgives⟩

theorem Unspent.given (hes' : calls es' = []) (he : e ∈ es') (hgives : e.gives (base v)) :
    Unspent uses base v (es' ++ es) := by
  intro es₂ f es₁ heq _
  obtain ⟨es₂', rfl, -⟩ := split_silent hes' heq
  exact ⟨e, List.mem_append_left _ he, hgives⟩

theorem Unspent.call {w : Word} (h : Unspent uses base v es) (hne : uses f → v ≠ w) :
    Unspent uses base v (.call f w :: es) := by
  intro es₂ g es₁ heq hg
  cases es₂ with
  | nil =>
    obtain ⟨hcall, -⟩ := List.cons.inj heq
    obtain ⟨rfl, rfl⟩ := Event.call.inj hcall
    exact absurd rfl (hne hg)
  | cons e es₂ =>
    obtain ⟨-, heq⟩ := List.cons.inj heq
    obtain ⟨e', he', hgives⟩ := h es₂ g es₁ heq hg
    exact ⟨e', List.mem_cons_of_mem _ he', hgives⟩

theorem SpentOnce.silent (h : SpentOnce uses base es) (hes' : calls es' = []) : SpentOnce uses base (es' ++ es) := by
  intro es₂ f v es₁ heq hf
  obtain ⟨es₂', -, heq⟩ := split_silent hes' heq
  exact h es₂' f v es₁ heq hf

theorem SpentOnce.call (h : SpentOnce uses base es) (hv : uses f → Unspent uses base v es) :
    SpentOnce uses base (.call f v :: es) := by
  intro es₂ g w es₁ heq hg
  cases es₂ with
  | nil =>
    obtain ⟨hcall, rfl⟩ := List.cons.inj heq
    obtain ⟨rfl, rfl⟩ := Event.call.inj hcall
    exact hv hg
  | cons e es₂ =>
    obtain ⟨-, heq⟩ := List.cons.inj heq
    exact h es₂ g w es₁ heq hg

theorem SpentOnce.tail (h : SpentOnce uses base (e :: es)) : SpentOnce uses base es := by
  rintro es₂ f v es₁ rfl hf
  exact h (e :: es₂) f v es₁ rfl hf

theorem NeverReused.tail (h : NeverReused uses base (e :: es)) : NeverReused uses base es := by
  rintro es₂ f v es₁ rfl hf e' he'
  exact h (e :: es₂) f v es₁ rfl hf e' (List.mem_cons_of_mem _ he')

theorem mem_of_mem_calls {c : Addr × Word} (h : c ∈ calls es) : .call c.1 c.2 ∈ es := by
  induction es with
  | nil => simp [calls] at h
  | cons e es ih =>
    cases e with
    | call f w =>
      rcases List.mem_cons.mp h with rfl | h
      · exact List.mem_cons_self
      · exact List.mem_cons_of_mem _ (ih h)
    | malloc | realloc | free => exact List.mem_cons_of_mem _ (ih h)

/-- Where no address is used again, no pointer is passed twice to a function that uses it up. -/
theorem SpentOnce.nodup [DecidablePred uses] (h : SpentOnce uses base es) (hr : NeverReused uses base es) :
    (spent uses es).Nodup := by
  induction es with
  | nil => exact List.nodup_nil
  | cons e es ih =>
    have hrest := ih h.tail hr.tail
    cases e with
    | call f v =>
      by_cases hf : uses f
      · have hcons : spent uses (.call f v :: es) = v :: spent uses es := by simp [spent, calls, hf]
        rw [hcons]
        refine List.nodup_cons.mpr ⟨fun hmem => ?_, hrest⟩
        obtain ⟨⟨g, w⟩, hc, rfl⟩ := List.mem_map.mp hmem
        obtain ⟨hc, hg⟩ := List.mem_filter.mp hc
        obtain ⟨es₂, es₁, rfl⟩ := List.append_of_mem (mem_of_mem_calls hc)
        have hg : uses g := of_decide_eq_true hg
        obtain ⟨e, he, hgives⟩ := h [] f w _ rfl hf es₂ g es₁ rfl hg
        exact hr (.call f w :: es₂) g w es₁ rfl hg e (List.mem_cons_of_mem _ he) hgives
      · have hcons : spent uses (.call f v :: es) = spent uses es := by simp [spent, calls, hf]
        rwa [hcons]
    | malloc | realloc | free => exact hrest

end Spending

end CMem
