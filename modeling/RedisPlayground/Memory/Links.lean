import Mathlib.Data.List.Basic
import Mathlib.Data.List.Nodup

/-! Linked structures in memory. `cell a p b v` says that the node at `p` has the
predecessor `a`, the successor `b` and the value `v`; `Linked cell a ns b` that
the nodes `ns`, given by their addresses and values, hang together between `a`
and `b`. A singly linked list has a `cell` that ignores its predecessor. -/

namespace CMem

variable {A V : Type*} {cell cell' : A → A → A → V → Prop} {a a' b b' p : A} {v : V}
  {xs ys ns : List (A × V)}

/-- Where a walk over `ns` starts, if what comes after is `b`. -/
def first (ns : List (A × V)) (b : A) : A :=
  match ns with
  | [] => b
  | n :: _ => n.1

/-- Where a walk over `ns` ends, if what comes before is `a`. -/
def last (a : A) : List (A × V) → A
  | [] => a
  | n :: ns => last n.1 ns

def Linked (cell : A → A → A → V → Prop) : A → List (A × V) → A → Prop
  | _, [], _ => True
  | a, n :: ns, b => cell a n.1 (first ns b) n.2 ∧ Linked cell n.1 ns b

@[simp] theorem first_nil : first ([] : List (A × V)) b = b := rfl

@[simp] theorem first_cons {n : A × V} : first (n :: ns) b = n.1 := rfl

@[simp] theorem first_append : first (xs ++ ys) b = first xs (first ys b) := by
  cases xs <;> rfl

@[simp] theorem last_nil : last a ([] : List (A × V)) = a := rfl

@[simp] theorem last_cons {n : A × V} : last a (n :: ns) = last n.1 ns := rfl

@[simp] theorem last_append : last a (xs ++ ys) = last (last a xs) ys := by
  induction xs generalizing a with
  | nil => rfl
  | cons n xs ih => exact ih

theorem first_mem (h : ns ≠ []) : first ns b ∈ ns.map Prod.fst := by
  cases ns with
  | nil => exact absurd rfl h
  | cons n ns => exact List.mem_cons_self

theorem last_mem (h : ns ≠ []) : last a ns ∈ ns.map Prod.fst := by
  induction ns generalizing a with
  | nil => exact absurd rfl h
  | cons n ns ih =>
    by_cases hns : ns = []
    · rw [hns]
      exact List.mem_cons_self
    · exact List.mem_cons_of_mem _ (ih hns)

theorem first_eq_first (h : ns ≠ []) (b b' : A) : first ns b = first ns b' := by
  cases ns with
  | nil => exact absurd rfl h
  | cons n ns => rfl

theorem last_eq_last (h : ns ≠ []) (a a' : A) : last a ns = last a' ns := by
  cases ns with
  | nil => exact absurd rfl h
  | cons n ns => rfl

theorem first_eq_iff (hb : b ∉ ns.map Prod.fst) : first ns b = b ↔ ns = [] := by
  refine ⟨fun h => ?_, fun h => by rw [h]; rfl⟩
  by_contra hne
  exact hb (h ▸ first_mem hne)

theorem last_eq_iff (ha : a ∉ ns.map Prod.fst) : last a ns = a ↔ ns = [] := by
  refine ⟨fun h => ?_, fun h => by rw [h]; rfl⟩
  by_contra hne
  exact ha (h ▸ last_mem hne)

@[simp] theorem linked_nil : Linked cell a [] b ↔ True := Iff.rfl

@[simp] theorem linked_cons {n : A × V} :
    Linked cell a (n :: ns) b ↔ cell a n.1 (first ns b) n.2 ∧ Linked cell n.1 ns b := Iff.rfl

theorem linked_append :
    Linked cell a (xs ++ ys) b ↔ Linked cell a xs (first ys b) ∧ Linked cell (last a xs) ys b := by
  induction xs generalizing a with
  | nil => simp
  | cons n xs ih => rw [List.cons_append, linked_cons, linked_cons, ih, first_append, last_cons, and_assoc]

/-- The node `(p, v)` and what hangs on either side of it. -/
theorem linked_split :
    Linked cell a (xs ++ (p, v) :: ys) b ↔
      Linked cell a xs p ∧ cell (last a xs) p (first ys b) v ∧ Linked cell p ys b := by
  rw [linked_append, linked_cons, first_cons]

theorem Linked.mono (h : Linked cell a ns b)
    (hc : ∀ q ∈ ns.map Prod.fst, ∀ x y w, cell x q y w → cell' x q y w) : Linked cell' a ns b := by
  induction ns generalizing a with
  | nil => trivial
  | cons n ns ih =>
    exact ⟨hc _ List.mem_cons_self _ _ _ h.1, ih h.2 fun q hq => hc q (List.mem_cons_of_mem _ hq)⟩

theorem Linked.node (h : Linked cell a ns b) (hp : p ∈ ns.map Prod.fst) : ∃ x y w, cell x p y w := by
  obtain ⟨⟨q, w⟩, hmem, rfl⟩ := List.mem_map.mp hp
  obtain ⟨xs, ys, rfl⟩ := List.append_of_mem hmem
  exact ⟨_, _, _, (linked_split.mp h).2.1⟩

theorem Linked.first_cell (h : Linked cell a ns b) (hns : ns ≠ []) :
    ∃ y w, cell a (first ns b) y w := by
  cases ns with
  | nil => exact absurd rfl hns
  | cons n ns => exact ⟨_, _, h.1⟩

theorem Linked.last_cell (h : Linked cell a ns b) (hns : ns ≠ []) :
    ∃ x w, cell x (last a ns) b w := by
  obtain ⟨xs, n, rfl⟩ := (List.eq_nil_or_concat' ns).resolve_left hns
  rw [last_append, last_cons, last_nil]
  exact ⟨_, _, (linked_split.mp h).2.1⟩

/-- The last node is given the successor `b'`. -/
theorem Linked.set_next (h : Linked cell a ns b) (hn : (ns.map Prod.fst).Nodup)
    (hc : ∀ q ∈ ns.map Prod.fst, q ≠ last a ns → ∀ x y w, cell x q y w → cell' x q y w)
    (hlast : ns ≠ [] → ∀ x w, cell x (last a ns) b w → cell' x (last a ns) b' w) :
    Linked cell' a ns b' := by
  rcases List.eq_nil_or_concat' ns with rfl | ⟨xs, ⟨p, v⟩, rfl⟩
  · trivial
  rw [List.map_append, List.nodup_append] at hn
  simp only [last_append, last_cons, last_nil] at hc hlast
  obtain ⟨hxs, hp, -⟩ := linked_split.mp h
  refine linked_split.mpr ⟨hxs.mono fun q hq => hc q (by simp [hq]) ?_, ?_, trivial⟩
  · exact hn.2.2 q hq p List.mem_cons_self
  · exact hlast (by simp) _ _ hp

/-- The first node is given the predecessor `a'`. -/
theorem Linked.set_prev (h : Linked cell a ns b) (hn : (ns.map Prod.fst).Nodup)
    (hc : ∀ q ∈ ns.map Prod.fst, q ≠ first ns b → ∀ x y w, cell x q y w → cell' x q y w)
    (hfirst : ns ≠ [] → ∀ y w, cell a (first ns b) y w → cell' a' (first ns b) y w) :
    Linked cell' a' ns b := by
  rcases ns with - | ⟨⟨p, v⟩, ys⟩
  · trivial
  rw [List.map_cons, List.nodup_cons] at hn
  refine ⟨hfirst (List.cons_ne_nil _ _) _ _ h.1, h.2.mono fun q hq => ?_⟩
  exact hc q (List.mem_cons_of_mem _ hq) (ne_of_mem_of_not_mem hq hn.1)

/-- Where every address has one node, the start of a walk that ends at `b`
determines it. -/
theorem Linked.unique (hcell : ∀ {p x y w x' y' w'}, cell x p y w → cell x' p y' w' → y = y' ∧ w = w')
    (hend : ∀ {x y w}, ¬ cell x b y w) (h : Linked cell a xs b) (h' : Linked cell a' ys b)
    (heq : first xs b = first ys b) : xs = ys := by
  induction xs generalizing a a' ys with
  | nil =>
    rcases ys with - | ⟨⟨p, v⟩, ys⟩
    · rfl
    · simp only [first_nil, first_cons] at heq
      rw [heq] at hend
      exact absurd h'.1 hend
  | cons n xs ih =>
    obtain ⟨p, v⟩ := n
    rcases ys with - | ⟨⟨q, w⟩, ys⟩
    · simp only [first_nil, first_cons] at heq
      rw [← heq] at hend
      exact absurd h.1 hend
    · obtain rfl : p = q := heq
      obtain ⟨hnext, rfl⟩ := hcell h.1 h'.1
      rw [ih h.2 h'.2 hnext]

/-- A walk that ends comes to no node twice. -/
theorem Linked.nodup (hcell : ∀ {p x y w x' y' w'}, cell x p y w → cell x' p y' w' → y = y' ∧ w = w')
    (hend : ∀ {x y w}, ¬ cell x b y w) (h : Linked cell a ns b) : (ns.map Prod.fst).Nodup := by
  induction ns generalizing a with
  | nil => exact List.nodup_nil
  | cons n ns ih =>
    refine List.nodup_cons.mpr ⟨fun hmem => ?_, ih h.2⟩
    obtain ⟨⟨q, w⟩, hq, heq⟩ := List.mem_map.mp hmem
    obtain rfl : q = n.1 := heq
    obtain ⟨xs, ys, hns⟩ := List.append_of_mem hq
    have hq := h.2
    rw [hns] at hq
    obtain ⟨-, hnode, hys⟩ := linked_split.mp hq
    -- both times the walk goes on the same way
    have hnext := (hcell h.1 hnode).1
    have heq : ns = ys := by
      apply h.2.unique _ _ hys hnext
      · exact hcell
      · exact hend
    have hlen := congrArg List.length heq
    rw [hns, List.length_append, List.length_cons] at hlen
    omega

end CMem
