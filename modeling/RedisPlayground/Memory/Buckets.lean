import Mathlib.Algebra.BigOperators.Group.Finset.Piecewise
import RedisPlayground.Memory.Links

/-! Chained hash tables. The chains of a table are the buckets of the list of all
its entries, the latest first: an entry is put at the front of its chain, so that
each chain has its entries in the order of the whole list. -/

namespace CMem

variable {A V I : Type*} [DecidableEq I] {ix : V → I} {i : I} {p : A} {v : V} {ns : List (A × V)}

/-- The entries whose value has the index `i`. -/
def bucket (ix : V → I) (ns : List (A × V)) (i : I) : List (A × V) :=
  ns.filter fun n => ix n.2 = i

@[simp] theorem bucket_nil : bucket ix ([] : List (A × V)) i = [] := rfl

theorem bucket_cons_self : bucket ix ((p, v) :: ns) (ix v) = (p, v) :: bucket ix ns (ix v) := by
  simp only [bucket, List.filter_cons, decide_true, if_true]

theorem bucket_cons_ne (h : i ≠ ix v) : bucket ix ((p, v) :: ns) i = bucket ix ns i := by
  rw [bucket, List.filter_cons_of_neg (by simpa using h.symm), bucket]

theorem mem_bucket {n : A × V} : n ∈ bucket ix ns i ↔ n ∈ ns ∧ ix n.2 = i := by
  rw [bucket, List.mem_filter, decide_eq_true_eq]

theorem bucket_sublist : (bucket ix ns i).Sublist ns := List.filter_sublist

/-- The chains are linked, each from its own anchor on. -/
def Chained (cell : A → A → A → V → Prop) (ix : V → I) (a : A) (ns : List (A × V)) (b : A) : Prop :=
  ∀ i, Linked cell a (bucket ix ns i) b

variable {cell cell' : A → A → A → V → Prop} {a b : A}

theorem chained_nil : Chained cell ix a [] b := fun _ => trivial

theorem Chained.mono (h : Chained cell ix a ns b)
    (hc : ∀ q ∈ ns.map Prod.fst, ∀ x y w, cell x q y w → cell' x q y w) : Chained cell' ix a ns b :=
  fun i => (h i).mono fun q hq => hc q (List.Sublist.subset (bucket_sublist.map Prod.fst) hq)

theorem Chained.node (h : Chained cell ix a ns b) (hp : p ∈ ns.map Prod.fst) :
    ∃ x y w, cell x p y w := by
  obtain ⟨n, hn, rfl⟩ := List.mem_map.mp hp
  exact (h (ix n.2)).node (List.mem_map.mpr ⟨n, mem_bucket.mpr ⟨hn, rfl⟩, rfl⟩)

/-- Where a node does not say what comes before it, a chain can start anywhere. -/
theorem Linked.reanchor {c : A} (hcell : ∀ {x y p q w}, cell x p q w → cell y p q w)
    (h : Linked cell a ns b) : Linked cell c ns b := by
  cases ns with
  | nil => trivial
  | cons n ns => exact ⟨hcell h.1, h.2⟩

/-- A new entry at the front of its chain. -/
theorem Chained.cons (hcell : ∀ {x y p q w}, cell x p q w → cell y p q w)
    (h : Chained cell ix a ns b) (hnew : cell a p (first (bucket ix ns (ix v)) b) v) :
    Chained cell ix a ((p, v) :: ns) b := by
  intro i
  by_cases hi : i = ix v
  · subst hi
    rw [bucket_cons_self]
    exact ⟨hnew, Linked.reanchor hcell (h _)⟩
  · rw [bucket_cons_ne hi]
    exact h i

theorem bucket_cons_length {n : A × V} :
    (bucket ix (n :: ns) i).length = (bucket ix ns i).length + if ix n.2 = i then 1 else 0 := by
  by_cases hi : ix n.2 = i
  · rw [← hi, bucket_cons_self, List.length_cons, if_pos rfl]
  · rw [bucket_cons_ne (Ne.symm hi), if_neg hi, Nat.add_zero]

/-- Every entry is in one bucket, so the lengths of all buckets add up. -/
theorem sum_buckets {is : Finset I} (hix : ∀ n ∈ ns, ix n.2 ∈ is) :
    ∑ i ∈ is, (bucket ix ns i).length = ns.length := by
  induction ns with
  | nil => exact Finset.sum_const_zero
  | cons n ns ih =>
    have hmem := hix n List.mem_cons_self
    simp only [bucket_cons_length, Finset.sum_add_distrib, Finset.sum_ite_eq, if_pos hmem,
      List.length_cons]
    rw [ih fun n hn => hix n (List.mem_cons_of_mem _ hn)]

end CMem
