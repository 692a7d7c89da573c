import Mathlib.Data.List.DropRight
import RedisPlayground.Memory.Bytes

/-! A list without its margins, the longest prefix and the longest suffix that
consist of elements of one kind. Two scans find them, one from each end. -/

namespace CMem

variable {α : Type*} {q r : α → Bool} {xs ys us vs : List α} {x : α}

def strip (q : α → Bool) (xs : List α) : List α := (xs.dropWhile q).rdropWhile q

def margins (q : α → Bool) (xs : List α) : List α := xs.takeWhile q ++ (xs.dropWhile q).rtakeWhile q

theorem split_margins (q : α → Bool) (xs : List α) :
    xs = xs.takeWhile q ++ strip q xs ++ (xs.dropWhile q).rtakeWhile q := by
  rw [strip, List.append_assoc, List.rdropWhile_append_rtakeWhile, List.takeWhile_append_dropWhile]

theorem of_mem_margins (h : x ∈ margins q xs) : q x := by
  rcases List.mem_append.mp h with h | h
  · exact List.mem_takeWhile_imp h
  · exact List.mem_rtakeWhile_imp h

theorem strip_singleton : strip q [x] = if q x then [] else [x] := by
  by_cases h : q x <;> simp [strip, h]

theorem strip_sublist : (strip q xs).Sublist xs :=
  (List.rdropWhile_prefix q _).sublist.trans (List.dropWhile_sublist q)

/-- What is not of the kind is counted in the rest and in the margins. -/
theorem countP_split (q r : α → Bool) (xs : List α) :
    xs.countP r = (strip q xs).countP r + (margins q xs).countP r := by
  have h := congrArg (List.countP r) (split_margins q xs)
  rw [List.countP_append, List.countP_append] at h
  rw [margins, List.countP_append]
  omega

theorem countP_strip (q : α → Bool) (xs : List α) : (strip q xs).countP (!q ·) = xs.countP (!q ·) := by
  have hzero : (margins q xs).countP (!q ·) = 0 := by
    apply List.countP_eq_zero.mpr
    intro x hx
    simpa using of_mem_margins hx
  rw [countP_split q (!q ·) xs, hzero, Nat.add_zero]

theorem rdropWhile_append_of_pos (h : ∀ y ∈ ys, q y) : (xs ++ ys).rdropWhile q = xs.rdropWhile q := by
  rw [List.rdropWhile, List.reverse_append, List.dropWhile_append_of_pos (by simpa using h)]
  rfl

theorem rdropWhile_cons_neg (h : ¬ q x) : (x :: xs).rdropWhile q = x :: xs.rdropWhile q := by
  rw [List.rdropWhile, List.reverse_cons, List.dropWhile_append]
  split
  · next hnil =>
    rw [List.isEmpty_iff] at hnil
    simp [List.rdropWhile, hnil, h]
  · simp [List.rdropWhile]

/-- A scan from the end does not get beyond what is not of the kind. -/
theorem rtakeWhile_append_neg (h : ¬ q x) : (ys ++ x :: xs).rtakeWhile q = xs.rtakeWhile q := by
  have hx : (x :: ys.reverse).takeWhile q = [] := by simp [h]
  rw [List.rtakeWhile, List.rtakeWhile, List.reverse_append, List.reverse_cons, List.append_assoc,
    List.singleton_append, List.takeWhile_append, hx, List.append_nil]
  split
  · next hlen =>
    rw [List.takeWhile_eq_self_iff.mpr]
    exact List.takeWhile_eq_self_iff.mp ((List.takeWhile_prefix q).eq_of_length hlen)
  · rfl

/-- What is added at the end is stripped exactly if it is of the kind. -/
theorem strip_append_iff : strip q (xs ++ ys) = strip q xs ↔ ∀ y ∈ ys, q y := by
  constructor
  · intro h y hy
    have hcount := congrArg (List.countP (!q ·)) h
    rw [countP_strip, countP_strip, List.countP_append, Nat.add_eq_left, List.countP_eq_zero] at hcount
    simpa using hcount y hy
  · intro h
    rw [strip, List.dropWhile_append]
    split
    · next hnil =>
      rw [List.isEmpty_iff] at hnil
      rw [List.dropWhile_eq_nil_iff.mpr h, strip, hnil]
    · rw [rdropWhile_append_of_pos h, strip]

theorem strip_congr (h : ∀ x ∈ xs, q x = r x) : strip q xs = strip r xs := by
  have hdrop : xs.dropWhile q = xs.dropWhile r := by
    induction xs with
    | nil => rfl
    | cons x xs ih =>
      rw [List.dropWhile_cons, List.dropWhile_cons, h x List.mem_cons_self,
        ih fun y hy => h y (List.mem_cons_of_mem x hy)]
  have hmem : ∀ y ∈ xs.dropWhile r, q y = r y := fun y hy => h y ((List.dropWhile_sublist r).subset hy)
  rw [strip, strip, hdrop]
  generalize xs.dropWhile r = ys at hmem
  induction ys using List.reverseRecOn with
  | nil => rfl
  | append_singleton ys y ih =>
    rw [List.rdropWhile_concat, List.rdropWhile_concat, hmem y (by simp),
      ih fun z hz => hmem z (List.mem_append_left _ hz)]

/-- The scan from the end may stop in front of the first element. -/
theorem slice_scans {i j : ℕ} (hi : i = ((x :: xs).takeWhile q).length)
    (hj : j = xs.length - (xs.rtakeWhile q).length) :
    slice (x :: xs) i (if j < i then 0 else j - i + 1) = strip q (x :: xs) := by
  subst hi hj
  rcases hdrop : (x :: xs).dropWhile q with - | ⟨z, zs⟩
  · have hall := List.dropWhile_eq_nil_iff.mp hdrop
    have htake : (x :: xs).takeWhile q = x :: xs := List.takeWhile_eq_self_iff.mpr hall
    rw [htake, if_pos (by simp), slice_none, strip, hdrop]
    rfl
  · have hz : ¬ q z := by
      have hhead := List.head_dropWhile_not q (l := x :: xs) (by rw [hdrop]; exact List.cons_ne_nil z zs)
      simpa [hdrop] using hhead
    have hsplit := List.takeWhile_append_dropWhile (p := q) (l := x :: xs)
    rw [hdrop] at hsplit
    generalize hus : (x :: xs).takeWhile q = us at hsplit ⊢
    have hback : xs.rtakeWhile q = zs.rtakeWhile q := by
      rcases us with - | ⟨u, us⟩
      · rw [List.nil_append, List.cons.injEq] at hsplit
        rw [hsplit.2]
      · rw [List.cons_append, List.cons.injEq] at hsplit
        rw [← hsplit.2, rtakeWhile_append_neg hz]
    have hlen := congrArg List.length hsplit
    have hzs := congrArg List.length (List.rdropWhile_append_rtakeWhile (p := q) (l := zs))
    rw [List.length_append, List.length_cons, List.length_cons] at hlen
    rw [List.length_append] at hzs
    have hcut : zs.take (zs.rdropWhile q).length = zs.rdropWhile q :=
      (List.prefix_iff_eq_take.mp (List.rdropWhile_prefix q zs)).symm
    rw [hback, if_neg (by omega), strip, hdrop, rdropWhile_cons_neg hz, ← hsplit, slice, List.drop_left,
      show xs.length - (zs.rtakeWhile q).length - us.length + 1 = (zs.rdropWhile q).length + 1 by omega,
      List.take_succ_cons, hcut]

/-- A list can be read around what another kind of margins leaves of its front, with
elements of the kind `r` only, exactly if these margins and the rest are of that kind. -/
theorem exists_margins_iff :
    (∃ us vs, xs ++ ys = us ++ strip q xs ++ vs ∧ (∀ u ∈ us, r u) ∧ ∀ v ∈ vs, r v) ↔
      (∀ x ∈ margins q xs, r x) ∧ ∀ y ∈ ys, r y := by
  constructor
  · rintro ⟨us, vs, heq, hus, hvs⟩
    have hzero : us.countP (!r ·) = 0 ∧ vs.countP (!r ·) = 0 := by
      rw [List.countP_eq_zero, List.countP_eq_zero]
      exact ⟨fun u hu => by simpa using hus u hu, fun v hv => by simpa using hvs v hv⟩
    have hcount := congrArg (List.countP (!r ·)) heq
    rw [List.countP_append, List.countP_append, List.countP_append, countP_split q (!r ·) xs]
      at hcount
    have hmargins : (margins q xs).countP (!r ·) = 0 := by omega
    have hys : ys.countP (!r ·) = 0 := by omega
    rw [List.countP_eq_zero] at hmargins hys
    exact ⟨fun x hx => by simpa using hmargins x hx, fun y hy => by simpa using hys y hy⟩
  · rintro ⟨hmargins, hys⟩
    refine ⟨xs.takeWhile q, (xs.dropWhile q).rtakeWhile q ++ ys, ?_, ?_, ?_⟩
    · rw [← List.append_assoc, ← split_margins]
    · exact fun u hu => hmargins u (List.mem_append_left _ hu)
    · intro v hv
      rcases List.mem_append.mp hv with hv | hv
      · exact hmargins v (List.mem_append_right _ hv)
      · exact hys v hv

end CMem
