import RedisPlayground.Memory.Heap

/-! Programs that only read. What such a program returns is a partial function of
memory, and where the function has no value the behaviour is undefined. Reads in
any order and in pieces of any size amount to one read of all the bytes. -/

namespace CMem

section Peeks

variable {γ : Type} {α β : Type} {x : C γ α} {y : α → C γ β} {f f' : Mem → Option α} {g : α → Mem → Option β}
  {s s' : State γ} {a : α}

/-- `x` returns what `f` finds in memory. -/
def Peeks (x : C γ α) (f : Mem → Option α) : Prop :=
  ∀ s, x s = match f s.mem with
    | some a => .ok (a, s)
    | none => .error .ub

theorem Peeks.congr (h : Peeks x f) (heq : ∀ m, f m = f' m) : Peeks x f' := by
  intro s
  rw [h s, heq]

theorem peeks_pure (a : α) : Peeks (pure a : C γ α) fun _ => some a := fun _ => rfl

theorem peeks_ub : Peeks (stop .ub : C γ α) fun _ => none := fun _ => rfl

theorem Peeks.bind (h : Peeks x f) (hy : ∀ a, Peeks (y a) (g a)) :
    Peeks (x >>= y) fun m => (f m).bind fun a => g a m := by
  intro s
  show (x s >>= fun r => y r.1 r.2) = _
  rw [h s]
  cases hf : f s.mem with
  | none => simp only [hf, Option.bind_none]; rfl
  | some a => simp only [hf, Option.bind_some]; exact hy a s

theorem Peeks.map {g : α → β} (h : Peeks x f) : Peeks (x >>= fun a => return g a) fun m => (f m).map g :=
  (h.bind fun a => peeks_pure (g a)).congr fun m => by rw [Option.map_eq_bind]; rfl

theorem Peeks.ok_iff (h : Peeks x f) : x s = .ok (a, s') ↔ f s.mem = some a ∧ s' = s := by
  rw [h s]
  cases f s.mem with
  | none => simp
  | some b => simp [eq_comm]

theorem Peeks.error_iff (h : Peeks x f) : x s = .error .ub ↔ f s.mem = none := by
  rw [h s]
  cases f s.mem with
  | none => simp
  | some b => simp

theorem Peeks.readOnly (h : Peeks x f) : ReadOnly x := fun _ _ _ hx => (h.ok_iff.mp hx).2

/-- The `i`-th byte of the block at `p`. -/
def byteAt (m : Mem) (p : Addr) (i : ℕ) : Option Byte :=
  if p = NULL then none else (m.lookup p).bind fun bs => bs[i]?

end Peeks

section Collect

variable {β : Type} {f : ℤ → Option β} {i : ℤ} {j k n : ℕ} {bs cs : List β} {b : β}

/-- The `n` values from `i` on. -/
def collect (f : ℤ → Option β) (i : ℤ) : ℕ → Option (List β)
  | 0 => some []
  | n + 1 => (f i).bind fun b => (collect f (i + 1) n).map (b :: ·)

theorem collect_eq_some : collect f i n = some bs ↔ bs.length = n ∧ ∀ j < n, f (i + j) = bs[j]? := by
  induction n generalizing i bs with
  | zero =>
    rw [collect, Option.some.injEq, eq_comm, List.length_eq_zero_iff]
    simp
  | succ n ih =>
    rw [collect, Option.bind_eq_some_iff]
    constructor
    · rintro ⟨b, hb, hbs⟩
      obtain ⟨cs, hcs, rfl⟩ := Option.map_eq_some_iff.mp hbs
      obtain ⟨hlen, hall⟩ := ih.mp hcs
      refine ⟨by rw [List.length_cons, hlen], fun j hj => ?_⟩
      cases j with
      | zero => simpa using hb
      | succ j =>
        rw [List.getElem?_cons_succ, ← hall j (by omega)]
        congr 1
        push_cast
        ring
    · rintro ⟨hlen, hall⟩
      obtain ⟨b, cs, rfl⟩ := List.exists_cons_of_length_eq_add_one hlen
      have hb := hall 0 (Nat.succ_pos n)
      refine ⟨b, by simpa using hb, Option.map_eq_some_iff.mpr ⟨cs, ih.mpr ⟨by simpa using hlen, fun j hj => ?_⟩, rfl⟩⟩
      have hj' := hall (j + 1) (by omega)
      rw [List.getElem?_cons_succ] at hj'
      rw [← hj']
      congr 1
      push_cast
      ring

theorem collect_eq_none : collect f i n = none ↔ ∃ j < n, f (i + j) = none := by
  induction n generalizing i with
  | zero => simp [collect]
  | succ n ih =>
    rw [collect, Nat.exists_lt_succ_left]
    cases h : f i with
    | none => simp [h]
    | some b =>
      rw [Option.bind_some, Option.map_eq_none_iff, ih]
      simp only [Nat.cast_zero, add_zero, h, reduceCtorEq, false_or, Nat.cast_succ, add_assoc, add_comm (1 : ℤ)]

theorem collect_length (h : collect f i n = some bs) : bs.length = n := (collect_eq_some.mp h).1

theorem collect_congr {g : ℤ → Option β} {i' : ℤ} (h : ∀ j < n, f (i + j) = g (i' + j)) :
    collect f i n = collect g i' n := by
  cases hg : collect g i' n with
  | none =>
    obtain ⟨j, hj, hnone⟩ := collect_eq_none.mp hg
    exact collect_eq_none.mpr ⟨j, hj, (h j hj).trans hnone⟩
  | some bs =>
    obtain ⟨hlen, hall⟩ := collect_eq_some.mp hg
    exact collect_eq_some.mpr ⟨hlen, fun j hj => (h j hj).trans (hall j hj)⟩

theorem collect_append : collect f i (j + k) =
    (collect f i j).bind fun bs => (collect f (i + j) k).map (bs ++ ·) := by
  induction j generalizing i with
  | zero => simp [collect]
  | succ j ih =>
    rw [show j + 1 + k = j + k + 1 by omega, collect, collect, ih,
      show i + 1 + (j : ℤ) = i + ((j + 1 : ℕ) : ℤ) by push_cast; ring]
    cases f i with
    | none => rfl
    | some b =>
      cases collect f (i + 1) j with
      | none => rfl
      | some bs =>
        cases collect f (i + ((j + 1 : ℕ) : ℤ)) k with
        | none => rfl
        | some cs => rfl

theorem collect_one : collect f i 1 = (f i).map fun b => [b] := by
  rw [collect]
  cases f i with
  | none => rfl
  | some b => rfl

/-- A read of `n` values in two parts, the first of at most `k`. -/
theorem collect_split : collect f i n =
    (collect f i (min n k)).bind fun bs => (collect f (i + k) (n - k)).map (bs ++ ·) := by
  rcases Nat.le_total n k with hle | hle
  · rw [Nat.min_eq_left hle, Nat.sub_eq_zero_of_le hle]
    cases collect f i n with
    | none => rfl
    | some bs => simp [collect]
  · rw [Nat.min_eq_right hle]
    conv_lhs => rw [← Nat.add_sub_cancel' hle]
    exact collect_append

theorem peeks_readAt {γ : Type} (p : Addr) (off : ℕ) (hn : 0 < n) :
    Peeks (readAt p off n : C γ (List Byte)) fun m => collect (fun i => byteAt m p i.toNat) off n := by
  intro s
  have hnone : ∀ j < n, byteAt s.mem p (off + j) = none →
      collect (fun i => byteAt s.mem p i.toNat) off n = none :=
    fun j hj h => collect_eq_none.mpr ⟨j, hj, h⟩
  beta_reduce
  by_cases hp : p = NULL
  · rw [hnone 0 hn (if_pos hp), readAt, if_pos hp]
  cases h : s.mem.lookup p with
  | none =>
    rw [hnone 0 hn (by rw [byteAt, if_neg hp, h]; rfl), readAt, if_neg hp, h]
  | some bs =>
    have hbyte : ∀ j, byteAt s.mem p j = bs[j]? := fun j => by rw [byteAt, if_neg hp, h]; rfl
    by_cases hle : off + n ≤ bs.length
    · have hsome : collect (fun i => byteAt s.mem p i.toNat) off n = some (slice bs off n) := by
        refine collect_eq_some.mpr ⟨slice_length hle, fun j hj => ?_⟩
        rw [slice, List.getElem?_take_of_lt hj, List.getElem?_drop, ← hbyte]
        rfl
      rw [hsome, readAt, if_neg hp, h]
      exact if_pos hle
    · have hlast : byteAt s.mem p (off + (n - 1)) = none := by
        rw [hbyte]
        exact List.getElem?_eq_none (by omega)
      rw [hnone (n - 1) (by omega) hlast, readAt, if_neg hp, h]
      exact if_neg hle

end Collect

end CMem
