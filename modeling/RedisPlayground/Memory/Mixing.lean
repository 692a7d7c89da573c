import Mathlib.Tactic

/-! Mixing. Shifts, rotations and products that lose nothing of a word, and
hashes that absorb their key block by block. A hash whose steps lose nothing
has no collisions within one block. -/

namespace CMem

open Function

section Words

variable {w n r : ℕ} {c d : BitVec w}

/-- From the top bit down, every bit of the argument can be read off. -/
theorem xorShift_injective (hn : 0 < n) : Injective fun x : BitVec w => x ^^^ (x >>> n) := by
  intro x y hxy
  have hbit : ∀ i, (x.getLsbD i ^^ x.getLsbD (n + i)) = (y.getLsbD i ^^ y.getLsbD (n + i)) := by
    intro i
    simpa using congrArg (fun v : BitVec w => v.getLsbD i) hxy
  have hdown : ∀ k i, w ≤ i + k → x.getLsbD i = y.getLsbD i := by
    intro k
    induction k with
    | zero => exact fun i hi => by rw [BitVec.getLsbD_of_ge x i hi, BitVec.getLsbD_of_ge y i hi]
    | succ k ih =>
      intro i hi
      have hhigh := ih (n + i) (by omega)
      have hlow := hbit i
      rw [hhigh] at hlow
      exact Bool.xor_left_inj.mp hlow
  exact BitVec.eq_of_getLsbD_eq fun i _ => hdown w i (by omega)

theorem rotate_injective (hr : r ≤ w) : Injective fun x : BitVec w => (x <<< r) ||| (x >>> (w - r)) := by
  intro x y hxy
  have hbit : ∀ i, (decide (i < w) && !decide (i < r) && x.getLsbD (i - r) || x.getLsbD (w - r + i)) =
      (decide (i < w) && !decide (i < r) && y.getLsbD (i - r) || y.getLsbD (w - r + i)) := by
    intro i
    simpa using congrArg (fun v : BitVec w => v.getLsbD i) hxy
  refine BitVec.eq_of_getLsbD_eq fun i hi => ?_
  by_cases hlow : i + r < w
  · have h := hbit (i + r)
    rw [BitVec.getLsbD_of_ge x (w - r + (i + r)) (by omega),
      BitVec.getLsbD_of_ge y (w - r + (i + r)) (by omega)] at h
    simpa [hlow] using h
  · have h := hbit (i + r - w)
    have hlt : i + r - w < r := by omega
    rw [show w - r + (i + r - w) = i by omega] at h
    simpa [hlt] using h

theorem mul_injective (h : c * d = 1#w) : Injective fun x : BitVec w => x * c := by
  intro x y hxy
  have hd : x * c * d = y * c * d := congrArg (· * d) hxy
  rwa [BitVec.mul_assoc, BitVec.mul_assoc, h, BitVec.mul_one, BitVec.mul_one] at hd

end Words

/-- A hash that absorbs its key block by block, then what is left of it, and at
the end mixes in the length. -/
structure BlockHash (α σ τ : Type*) where
  size : ℕ
  pos : 0 < size
  absorb : σ → List α → σ
  rest : σ → List α → σ
  finish : ℕ → σ → τ

namespace BlockHash

variable {α σ τ : Type*} {H : BlockHash α σ τ} {xs ys zs : List α} {h h' : σ} {i m n : ℕ}

/-- The state after the first `n` blocks. -/
def absorbAll (H : BlockHash α σ τ) : ℕ → σ → List α → σ
  | 0, h, _ => h
  | n + 1, h, xs => absorbAll H n (H.absorb h (xs.take H.size)) (xs.drop H.size)

/-- The state after `n` blocks and what is left behind them. -/
def run (H : BlockHash α σ τ) (n : ℕ) (h : σ) (xs : List α) : σ :=
  H.rest (H.absorbAll n h xs) (xs.drop (H.size * n))

def hash (H : BlockHash α σ τ) (h : σ) (xs : List α) : τ :=
  H.finish xs.length (H.run (xs.length / H.size) h xs)

theorem run_zero : H.run 0 h xs = H.rest h xs := rfl

theorem run_succ : H.run (n + 1) h xs = H.run n (H.absorb h (xs.take H.size)) (xs.drop H.size) := by
  rw [run, run, List.drop_drop, Nat.mul_succ, Nat.add_comm (H.size * n)]
  rfl

/-- Behind whole blocks a key goes on as another one, from the state they left. -/
theorem run_append (hx : xs.length = H.size * n) :
    H.run (n + m) h (xs ++ ys) = H.run m (H.absorbAll n h xs) ys := by
  induction n generalizing h xs with
  | zero =>
    obtain rfl : xs = [] := List.length_eq_zero_iff.mp (by simpa using hx)
    rw [Nat.zero_add]
    rfl
  | succ n ih =>
    rw [Nat.mul_succ] at hx
    rw [Nat.succ_add, run_succ, List.take_append_of_le_length (by omega), List.drop_append_of_le_length (by omega),
      ih (by rw [List.length_drop]; omega)]
    rfl

theorem hash_blocks (hx : xs.length = H.size * n) :
    H.hash h (xs ++ ys) = H.finish (xs.length + ys.length) (H.run (ys.length / H.size) (H.absorbAll n h xs) ys) := by
  rw [hash, List.length_append, hx, Nat.mul_add_div H.pos, run_append hx]

/-- A key in two parts, the first of whole blocks. -/
theorem hash_append (hx : xs.length = H.size * n) (hy : ys.length < H.size) :
    H.hash h (xs ++ ys) = H.finish (xs.length + ys.length) (H.rest (H.absorbAll n h xs) ys) := by
  rw [hash_blocks hx, Nat.div_eq_of_lt hy, run_zero]

theorem length_drop_div (hle : H.size ≤ xs.length) (hn : xs.length / H.size = n + 1) :
    (xs.drop H.size).length / H.size = n := by
  rw [Nat.div_eq_sub_div H.pos hle] at hn
  rw [List.length_drop]
  omega

/-- No step of the hash loses anything of the state or of the key. -/
structure Lossless (H : BlockHash α σ τ) : Prop where
  absorb_state : ∀ {h h' xs}, xs.length = H.size → H.absorb h xs = H.absorb h' xs → h = h'
  absorb_block : ∀ {h xs ys}, xs.length = H.size → ys.length = H.size →
    H.absorb h xs = H.absorb h ys → xs = ys
  rest_state : ∀ {h h' xs}, xs.length < H.size → H.rest h xs = H.rest h' xs → h = h'
  rest_block : ∀ {h xs ys}, xs.length < H.size → ys.length = xs.length → H.rest h xs = H.rest h ys → xs = ys
  finish : ∀ n, Injective (H.finish n)

theorem Lossless.run_state (hH : H.Lossless) (hn : xs.length / H.size = n)
    (heq : H.run n h xs = H.run n h' xs) : h = h' := by
  induction n generalizing h h' xs with
  | zero => exact hH.rest_state ((Nat.div_eq_zero_iff_lt H.pos).mp hn) heq
  | succ n ih =>
    have hle : H.size ≤ xs.length := (Nat.div_pos_iff.mp (by omega)).2
    rw [run_succ, run_succ] at heq
    have hrest := length_drop_div hle hn
    exact hH.absorb_state (List.length_take_of_le hle) (ih hrest heq)

/-- The keys agree outside their `i`-th block. -/
def Agree (H : BlockHash α σ τ) (i : ℕ) (xs ys : List α) : Prop := ∀ j, j / H.size ≠ i → xs[j]? = ys[j]?

theorem Agree.drop (h : H.Agree (i + 1) xs ys) : H.Agree i (xs.drop H.size) (ys.drop H.size) := by
  intro j hj
  rw [List.getElem?_drop, List.getElem?_drop]
  refine h _ ?_
  rw [Nat.add_div_left _ H.pos]
  omega

theorem Agree.take (h : H.Agree (i + 1) xs ys) : xs.take H.size = ys.take H.size := by
  refine List.ext_getElem? fun j => ?_
  rw [List.getElem?_take, List.getElem?_take]
  split
  · next hj => exact h j (by rw [Nat.div_eq_of_lt hj]; omega)
  · rfl

theorem Agree.drop_eq (h : H.Agree 0 xs ys) : xs.drop H.size = ys.drop H.size := by
  refine List.ext_getElem? fun j => ?_
  rw [List.getElem?_drop, List.getElem?_drop]
  refine h _ ?_
  rw [Nat.add_div_left _ H.pos]
  exact Nat.succ_ne_zero _

theorem Agree.eq_of_short (h : H.Agree (i + 1) xs ys) (hlen : xs.length = ys.length) (hlt : xs.length < H.size) :
    xs = ys := by
  rw [← List.take_of_length_le (Nat.le_of_lt hlt), h.take, List.take_of_length_le (by omega)]

/-- Once the keys differ in one block only, the states behind them differ. -/
theorem Lossless.run_block (hH : H.Lossless) (hn : xs.length / H.size = n) (hlen : xs.length = ys.length)
    (hagree : H.Agree i xs ys) (heq : H.run n h xs = H.run n h ys) : xs = ys := by
  induction n generalizing h xs ys i with
  | zero =>
    have hlt := (Nat.div_eq_zero_iff_lt H.pos).mp hn
    cases i with
    | zero => exact hH.rest_block hlt hlen.symm heq
    | succ i => exact hagree.eq_of_short hlen hlt
  | succ n ih =>
    have hle : H.size ≤ xs.length := (Nat.div_pos_iff.mp (by omega)).2
    have hrest := length_drop_div hle hn
    have hlen' : (xs.drop H.size).length = (ys.drop H.size).length := by
      rw [List.length_drop, List.length_drop, hlen]
    rw [run_succ, run_succ] at heq
    rw [← List.take_append_drop H.size xs, ← List.take_append_drop H.size ys]
    cases i with
    | zero =>
      rw [← hagree.drop_eq] at heq ⊢
      have hstate := hH.run_state hrest heq
      rw [hH.absorb_block (List.length_take_of_le hle) (List.length_take_of_le (by omega)) hstate]
    | succ i =>
      rw [← hagree.take] at heq ⊢
      rw [ih hrest hlen' hagree.drop heq]

/-- After whole blocks only the state counts, also when more of the key follows. -/
theorem Lossless.hash_append_iff (hH : H.Lossless) (hx : xs.length = H.size * n) (hlen : xs.length = ys.length) :
    H.hash h (xs ++ zs) = H.hash h (ys ++ zs) ↔ H.absorbAll n h xs = H.absorbAll n h ys := by
  rw [hash_blocks hx, hash_blocks (hlen ▸ hx), ← hlen]
  constructor
  · exact fun heq => hH.run_state rfl (hH.finish _ heq)
  · exact fun heq => heq ▸ rfl

theorem Lossless.hash_append_eq (hH : H.Lossless) (hx : xs.length = H.size * n) (hlen : xs.length = ys.length) :
    H.hash h (xs ++ zs) = H.hash h (ys ++ zs) ↔ H.hash h xs = H.hash h ys := by
  have hnil : H.hash h (xs ++ []) = H.hash h (ys ++ []) ↔ H.absorbAll n h xs = H.absorbAll n h ys :=
    hH.hash_append_iff hx hlen
  rw [List.append_nil, List.append_nil] at hnil
  rw [hH.hash_append_iff hx hlen, hnil]

theorem Lossless.hash_state (hH : H.Lossless) : Injective fun h => H.hash h xs := by
  intro h h' heq
  exact hH.run_state rfl (hH.finish _ heq)

/-- Keys of one length that agree outside one block have different hashes. -/
theorem Lossless.hash_ne (hH : H.Lossless) (hlen : xs.length = ys.length) (hagree : H.Agree i xs ys)
    (hne : xs ≠ ys) : H.hash h xs ≠ H.hash h ys := by
  intro heq
  rw [hash, hash, ← hlen] at heq
  exact hne (hH.run_block rfl hlen hagree (hH.finish _ heq))

end BlockHash

end CMem
