import RedisPlayground.Spec.Dict
import Mathlib.Data.Nat.Log

/-! `_dictNextPower`: the least power of two that a size needs, found by doubling
a counter. -/

namespace Redis

open CMem

/-- The power of two that a table for `n` entries has slots. -/
def nextPower (n : ℕ) : ℕ := 2 ^ min 63 (Nat.clog 2 (max n DICT_HT_INITIAL_SIZE.toNat))

/-- The values of the counter at the head of the loop. -/
inductive Counter (size : Word) : Word → Prop where
  | start : Counter size DICT_HT_INITIAL_SIZE
  | double {i : Word} : Counter size i → ¬ size ≤ i → Counter size (i * 2)

variable {s : State Globals} {size i : Word} {n j k f : ℕ}

theorem toNat_pow (hj : j ≤ 63) : (BitVec.ofNat 64 (2 ^ j)).toNat = 2 ^ j := by
  rw [BitVec.toNat_ofNat]
  exact Nat.mod_eq_of_lt (Nat.pow_lt_pow_right (by decide) (by omega))

theorem pow_double (j : ℕ) : BitVec.ofNat 64 (2 ^ j) * 2 = BitVec.ofNat 64 (2 ^ (j + 1)) := by
  rw [pow_succ, BitVec.ofNat_mul]
  rfl

/-- The bytes of a table of a power of two slots, as far as a `size_t` can say. -/
theorem pow_bytes (hk : k ≤ 63) : (BitVec.ofNat 64 (2 ^ k) * 8).toNat = if k ≤ 60 then 8 * 2 ^ k else 0 := by
  rw [BitVec.toNat_mul, toNat_pow hk]
  change 2 ^ k * 8 % 2 ^ 64 = _
  split_ifs with hle
  · have hpow : 2 ^ k ≤ 2 ^ 60 := Nat.pow_le_pow_right Nat.two_pos hle
    omega
  · obtain ⟨j, rfl⟩ := Nat.exists_eq_add_of_lt (not_le.mp hle)
    rw [add_assoc, pow_add]
    omega

/-- The counter has reached the size exactly if its exponent has. -/
theorem clog_le_iff (hj : 2 ≤ j) : Nat.clog 2 (max n 4) ≤ j ↔ n ≤ 2 ^ j := by
  rw [Nat.clog_le_iff_le_pow (by decide), max_le_iff, and_iff_left]
  exact Nat.pow_le_pow_right Nat.two_pos hj

theorem two_le_clog : 2 ≤ Nat.clog 2 (max n 4) := by
  rw [← Nat.clog_pow 2 2 (by decide)]
  exact Nat.clog_mono_right 2 (le_max_right n 4)

theorem pow_le_iff (hj : 2 ≤ j) (hj' : j ≤ 63) :
    size ≤ BitVec.ofNat 64 (2 ^ j) ↔ Nat.clog 2 (max size.toNat 4) ≤ j := by
  rw [clog_le_iff hj, BitVec.le_def, toNat_pow hj']

theorem clog_le (hsize : size ≤ LONG_MAX) : Nat.clog 2 (max size.toNat 4) ≤ 63 := by
  rw [← pow_le_iff (by decide) le_rfl]
  exact BitVec.le_trans hsize (by decide)

/-- The loop ends when the counter has come to the power. -/
theorem dictNextPowerLoop_clog (hsize : size ≤ LONG_MAX) (hj : 2 ≤ j)
    (hle : j ≤ Nat.clog 2 (max size.toNat 4)) (hf : Nat.clog 2 (max size.toNat 4) < j + f) :
    _dictNextPowerLoop size f (BitVec.ofNat 64 (2 ^ j)) s =
      .ok (BitVec.ofNat 64 (2 ^ Nat.clog 2 (max size.toNat 4)), s) := by
  have hmax := clog_le hsize
  induction f generalizing j with
  | zero => omega
  | succ f ih =>
    rw [_dictNextPowerLoop]
    by_cases hend : size ≤ BitVec.ofNat 64 (2 ^ j)
    · have hge := (pow_le_iff hj (by omega)).mp hend
      rw [if_pos hend, Nat.le_antisymm hle hge]
      rfl
    · rw [pow_le_iff hj (by omega)] at hend
      rw [if_neg (by rwa [pow_le_iff hj (by omega)]), pow_double]
      exact ih (by omega) (by omega) (by omega)

/-- The counter is a power of two, and it is never doubled past the one it looks for. -/
theorem Counter.pow (h : Counter size i) (hsize : size ≤ LONG_MAX) :
    ∃ j, 2 ≤ j ∧ j ≤ Nat.clog 2 (max size.toNat 4) ∧ i = BitVec.ofNat 64 (2 ^ j) := by
  have hmax := clog_le hsize
  induction h with
  | start => exact ⟨2, le_rfl, two_le_clog, rfl⟩
  | double _ hlt ih =>
    obtain ⟨j, hj, hle, rfl⟩ := ih
    rw [pow_le_iff hj (by omega)] at hlt
    exact ⟨j + 1, by omega, by omega, pow_double j⟩

theorem Counter.no_wrap (h : Counter size i) (hsize : size ≤ LONG_MAX) (hlt : ¬ size ≤ i) :
    (i * 2).toNat = i.toNat * 2 := by
  have hmax := clog_le hsize
  obtain ⟨j, hj, hle, rfl⟩ := h.pow hsize
  rw [pow_le_iff hj (by omega)] at hlt
  rw [pow_double, toNat_pow (by omega), toNat_pow (by omega), pow_succ]

theorem dictNextPower_eq_nextPower (size : Word) (s : State Globals) :
    _dictNextPower size s = .ok (BitVec.ofNat 64 (nextPower size.toNat), s) := by
  unfold _dictNextPower nextPower
  change _ = Except.ok (BitVec.ofNat 64 (2 ^ min 63 (Nat.clog 2 (max size.toNat 4))), s)
  by_cases hsize : LONG_MAX < size
  · have hge : 63 ≤ Nat.clog 2 (max size.toNat 4) := by
      by_contra hlt
      have hle := (clog_le_iff (n := size.toNat) (j := 62) (by decide)).mp (by omega)
      have hgt := BitVec.lt_def.mp hsize
      change 0x7fffffffffffffff < size.toNat at hgt
      omega
    rw [if_pos hsize, min_eq_left hge]
    rfl
  · have hsize := BitVec.not_lt.mp hsize
    rw [if_neg (BitVec.not_lt.mpr hsize), min_eq_right (clog_le hsize)]
    have hmax := clog_le hsize
    exact dictNextPowerLoop_clog (j := 2) hsize le_rfl two_le_clog (by omega)

theorem dictNextPower_eq (size : Word) : ∃ k, 2 ≤ k ∧ k ≤ 63 ∧ ∀ s,
    _dictNextPower size s = .ok (BitVec.ofNat 64 (2 ^ k), s) :=
  ⟨_, le_min (by decide) two_le_clog, min_le_left _ _, dictNextPower_eq_nextPower size⟩

theorem nextPower_toNat : (BitVec.ofNat 64 (nextPower n)).toNat = nextPower n := toNat_pow (min_le_left _ _)

theorem nextPower_mono {m : ℕ} (h : n ≤ m) : nextPower n ≤ nextPower m :=
  Nat.pow_le_pow_right (by decide)
    (min_le_min_left _ (Nat.clog_mono_right 2 (max_le_max_right _ h)))

theorem nextPower_nextPower : nextPower (nextPower n) = nextPower n := by
  have hle : 2 ≤ min 63 (Nat.clog 2 (max n 4)) := le_min (by decide) two_le_clog
  have hmax : max (nextPower n) 4 = nextPower n := max_eq_left (Nat.pow_le_pow_right Nat.two_pos hle)
  change 2 ^ min 63 (Nat.clog 2 (max (nextPower n) 4)) = nextPower n
  rw [hmax]
  unfold nextPower
  rw [Nat.clog_pow 2 _ (by decide), min_eq_right (min_le_left _ _)]

theorem nextPower_least (hn : n ≤ 2 ^ 63) :
    IsLeast {m | (∃ k, m = 2 ^ k) ∧ max n DICT_HT_INITIAL_SIZE.toNat ≤ m} (nextPower n) := by
  have hle : Nat.clog 2 (max n DICT_HT_INITIAL_SIZE.toNat) ≤ 63 := (clog_le_iff (by decide)).mpr hn
  unfold nextPower
  rw [min_eq_right hle]
  constructor
  · exact ⟨⟨_, rfl⟩, Nat.le_pow_clog (by decide) _⟩
  · rintro m ⟨⟨k, rfl⟩, hk⟩
    exact Nat.pow_le_pow_right (by decide) ((Nat.clog_le_iff_le_pow (by decide)).mpr hk)

theorem nextPower_top (hn : 2 ^ 63 < n) : nextPower n = 2 ^ 63 := by
  have hge : 63 ≤ Nat.clog 2 (max n 4) := by
    by_contra hlt
    have hle := (clog_le_iff (n := n) (j := 63) (by decide)).mp (by omega)
    omega
  exact congrArg _ (min_eq_left hge)

/-- `_dictNextPower` ends, and its counter does not wrap around. It gives the least power of two that
is neither below the size nor below that of a new table, as long as there is one. -/
theorem dictNextPower_least (size : Word) : ∃ n, (∀ s, _dictNextPower size s = .ok (n, s)) ∧
    (size ≤ LONG_MAX →
      (∀ i, Counter size i → ¬ size ≤ i → (i * 2).toNat = i.toNat * 2) ∧
      ∀ f s, 62 ≤ f → _dictNextPowerLoop size f DICT_HT_INITIAL_SIZE s = .ok (n, s)) ∧
    (size.toNat ≤ 2 ^ 63 →
      IsLeast {m | (∃ k, m = 2 ^ k) ∧ max size.toNat DICT_HT_INITIAL_SIZE.toNat ≤ m} n.toNat) ∧
    (2 ^ 63 < size.toNat → n.toNat = 2 ^ 63) ∧
    (∀ size' n' s, size ≤ size' → _dictNextPower size' s = .ok (n', s) → n ≤ n') ∧
    ∀ s, _dictNextPower n s = .ok (n, s) := by
  refine ⟨_, dictNextPower_eq_nextPower size, fun hsize => ⟨fun i h hlt => h.no_wrap hsize hlt, fun f s hf => ?_⟩,
    fun hle => ?_, fun hlt => ?_, fun size' n' s hle hok => ?_, fun s => ?_⟩
  · have hmax := clog_le hsize
    have hloop := dictNextPowerLoop_clog (f := f) (s := s) hsize le_rfl two_le_clog (by omega)
    have hpow : nextPower size.toNat = 2 ^ Nat.clog 2 (max size.toNat 4) := congrArg _ (min_eq_right hmax)
    rw [hpow]
    exact hloop
  · rw [nextPower_toNat]
    exact nextPower_least hle
  · rw [nextPower_toNat, nextPower_top hlt]
  · rw [dictNextPower_eq_nextPower] at hok
    obtain rfl := (Prod.mk.inj (Except.ok.inj hok)).1
    rw [BitVec.le_def, nextPower_toNat, nextPower_toNat]
    exact nextPower_mono (BitVec.le_def.mp hle)
  · rw [dictNextPower_eq_nextPower, nextPower_toNat, nextPower_nextPower]

end Redis
