import RedisPlayground.Memory.Mixing
import RedisPlayground.Memory.Peeks
import RedisPlayground.Spec.Hash

/-! MurmurHash3 as a function of the bytes of a key. Each of the three functions
is a `BlockHash` that loses nothing: seeds never collide, and neither do keys that
differ in one block only. -/

namespace Redis

open CMem Function

section Words

variable {w r : ℕ} {xs ys : List Byte}

/-- The word that is stored in some bytes. -/
def leWord (w : ℕ) (bs : List Byte) : BitVec w := BitVec.ofNat w (ofLE bs)

theorem leWord_inj (hlen : xs.length = ys.length) (hw : 8 * xs.length ≤ w) (heq : leWord w xs = leWord w ys) :
    xs = ys := by
  have hpow : 256 ^ xs.length ≤ 2 ^ w := by
    rw [show (256 : ℕ) = 2 ^ 8 by norm_num, ← pow_mul]
    exact Nat.pow_le_pow_right (by norm_num) hw
  have hx := ofLE_lt xs
  have hy := ofLE_lt ys
  rw [← hlen] at hy
  have hnat := congrArg BitVec.toNat heq
  rw [leWord, leWord, BitVec.toNat_ofNat, BitVec.toNat_ofNat, Nat.mod_eq_of_lt (by omega),
    Nat.mod_eq_of_lt (by omega)] at hnat
  rw [← toLE_ofLE xs, ← toLE_ofLE ys, hlen, hnat]

/-- Bytes are known when their words are. -/
theorem eq_of_slices {n k : ℕ} (hk : 0 < k) (hx : xs.length ≤ k * n) (hlen : xs.length = ys.length)
    (heq : ∀ i < n, slice xs (k * i) k = slice ys (k * i) k) : xs = ys := by
  refine List.ext_getElem? fun j => ?_
  by_cases hj : j < k * n
  · have hword := congrArg (fun zs => zs[j % k]?) (heq (j / k) (Nat.div_lt_of_lt_mul hj))
    simpa only [slice, List.getElem?_take_of_lt (Nat.mod_lt j hk), List.getElem?_drop, Nat.div_add_mod] using hword
  · rw [List.getElem?_eq_none (by omega), List.getElem?_eq_none (by omega)]

/-- The `i`-th word of `w` bits among some bytes, or what there is of it. -/
def wordAt (w : ℕ) (bs : List Byte) (i : ℕ) : BitVec w := leWord w (slice bs (w / 8 * i) (w / 8))

theorem wordAt_inj {n : ℕ} (hw : 0 < w / 8) (hx : xs.length ≤ w / 8 * n) (hlen : xs.length = ys.length)
    (heq : ∀ i < n, wordAt w xs i = wordAt w ys i) : xs = ys := by
  refine eq_of_slices hw hx hlen fun i hi => leWord_inj ?_ ?_ (heq i hi)
  · simp only [slice, List.length_take, List.length_drop, hlen]
  · simp only [slice, List.length_take]
    omega

theorem xor_injective (a : BitVec w) : Injective fun x => x ^^^ a := fun _ _ h => (BitVec.xor_left_inj a).mp h

theorem affine_injective {c d : BitVec w} (h : c * d = 1#w) (a : BitVec w) : Injective fun x => x * c + a :=
  fun _ _ heq => mul_injective h ((BitVec.add_left_inj a).mp heq)

theorem times5_32 : (5 : BitVec 32) * 0xcccccccd = 1#32 := by decide

theorem times5_64 : (5 : BitVec 64) * 0xcccccccccccccccd = 1#64 := by decide

theorem rotl32_injective (hr : r ≤ 32) : Injective fun x => rotl32 x r := rotate_injective hr

theorem rotl64_injective (hr : r ≤ 64) : Injective fun x => rotl64 x r := rotate_injective hr

theorem scramble32_injective {c c' d d' : BitVec 32} (h : c * d = 1#32) (h' : c' * d' = 1#32) (hr : r ≤ 32) :
    Injective (scramble32 c c' r) := (mul_injective h').comp ((rotl32_injective hr).comp (mul_injective h))

theorem scramble64_injective {c c' d d' : Word} (h : c * d = 1#64) (h' : c' * d' = 1#64) (hr : r ≤ 64) :
    Injective (scramble64 c c' r) := (mul_injective h').comp ((rotl64_injective hr).comp (mul_injective h))

theorem fmix32_injective : Injective fmix32 := by
  have hmul := mul_injective (show (0x85ebca6b : BitVec 32) * 0xa5cb9243 = 1#32 by decide)
  have hmul' := mul_injective (show (0xc2b2ae35 : BitVec 32) * 0x7ed1b41d = 1#32 by decide)
  have h16 := xorShift_injective (w := 32) (show 0 < 16 by decide)
  have h13 := xorShift_injective (w := 32) (show 0 < 13 by decide)
  exact h16.comp (hmul'.comp (h13.comp (hmul.comp h16)))

theorem fmix64_injective : Injective fmix64 := by
  have hmul := mul_injective (show (0xff51afd7ed558ccd : Word) * 0x4f74430c22a54005 = 1#64 by decide)
  have hmul' := mul_injective (show (0xc4ceb9fe1a85ec53 : Word) * 0x9cb4b2f8129337db = 1#64 by decide)
  have h33 := xorShift_injective (w := 64) (show 0 < 33 by decide)
  exact h33.comp (hmul'.comp (h33.comp (hmul.comp h33)))

end Words

namespace x86_32

variable {xs : List Byte} {h h' k k' : BitVec 32}

theorem scramble_injective : Injective scramble :=
  scramble32_injective (show c1 * 0xdee13bb1 = 1#32 by decide) (show c2 * 0x56ed309b = 1#32 by decide) (by decide)

theorem mix_xor (heq : mix h k = mix h' k') : h ^^^ scramble k = h' ^^^ scramble k' :=
  rotl32_injective (by decide) (affine_injective times5_32 _ heq)

/-- `MurmurHash3_x86_32` of some bytes. -/
def hash : BlockHash Byte (BitVec 32) (BitVec 32) where
  size := 4
  pos := by decide
  absorb h bs := mix h (leWord 32 bs)
  rest h bs := h ^^^ scramble (leWord 32 bs)
  finish n := finalization (BitVec.ofNat 32 n)

theorem lossless : hash.Lossless where
  absorb_state _ heq := (BitVec.xor_left_inj _).mp (mix_xor heq)
  absorb_block hx hy heq :=
    leWord_inj (hx.trans hy.symm) (by rw [hx]; decide) (scramble_injective ((BitVec.xor_right_inj _).mp (mix_xor heq)))
  rest_state _ heq := (BitVec.xor_left_inj _).mp heq
  rest_block hx hy heq :=
    leWord_inj hy.symm (Nat.mul_le_mul_left 8 (Nat.le_of_lt hx)) (scramble_injective ((BitVec.xor_right_inj _).mp heq))
  finish _ := fmix32_injective.comp (xor_injective _)

end x86_32

namespace x86_128

variable {xs ys : List Byte} {h h' k k' : Lanes}

theorem scramble1_injective : Injective scramble1 :=
  scramble32_injective (show c1 * 0x89c95413 = 1#32 by decide) (show c2 * 0xdf130eb9 = 1#32 by decide) (by decide)

theorem scramble2_injective : Injective scramble2 :=
  scramble32_injective (show c2 * 0xdf130eb9 = 1#32 by decide) (show c3 * 0x747862ed = 1#32 by decide) (by decide)

theorem scramble3_injective : Injective scramble3 :=
  scramble32_injective (show c3 * 0x747862ed = 1#32 by decide) (show c4 * 0x58d64a9b = 1#32 by decide) (by decide)

theorem scramble4_injective : Injective scramble4 :=
  scramble32_injective (show c4 * 0x58d64a9b = 1#32 by decide) (show c1 * 0x89c95413 = 1#32 by decide) (by decide)

theorem lanes_ext (h1 : h.l1 = h'.l1) (h2 : h.l2 = h'.l2) (h3 : h.l3 = h'.l3) (h4 : h.l4 = h'.l4) : h = h' := by
  cases h
  cases h'
  exact Lanes.mk.injEq .. ▸ ⟨h1, h2, h3, h4⟩

/-- The four words of a block. -/
def lanes (bs : List Byte) : Lanes := ⟨wordAt 32 bs 0, wordAt 32 bs 1, wordAt 32 bs 2, wordAt 32 bs 3⟩

theorem lanes_inj (hlen : xs.length = ys.length) (hle : xs.length ≤ 16) (heq : lanes xs = lanes ys) : xs = ys := by
  obtain ⟨h0, h1, h2, h3⟩ := Lanes.mk.inj heq
  refine wordAt_inj (w := 32) (n := 4) (by decide) hle hlen fun i hi => ?_
  interval_cases i
  · exact h0
  · exact h1
  · exact h2
  · exact h3

theorem mix_inj (heq : mix h k = mix h' k') : h.l4 ^^^ scramble4 k.l4 = h'.l4 ^^^ scramble4 k'.l4 ∧
    rotl32 (h.l3 ^^^ scramble3 k.l3) 15 + h.l4 = rotl32 (h'.l3 ^^^ scramble3 k'.l3) 15 + h'.l4 ∧
    rotl32 (h.l2 ^^^ scramble2 k.l2) 17 + h.l3 = rotl32 (h'.l2 ^^^ scramble2 k'.l2) 17 + h'.l3 ∧
    rotl32 (h.l1 ^^^ scramble1 k.l1) 19 + h.l2 = rotl32 (h'.l1 ^^^ scramble1 k'.l1) 19 + h'.l2 := by
  obtain ⟨h1, h2, h3, h4⟩ := Lanes.mk.inj heq
  rw [h1] at h4
  have hrot := affine_injective times5_32 _ h4
  exact ⟨rotl32_injective (by decide) ((BitVec.add_left_inj _).mp hrot), affine_injective times5_32 _ h3,
    affine_injective times5_32 _ h2, affine_injective times5_32 _ h1⟩

/-- The words of a key that are mixed into a state. -/
def xor (h k : Lanes) : Lanes where
  l1 := h.l1 ^^^ scramble1 k.l1
  l2 := h.l2 ^^^ scramble2 k.l2
  l3 := h.l3 ^^^ scramble3 k.l3
  l4 := h.l4 ^^^ scramble4 k.l4

/-- A lane that is mixed in first decides, with its scrambled word, the one mixed in before it. -/
theorem rot_xor {r : ℕ} {a a' b b' : BitVec 32} (hr : r ≤ 32) (hb : b = b') (heq : rotl32 a r + b = rotl32 a' r + b') :
    a = a' := by
  rw [hb, BitVec.add_left_inj] at heq
  exact rotl32_injective hr heq

theorem mix_state (heq : mix h k = mix h' k) : h = h' := by
  obtain ⟨h4, h3, h2, h1⟩ := mix_inj heq
  have hl4 := (BitVec.xor_left_inj _).mp h4
  have hl3 := (BitVec.xor_left_inj _).mp (rot_xor (by decide) hl4 h3)
  have hl2 := (BitVec.xor_left_inj _).mp (rot_xor (by decide) hl3 h2)
  have hl1 := (BitVec.xor_left_inj _).mp (rot_xor (by decide) hl2 h1)
  exact lanes_ext hl1 hl2 hl3 hl4

theorem xor_key (heq : xor h k = xor h k') : k = k' := by
  obtain ⟨h1, h2, h3, h4⟩ := Lanes.mk.inj heq
  exact lanes_ext (scramble1_injective ((BitVec.xor_right_inj _).mp h1))
    (scramble2_injective ((BitVec.xor_right_inj _).mp h2)) (scramble3_injective ((BitVec.xor_right_inj _).mp h3))
    (scramble4_injective ((BitVec.xor_right_inj _).mp h4))

theorem mix_key (heq : mix h k = mix h k') : k = k' := by
  obtain ⟨h4, h3, h2, h1⟩ := mix_inj heq
  exact xor_key (lanes_ext (rot_xor (by decide) rfl h1) (rot_xor (by decide) rfl h2) (rot_xor (by decide) rfl h3) h4)

theorem xor_state (heq : xor h k = xor h' k) : h = h' := by
  obtain ⟨h1, h2, h3, h4⟩ := Lanes.mk.inj heq
  exact lanes_ext ((BitVec.xor_left_inj _).mp h1) ((BitVec.xor_left_inj _).mp h2) ((BitVec.xor_left_inj _).mp h3)
    ((BitVec.xor_left_inj _).mp h4)

theorem sums_injective : Injective sums := by
  intro h h' heq
  obtain ⟨h1, h2, h3, h4⟩ := Lanes.mk.inj heq
  rw [h1] at h2 h3 h4
  have hl2 := (BitVec.add_left_inj _).mp h2
  have hl3 := (BitVec.add_left_inj _).mp h3
  have hl4 := (BitVec.add_left_inj _).mp h4
  rw [hl2, hl3, hl4, BitVec.add_left_inj, BitVec.add_left_inj, BitVec.add_left_inj] at h1
  exact lanes_ext h1 hl2 hl3 hl4

theorem finalization_injective (len : BitVec 32) : Injective (finalization len) := by
  intro h h' heq
  obtain ⟨h1, h2, h3, h4⟩ := Lanes.mk.inj (sums_injective heq)
  have hmix := lanes_ext (fmix32_injective h1) (fmix32_injective h2) (fmix32_injective h3) (fmix32_injective h4)
  obtain ⟨h1, h2, h3, h4⟩ := Lanes.mk.inj (sums_injective hmix)
  exact lanes_ext (xor_injective _ h1) (xor_injective _ h2) (xor_injective _ h3) (xor_injective _ h4)

/-- `MurmurHash3_x86_128` of some bytes. -/
def hash : BlockHash Byte Lanes Lanes where
  size := 16
  pos := by decide
  absorb h bs := mix h (lanes bs)
  rest h bs := xor h (lanes bs)
  finish n := finalization (BitVec.ofNat 32 n)

theorem lossless : hash.Lossless where
  absorb_state _ heq := mix_state heq
  absorb_block hx hy heq := lanes_inj (hx.trans hy.symm) (le_of_eq hx) (mix_key heq)
  rest_state _ heq := xor_state heq
  rest_block hx hy heq := lanes_inj hy.symm (Nat.le_of_lt hx) (xor_key heq)
  finish _ := finalization_injective _

end x86_128

namespace x64_128

variable {xs ys : List Byte} {h h' k k' : Lanes}

theorem scramble1_injective : Injective scramble1 :=
  scramble64_injective (show c1 * 0xa98409e882ce4d7d = 1#64 by decide)
    (show c2 * 0xa81e14edd9de2c7f = 1#64 by decide) (by decide)

theorem scramble2_injective : Injective scramble2 :=
  scramble64_injective (show c2 * 0xa81e14edd9de2c7f = 1#64 by decide)
    (show c1 * 0xa98409e882ce4d7d = 1#64 by decide) (by decide)

theorem lanes_ext (h1 : h.l1 = h'.l1) (h2 : h.l2 = h'.l2) : h = h' := by
  cases h
  cases h'
  exact Lanes.mk.injEq .. ▸ ⟨h1, h2⟩

/-- The two words of a block. -/
def lanes (bs : List Byte) : Lanes := ⟨wordAt 64 bs 0, wordAt 64 bs 1⟩

theorem lanes_inj (hlen : xs.length = ys.length) (hle : xs.length ≤ 16) (heq : lanes xs = lanes ys) : xs = ys := by
  obtain ⟨h0, h1⟩ := Lanes.mk.inj heq
  refine wordAt_inj (w := 64) (n := 2) (by decide) hle hlen fun i hi => ?_
  interval_cases i
  · exact h0
  · exact h1

theorem mix_inj (heq : mix h k = mix h' k') : h.l2 ^^^ scramble2 k.l2 = h'.l2 ^^^ scramble2 k'.l2 ∧
    rotl64 (h.l1 ^^^ scramble1 k.l1) 27 + h.l2 = rotl64 (h'.l1 ^^^ scramble1 k'.l1) 27 + h'.l2 := by
  obtain ⟨h1, h2⟩ := Lanes.mk.inj heq
  rw [h1] at h2
  have hrot := affine_injective times5_64 _ h2
  exact ⟨rotl64_injective (by decide) ((BitVec.add_left_inj _).mp hrot), affine_injective times5_64 _ h1⟩

/-- The words of a key that are mixed into a state. -/
def xor (h k : Lanes) : Lanes := ⟨h.l1 ^^^ scramble1 k.l1, h.l2 ^^^ scramble2 k.l2⟩

theorem mix_xor (heq : mix h k = mix h' k') (hor : h.l2 = h'.l2 ∨ k.l2 = k'.l2) : xor h k = xor h' k' := by
  obtain ⟨h2, h1⟩ := mix_inj heq
  have hl2 : h.l2 = h'.l2 := by
    rcases hor with hl2 | hk2
    · exact hl2
    · rw [hk2] at h2
      exact (BitVec.xor_left_inj _).mp h2
  rw [hl2, BitVec.add_left_inj] at h1
  exact lanes_ext (rotl64_injective (by decide) h1) h2

theorem xor_state (heq : xor h k = xor h' k) : h = h' := by
  obtain ⟨h1, h2⟩ := Lanes.mk.inj heq
  exact lanes_ext ((BitVec.xor_left_inj _).mp h1) ((BitVec.xor_left_inj _).mp h2)

theorem xor_key (heq : xor h k = xor h k') : k = k' := by
  obtain ⟨h1, h2⟩ := Lanes.mk.inj heq
  exact lanes_ext (scramble1_injective ((BitVec.xor_right_inj _).mp h1))
    (scramble2_injective ((BitVec.xor_right_inj _).mp h2))

theorem sums_injective : Injective sums := by
  intro h h' heq
  obtain ⟨h1, h2⟩ := Lanes.mk.inj heq
  rw [h1] at h2
  have hl2 := (BitVec.add_left_inj _).mp h2
  rw [hl2] at h1
  exact lanes_ext ((BitVec.add_left_inj _).mp h1) hl2

theorem finalization_injective (len : BitVec 32) : Injective (finalization len) := by
  intro h h' heq
  obtain ⟨h1, h2⟩ := Lanes.mk.inj (sums_injective heq)
  have hsums := sums_injective (lanes_ext (fmix64_injective h1) (fmix64_injective h2))
  obtain ⟨h1, h2⟩ := Lanes.mk.inj hsums
  exact lanes_ext (xor_injective _ h1) (xor_injective _ h2)

/-- `MurmurHash3_x64_128` of some bytes. -/
def hash : BlockHash Byte Lanes Lanes where
  size := 16
  pos := by decide
  absorb h bs := mix h (lanes bs)
  rest h bs := xor h (lanes bs)
  finish n := finalization (BitVec.ofNat 32 n)

theorem lossless : hash.Lossless where
  absorb_state _ heq := xor_state (mix_xor heq (Or.inr rfl))
  absorb_block hx hy heq := lanes_inj (hx.trans hy.symm) (le_of_eq hx) (xor_key (mix_xor heq (Or.inl rfl)))
  rest_state _ heq := xor_state heq
  rest_block hx hy heq := lanes_inj hy.symm (Nat.le_of_lt hx) (xor_key heq)
  finish _ := finalization_injective _

end x64_128

end Redis
