import RedisPlayground.Proofs.Murmur

/-! What the hash functions read: the bytes of the key from its first to its last
one, each of them and nothing else. -/

namespace Redis

open CMem

/-- The byte at `t + i`. -/
def charAt (m : Mem) (t : CharPtr) (i : ℤ) : Option Byte :=
  match t with
  | .null => none
  | .ext bytes => if 0 ≤ i then bytes[i.toNat]? else none
  | .heap p off =>
    if p = NULL ∨ 8 + (off : ℤ) + i < 0 then none else byteAt m (p - PREFIX_SIZE) (8 + (off : ℤ) + i).toNat

section Reading

variable {w n r : ℕ} {key : CharPtr} {i : ℤ} {xs ys : List Byte}

theorem peeks_readFrom (t : CharPtr) (i : ℤ) (hn : 0 < n) :
    Peeks (readFrom t i n) fun m => collect (charAt m t) i n := by
  cases t with
  | null =>
    refine peeks_ub.congr fun m => (collect_eq_none.mpr ⟨0, hn, rfl⟩).symm
  | ext bytes =>
    intro s
    beta_reduce
    rw [readFrom]
    split
    · next h =>
      have hsome : collect (charAt s.mem (.ext bytes)) i n = some (slice bytes i.toNat n) := by
        refine collect_eq_some.mpr ⟨slice_length h.2, fun j hj => ?_⟩
        rw [charAt, if_pos (by omega), slice, List.getElem?_take_of_lt hj, List.getElem?_drop]
        congr 1
        omega
      rw [hsome]
      rfl
    · next h =>
      have hnone : collect (charAt s.mem (.ext bytes)) i n = none := by
        rw [not_and_or] at h
        by_cases hi : 0 ≤ i
        · refine collect_eq_none.mpr ⟨n - 1, by omega, ?_⟩
          rw [charAt, if_pos (by omega)]
          exact List.getElem?_eq_none (by omega)
        · refine collect_eq_none.mpr ⟨0, hn, ?_⟩
          rw [charAt, if_neg (by simpa using hi)]
      rw [hnone]
      rfl
  | heap p off =>
    rw [readFrom]
    split
    · next h =>
      refine peeks_ub.congr fun m => (collect_eq_none.mpr ⟨0, hn, ?_⟩).symm
      simp only [charAt, Nat.cast_zero, add_zero, if_pos h]
    · next h =>
      refine (peeks_readAt _ _ hn).congr fun m => collect_congr fun j hj => ?_
      rw [not_or] at h
      rw [charAt, if_neg (by simp only [h.1, false_or]; omega)]
      congr 1
      omega

theorem ofLE_snoc (bs : List Byte) (c : Byte) : ofLE (bs ++ [c]) = 2 ^ (8 * bs.length) * ofLE [c] + ofLE bs := by
  induction bs with
  | nil => simp [ofLE]
  | cons b bs ih =>
    rw [List.cons_append, ofLE, ih, List.length_cons, Nat.mul_succ, pow_add]
    simp only [ofLE]
    ring

/-- A byte in front of others does not meet their bits. -/
theorem leWord_snoc (bs : List Byte) (c : Byte) :
    leWord w (bs ++ [c]) = leWord w bs ^^^ (BitVec.ofNat w (ofLE [c]) <<< (8 * bs.length)) := by
  have hlt : ofLE bs < 2 ^ (8 * bs.length) := by
    rw [pow_mul]
    exact ofLE_lt bs
  refine BitVec.eq_of_getLsbD_eq fun j hj => ?_
  rw [leWord, leWord, ofLE_snoc, BitVec.getLsbD_xor, BitVec.getLsbD_shiftLeft, BitVec.getLsbD_ofNat,
    BitVec.getLsbD_ofNat, BitVec.getLsbD_ofNat, Nat.testBit_two_pow_mul_add _ hlt]
  by_cases hlow : j < 8 * bs.length
  · simp [hlow, hj]
  · have hhigh : (ofLE bs).testBit j = false := by
      refine Nat.testBit_lt_two_pow (lt_of_lt_of_le hlt (Nat.pow_le_pow_right (by decide) (by omega)))
    simp [hlow, hj, hhigh, show j - 8 * bs.length < w by omega]

theorem peeks_xorTail (tail : ℤ) (off m : ℕ) (k : BitVec w) :
    Peeks (xorTail key tail off m k) fun mem =>
      (collect (charAt mem key) (tail + off) m).map fun bs => k ^^^ leWord w bs := by
  induction m generalizing k with
  | zero =>
    refine (peeks_pure k).congr fun mem => ?_
    simp [collect, leWord, ofLE]
  | succ m ih =>
    refine ((peeks_readFrom key _ Nat.one_pos).bind fun bs => ih _).congr fun mem => ?_
    rw [collect_append, collect_one, show tail + off + (m : ℤ) = tail + ((off + m : ℕ) : ℤ) by push_cast; ring,
      collect_one]
    cases charAt mem key (tail + ((off + m : ℕ) : ℤ)) with
    | none => cases collect (charAt mem key) (tail + off) m <;> rfl
    | some c =>
      cases h : collect (charAt mem key) (tail + off) m with
      | none => rfl
      | some bs =>
        have hxor := leWord_snoc (w := w) bs c
        rw [collect_length h] at hxor
        simp only [Option.map_some, Option.bind_some, hxor, BitVec.xor_assoc, BitVec.xor_comm (leWord w bs)]

theorem peeks_tailLane {scramble : BitVec w → BitVec w} (hzero : scramble 0#w = 0#w) (tail : ℤ) (off m : ℕ)
    (h : BitVec w) : Peeks (tailLane key tail off m scramble h) fun mem =>
      (collect (charAt mem key) (tail + off) m).map fun bs => h ^^^ scramble (leWord w bs) := by
  rw [tailLane]
  split
  · next hm =>
    subst hm
    refine (peeks_pure h).congr fun mem => ?_
    have hnil : leWord w [] = 0 := rfl
    simp [collect, hnil, hzero]
  · refine ((peeks_xorTail tail off m 0).bind fun k => peeks_pure _).congr fun mem => ?_
    cases collect (charAt mem key) (tail + off) m with
    | none => rfl
    | some bs => simp

theorem peeks_getblock32 (off i : ℤ) :
    Peeks (getblock32 key off i) fun mem => (collect (charAt mem key) (off + 4 * i) 4).map (leWord 32) :=
  (peeks_readFrom key _ (by decide)).map

theorem peeks_getblock64 (off i : ℤ) :
    Peeks (getblock64 key off i) fun mem => (collect (charAt mem key) (off + 8 * i) 8).map (leWord 64) :=
  (peeks_readFrom key _ (by decide)).map

theorem wordAt_short (xs : List Byte) (hx : xs.length ≤ w / 8) : wordAt w xs 0 = leWord w xs := by
  rw [wordAt, Nat.mul_zero, slice_zero, List.take_of_length_le hx]

/-- The words of a key whose first word is full, or all there is. -/
theorem wordAt_append (xs ys : List Byte) (hx : xs.length ≤ w / 8) (hfull : xs.length < w / 8 → ys = []) :
    wordAt w (xs ++ ys) 0 = leWord w xs ∧ ∀ i, wordAt w (xs ++ ys) (i + 1) = wordAt w ys i := by
  rcases Nat.lt_or_eq_of_le hx with hlt | heq
  · obtain rfl := hfull hlt
    rw [List.append_nil]
    refine ⟨wordAt_short xs hx, fun i => ?_⟩
    rw [wordAt, wordAt, slice, List.drop_eq_nil_of_le (by rw [Nat.mul_succ]; omega), slice, List.drop_nil]
  · refine ⟨?_, fun i => ?_⟩
    · rw [wordAt, Nat.mul_zero, slice_zero, ← heq, List.take_left]
    · rw [wordAt, slice_append_right (by rw [Nat.mul_succ]; omega), Nat.mul_succ, heq, Nat.add_sub_cancel, wordAt]

end Reading

section Loops

variable {σ τ : Type} {H : BlockHash Byte σ τ} {key : CharPtr} {f : ℤ → Option Byte} {n k : ℕ} {i off : ℤ} {h : σ}

/-- A block and the ones behind it are read one after the other. -/
theorem collect_absorbAll :
    ((collect f i H.size).bind fun bs => (collect f (i + H.size) (H.size * n)).map (H.absorbAll n (H.absorb h bs))) =
      (collect f i (H.size * (n + 1))).map (H.absorbAll (n + 1) h) := by
  rw [Nat.mul_succ, Nat.add_comm (H.size * n), collect_append]
  cases hbs : collect f i H.size with
  | none => rfl
  | some bs =>
    cases collect f (i + H.size) (H.size * n) with
    | none => rfl
    | some cs =>
      simp only [Option.bind_some, Option.map_some, BlockHash.absorbAll]
      rw [List.take_left' (collect_length hbs), List.drop_left' (collect_length hbs)]

/-- `n` rounds, the last of which reads the block in front of `blocks`. -/
theorem peeks_countUp {round : ℤ → σ → M σ} (hround : ∀ i h, Peeks (round i h) fun mem =>
      (collect (charAt mem key) (off + H.size * i) H.size).map (H.absorb h)) (hk : n ≤ k) :
    Peeks (countUp round k (-n) h) fun mem =>
      (collect (charAt mem key) (off + H.size * -n) (H.size * n)).map (H.absorbAll n h) := by
  induction n generalizing k h with
  | zero =>
    have hdone : countUp round k (-(0 : ℕ)) h = pure h := by
      cases k <;> rfl
    rw [hdone]
    exact peeks_pure h
  | succ n ih =>
    obtain ⟨k, rfl⟩ := Nat.exists_eq_add_of_lt hk
    rw [countUp, if_neg (by omega), show -((n + 1 : ℕ) : ℤ) + 1 = -(n : ℤ) by push_cast; ring]
    refine ((hround _ h).bind fun h' => ih (by omega)).congr fun mem => ?_
    rw [← collect_absorbAll]
    cases collect (charAt mem key) (off + H.size * -((n + 1 : ℕ) : ℤ)) H.size with
    | none => rfl
    | some bs =>
      simp only [Option.map_some, Option.bind_some]
      congr 2
      push_cast
      ring

/-- The blocks of a key and what is left behind them. -/
theorem collect_hash : (((collect f 0 (H.size * (n / H.size))).map (H.absorbAll (n / H.size) h)).bind fun h' =>
      ((collect f (H.size * (n / H.size) : ℕ) (n % H.size)).map (H.rest h')).map (H.finish n)) =
    (collect f 0 n).map (H.hash h) := by
  conv_rhs => rw [← Nat.div_add_mod n H.size, collect_append, zero_add]
  cases hbs : collect f 0 (H.size * (n / H.size)) with
  | none => rfl
  | some bs =>
    simp only [Option.map_some, Option.bind_some]
    cases hcs : collect f (H.size * (n / H.size) : ℕ) (n % H.size) with
    | none => rfl
    | some cs =>
      have hlen := collect_length hbs
      have hlen' := collect_length hcs
      have hsum : bs.length + cs.length = n := by rw [hlen, hlen', Nat.div_add_mod]
      simp only [Option.map_some]
      rw [BlockHash.hash_append hlen (by rw [hlen']; exact Nat.mod_lt n H.pos), hsum]

theorem peeks_hash {body : M σ} {tail : σ → M σ}
    (hbody : Peeks body fun mem =>
      (collect (charAt mem key) 0 (H.size * (n / H.size))).map (H.absorbAll (n / H.size) h))
    (htail : ∀ h', Peeks (tail h') fun mem =>
      (collect (charAt mem key) (H.size * (n / H.size) : ℕ) (n % H.size)).map (H.rest h')) :
    Peeks (do let h' ← body; let h' ← tail h'; return H.finish n h') fun mem =>
      (collect (charAt mem key) 0 n).map (H.hash h) :=
  (hbody.bind fun h' => (htail h').map).congr fun _ => collect_hash

end Loops

section Lengths

variable {len : BitVec 32}

theorem tdiv_of_nonneg (hlen : 0 ≤ len.toInt) (k : ℕ) : len.toInt.tdiv k = ((len.toNat / k : ℕ) : ℤ) := by
  rw [Int.tdiv_eq_ediv_of_nonneg hlen, BitVec.toInt_eq_toNat_of_lt (by rw [BitVec.toInt_eq_toNat_cond] at hlen; omega)]
  rfl

theorem toNat_lt_of_nonneg (hlen : 0 ≤ len.toInt) : len.toNat < 2 ^ 31 := by
  rw [BitVec.toInt_eq_toNat_cond] at hlen
  omega

/-- Division rounds towards 0. -/
theorem tdiv_of_neg (hlen : len.toInt < 0) : len.toInt.tdiv 16 = -(((2 ^ 32 - len.toNat) / 16 : ℕ) : ℤ) := by
  have hlt := len.isLt
  have hneg : len.toInt = -((2 ^ 32 - len.toNat : ℕ) : ℤ) := by
    rw [BitVec.toInt_eq_toNat_cond] at hlen ⊢
    split at hlen
    · omega
    · next h =>
      rw [if_neg h]
      omega
  rw [hneg, Int.neg_tdiv]
  rfl

theorem and_3_toNat : (len &&& 3).toNat = len.toNat % 4 := by
  rw [BitVec.toNat_and]
  exact Nat.and_two_pow_sub_one_eq_mod _ 2

theorem and_15_toNat : (len &&& 15).toNat = len.toNat % 16 := by
  rw [BitVec.toNat_and]
  exact Nat.and_two_pow_sub_one_eq_mod _ 4

end Lengths

namespace x86_32

variable {key : CharPtr} {len seed h : BitVec 32} {i off : ℤ} {r : ℕ}

theorem peeks_round : Peeks (round key off i h) fun mem =>
    (collect (charAt mem key) (off + hash.size * i) hash.size).map (hash.absorb h) := by
  refine ((peeks_getblock32 off i).map (g := mix h)).congr fun mem => ?_
  rw [Option.map_map]
  rfl

theorem peeks_tail : Peeks (tail key off r h) fun mem => (collect (charAt mem key) off r).map (hash.rest h) := by
  refine (peeks_tailLane (by decide) off 0 r h).congr fun mem => ?_
  rw [Nat.cast_zero, add_zero]
  rfl

end x86_32

namespace x86_128

variable {σ : Type} {key : CharPtr} {len seed : BitVec 32} {h : Lanes} {i off : ℤ} {n r : ℕ} {f : ℤ → Option Byte}

/-- A block, or less than one, is read lane by lane. -/
theorem collect_lanes (g : Lanes → σ) (hn : n ≤ 16) : (collect f i n).map (fun bs => g (lanes bs)) =
    (collect f i (min n 4)).bind fun bs0 => (collect f (i + 4) (min (n - 4) 4)).bind fun bs1 =>
      (collect f (i + 8) (min (n - 8) 4)).bind fun bs2 => (collect f (i + 12) (n - 12)).map fun bs3 =>
        g ⟨leWord 32 bs0, leWord 32 bs1, leWord 32 bs2, leWord 32 bs3⟩ := by
  have h1 := collect_split (f := f) (i := i) (n := n) (k := 4)
  have h2 := collect_split (f := f) (i := i + 4) (n := n - 4) (k := 4)
  have h3 := collect_split (f := f) (i := i + 8) (n := n - 8) (k := 4)
  rw [show i + 4 + ((4 : ℕ) : ℤ) = i + 8 by push_cast; ring, show n - 4 - 4 = n - 8 by omega] at h2
  rw [show i + 8 + ((4 : ℕ) : ℤ) = i + 12 by push_cast; ring, show n - 8 - 4 = n - 12 by omega] at h3
  rw [h1, show i + ((4 : ℕ) : ℤ) = i + 4 by rfl, h2, h3]
  cases hbs0 : collect f i (min n 4) with
  | none => rfl
  | some bs0 =>
    cases hbs1 : collect f (i + 4) (min (n - 4) 4) with
    | none => rfl
    | some bs1 =>
      cases hbs2 : collect f (i + 8) (min (n - 8) 4) with
      | none => rfl
      | some bs2 =>
        cases hbs3 : collect f (i + 12) (n - 12) with
        | none => rfl
        | some bs3 =>
          have hlen0 := collect_length hbs0
          have hlen1 := collect_length hbs1
          have hlen2 := collect_length hbs2
          have hlen3 := collect_length hbs3
          have hw0 := wordAt_append (w := 32) bs0 (bs1 ++ (bs2 ++ bs3)) (by omega) fun hlt => by
            rw [← List.length_eq_zero_iff, List.length_append, List.length_append]
            omega
          have hw1 := wordAt_append (w := 32) bs1 (bs2 ++ bs3) (by omega) fun hlt => by
            rw [← List.length_eq_zero_iff, List.length_append]
            omega
          have hw2 := wordAt_append (w := 32) bs2 bs3 (by omega) fun hlt => by
            rw [← List.length_eq_zero_iff]
            omega
          have hw3 := wordAt_short (w := 32) bs3 (by omega)
          simp only [Option.bind_some, Option.map_some, lanes, hw0.1, hw0.2 0, hw0.2 1, hw0.2 2, hw1.1, hw1.2 0,
            hw1.2 1, hw2.1, hw2.2 0, hw3]

theorem peeks_round : Peeks (round key off i h) fun mem =>
    (collect (charAt mem key) (off + hash.size * i) hash.size).map (hash.absorb h) := by
  refine ((peeks_getblock32 off (i * 4 + 0)).bind fun k1 => (peeks_getblock32 off (i * 4 + 1)).bind fun k2 =>
    (peeks_getblock32 off (i * 4 + 2)).bind fun k3 => (peeks_getblock32 off (i * 4 + 3)).bind fun k4 =>
      peeks_pure (mix h ⟨k1, k2, k3, k4⟩)).congr fun mem => ?_
  have hat : ∀ j : ℤ, off + 4 * (i * 4 + j) = off + hash.size * i + 4 * j := by
    intro j
    simp only [hash]
    push_cast
    ring
  rw [show hash.absorb h = fun bs => mix h (lanes bs) from rfl, collect_lanes (mix h) (by decide), hat, hat, hat, hat,
    show (4 : ℤ) * 0 = 0 by rfl, add_zero]
  simp only [Option.map_eq_bind, Option.bind_assoc, Function.comp_def, Option.bind_some]
  rfl

theorem peeks_tail (hr : r ≤ 16) :
    Peeks (tail key off r h) fun mem => (collect (charAt mem key) off r).map (hash.rest h) := by
  refine ((peeks_tailLane (by decide) off 12 (r - 12) h.l4).bind fun h4 =>
    (peeks_tailLane (by decide) off 8 (min (r - 8) 4) h.l3).bind fun h3 =>
      (peeks_tailLane (by decide) off 4 (min (r - 4) 4) h.l2).bind fun h2 =>
        (peeks_tailLane (by decide) off 0 (min r 4) h.l1).bind fun h1 =>
          peeks_pure (⟨h1, h2, h3, h4⟩ : Lanes)).congr fun mem => ?_
  rw [show hash.rest h = fun bs => xor h (lanes bs) from rfl, collect_lanes (xor h) hr,
    show off + ((0 : ℕ) : ℤ) = off from add_zero off]
  simp only [Nat.cast_ofNat]
  -- the source reads the last lane first
  generalize collect (charAt mem key) off (min r 4) = lane0
  generalize collect (charAt mem key) (off + 4) (min (r - 4) 4) = lane1
  generalize collect (charAt mem key) (off + 8) (min (r - 8) 4) = lane2
  generalize collect (charAt mem key) (off + 12) (r - 12) = lane3
  cases lane0 <;> cases lane1 <;> cases lane2 <;> cases lane3 <;> rfl

end x86_128

namespace x64_128

variable {σ : Type} {key : CharPtr} {h : Lanes} {i off : ℤ} {n r : ℕ} {f : ℤ → Option Byte}

theorem collect_lanes (g : Lanes → σ) (hn : n ≤ 16) : (collect f i n).map (fun bs => g (lanes bs)) =
    (collect f i (min n 8)).bind fun bs0 => (collect f (i + 8) (n - 8)).map fun bs1 =>
      g ⟨leWord 64 bs0, leWord 64 bs1⟩ := by
  rw [collect_split (k := 8), Nat.cast_ofNat]
  cases hbs0 : collect f i (min n 8) with
  | none => rfl
  | some bs0 =>
    cases hbs1 : collect f (i + 8) (n - 8) with
    | none => rfl
    | some bs1 =>
      have hlen0 := collect_length hbs0
      have hlen1 := collect_length hbs1
      have hw0 := wordAt_append (w := 64) bs0 bs1 (by omega) fun hlt => by
        rw [← List.length_eq_zero_iff]
        omega
      have hw1 := wordAt_short (w := 64) bs1 (by omega)
      simp only [Option.bind_some, Option.map_some, lanes, hw0.1, hw0.2 0, hw1]

theorem peeks_round : Peeks (round key i h) fun mem =>
    (collect (charAt mem key) (hash.size * i) hash.size).map (hash.absorb h) := by
  refine ((peeks_getblock64 0 (i * 2 + 0)).bind fun k1 => (peeks_getblock64 0 (i * 2 + 1)).bind fun k2 =>
    peeks_pure (mix h ⟨k1, k2⟩)).congr fun mem => ?_
  have hat : ∀ j : ℤ, 0 + 8 * (i * 2 + j) = hash.size * i + 8 * j := by
    intro j
    simp only [hash]
    push_cast
    ring
  rw [show hash.absorb h = fun bs => mix h (lanes bs) from rfl, collect_lanes (mix h) (by decide), hat, hat,
    show (8 : ℤ) * 0 = 0 by rfl, add_zero]
  simp only [Option.map_eq_bind, Option.bind_assoc, Function.comp_def, Option.bind_some]
  rfl

/-- The body reads forward from the key on. -/
theorem peeks_body : Peeks (body key n i h) fun mem =>
    (collect (charAt mem key) (hash.size * i) (hash.size * n)).map (hash.absorbAll n h) := by
  induction n generalizing i h with
  | zero => exact peeks_pure h
  | succ n ih =>
    refine (peeks_round.bind fun h' => ih).congr fun mem => ?_
    rw [← collect_absorbAll, mul_add, mul_one]
    cases collect (charAt mem key) (hash.size * i) hash.size with
    | none => rfl
    | some bs => rfl

theorem peeks_tail (hr : r ≤ 16) :
    Peeks (tail key off r h) fun mem => (collect (charAt mem key) off r).map (hash.rest h) := by
  refine ((peeks_tailLane (by decide) off 8 (r - 8) h.l2).bind fun h2 =>
    (peeks_tailLane (by decide) off 0 (min r 8) h.l1).bind fun h1 =>
      peeks_pure (⟨h1, h2⟩ : Lanes)).congr fun mem => ?_
  rw [show hash.rest h = fun bs => xor h (lanes bs) from rfl, collect_lanes (xor h) hr,
    show off + ((0 : ℕ) : ℤ) = off from add_zero off, Nat.cast_ofNat]
  -- the source reads the last lane first
  generalize collect (charAt mem key) off (min r 8) = lane0
  generalize collect (charAt mem key) (off + 8) (r - 8) = lane1
  cases lane0 <;> cases lane1 <;> rfl

end x64_128

section Functions

variable {key : CharPtr} {len seed : BitVec 32}

/-- The function reads the `len` bytes of the key, and returns their hash. -/
theorem peeks_MurmurHash3_x86_32 (hlen : 0 ≤ len.toInt) : Peeks (MurmurHash3_x86_32 key len seed) fun mem =>
    (collect (charAt mem key) 0 len.toNat).map (x86_32.hash.hash seed) := by
  have hlt := toNat_lt_of_nonneg hlen
  have hblocks : len.toInt.tdiv 4 = ((len.toNat / 4 : ℕ) : ℤ) := tdiv_of_nonneg hlen 4
  have hfinish : x86_32.hash.finish len.toNat = x86_32.finalization len := by
    simp only [x86_32.hash, BitVec.ofNat_toNat, BitVec.setWidth_eq]
  rw [MurmurHash3_x86_32, hblocks, and_3_toNat, ← hfinish]
  refine peeks_hash (H := x86_32.hash) ?_ fun h => ?_
  · refine (peeks_countUp (n := len.toNat / 4) (fun i h => x86_32.peeks_round) (by omega)).congr fun mem => ?_
    congr 2
    simp only [x86_32.hash]
    ring
  · refine x86_32.peeks_tail.congr fun mem => ?_
    congr 2
    simp only [x86_32.hash]
    push_cast
    ring

theorem peeks_MurmurHash3_x86_128 (hlen : 0 ≤ len.toInt) : Peeks (MurmurHash3_x86_128 key len seed) fun mem =>
    (collect (charAt mem key) 0 len.toNat).map (x86_128.hash.hash ⟨seed, seed, seed, seed⟩) := by
  have hlt := toNat_lt_of_nonneg hlen
  have hblocks : len.toInt.tdiv 16 = ((len.toNat / 16 : ℕ) : ℤ) := tdiv_of_nonneg hlen 16
  have hfinish : x86_128.hash.finish len.toNat = x86_128.finalization len := by
    simp only [x86_128.hash, BitVec.ofNat_toNat, BitVec.setWidth_eq]
  rw [MurmurHash3_x86_128, hblocks, and_15_toNat, ← hfinish]
  refine peeks_hash (H := x86_128.hash) ?_ fun h => ?_
  · refine (peeks_countUp (n := len.toNat / 16) (fun i h => x86_128.peeks_round) (by omega)).congr fun mem => ?_
    congr 2
    simp only [x86_128.hash]
    ring
  · refine (x86_128.peeks_tail (Nat.le_of_lt (Nat.mod_lt _ (by decide)))).congr fun mem => ?_
    congr 2
    simp only [x86_128.hash]
    push_cast
    ring

theorem peeks_MurmurHash3_x64_128 (hlen : 0 ≤ len.toInt) : Peeks (MurmurHash3_x64_128 key len seed) fun mem =>
    (collect (charAt mem key) 0 len.toNat).map (x64_128.hash.hash ⟨seed.setWidth 64, seed.setWidth 64⟩) := by
  have hblocks : len.toInt.tdiv 16 = ((len.toNat / 16 : ℕ) : ℤ) := tdiv_of_nonneg hlen 16
  have hfinish : x64_128.hash.finish len.toNat = x64_128.finalization len := by
    simp only [x64_128.hash, BitVec.ofNat_toNat, BitVec.setWidth_eq]
  rw [MurmurHash3_x64_128, hblocks, and_15_toNat, ← hfinish]
  refine peeks_hash (H := x64_128.hash) ?_ fun h => ?_
  · refine x64_128.peeks_body.congr fun mem => ?_
    rw [mul_zero, Int.toNat_natCast]
    rfl
  · refine (x64_128.peeks_tail (Nat.le_of_lt (Nat.mod_lt _ (by decide)))).congr fun mem => ?_
    congr 2
    simp only [x64_128.hash]
    push_cast
    ring

/-- With a negative length there are no blocks, and the tail is looked for in front of the key. -/
theorem peeks_MurmurHash3_x64_128_neg (hlen : len.toInt < 0) : Peeks (MurmurHash3_x64_128 key len seed) fun mem =>
    (collect (charAt mem key) (len.toInt.tdiv 16 * 16) (len.toNat % 16)).map fun bs =>
      x64_128.finalization len (x64_128.hash.rest ⟨seed.setWidth 64, seed.setWidth 64⟩ bs) := by
  have hblocks : (len.toInt.tdiv 16).toNat = 0 := by
    rw [tdiv_of_neg hlen]
    omega
  rw [MurmurHash3_x64_128, hblocks, and_15_toNat]
  refine ((peeks_pure _).bind fun h => (x64_128.peeks_tail (Nat.le_of_lt (Nat.mod_lt _ (by decide)))).map
    (g := x64_128.finalization len)).congr fun mem => ?_
  rw [Option.bind_some, Option.map_map]
  rfl

end Functions

end Redis
