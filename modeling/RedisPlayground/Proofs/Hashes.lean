import RedisPlayground.Proofs.MurmurReads
import RedisPlayground.Proofs.Strings
import RedisPlayground.Proofs.DictLookups

/-! What the hash functions promise their callers. -/

namespace Redis

open CMem

section Keys

variable {σ τ : Type} {x : CharPtr → BitVec 32 → BitVec 32 → M τ} {H : BlockHash Byte σ τ} {start : BitVec 32 → σ}
  {key : CharPtr} {len seed : BitVec 32} {s : State Globals} {bs xs : List Byte}

/-- `x` reads the first `n` bytes at `key` and nothing else, changes nothing, and returns what `g`
makes of them. -/
def ReadsKey (x : M τ) (key : CharPtr) (n : ℕ) (g : List Byte → τ) : Prop :=
  ∀ s out s', x s = .ok (out, s') ↔
    s' = s ∧ ∃ bs, bs.length = n ∧ (∀ j < n, charAt s.mem key j = bs[j]?) ∧ out = g bs

theorem collect_zero {f : ℤ → Option Byte} {n : ℕ} :
    collect f 0 n = some bs ↔ bs.length = n ∧ ∀ j < n, f j = bs[j]? := by
  rw [collect_eq_some]
  simp only [zero_add]

theorem readsKey_of_peeks {x : M τ} {n : ℕ} {g : List Byte → τ}
    (h : Peeks x fun mem => (collect (charAt mem key) 0 n).map g) : ReadsKey x key n g := by
  intro s out s'
  rw [h.ok_iff, Option.map_eq_some_iff, and_comm]
  simp only [collect_zero, and_assoc, @eq_comm _ out]

theorem charAt_ext {m : Mem} {j : ℕ} : charAt m (.ext bs) j = bs[j]? := by
  rw [charAt, if_pos (Int.natCast_nonneg j)]
  rfl

/-- A key in memory of the caller. -/
theorem ReadsKey.ext {x : M τ} {n : ℕ} {g : List Byte → τ} (h : ReadsKey x (.ext bs) n g) (hbs : bs.length = n) :
    x s = .ok (g bs, s) :=
  (h _ _ _).mpr ⟨rfl, bs, hbs, fun _ _ => charAt_ext, rfl⟩

/-- The three functions read the bytes of the key, each of them and no other one. -/
theorem hashes_read_the_key (key : CharPtr) (len seed : BitVec 32) (hlen : 0 ≤ len.toInt) :
    ReadsKey (MurmurHash3_x86_32 key len seed) key len.toNat (x86_32.hash.hash seed) ∧
      ReadsKey (MurmurHash3_x86_128 key len seed) key len.toNat (x86_128.hash.hash ⟨seed, seed, seed, seed⟩) ∧
      ReadsKey (MurmurHash3_x64_128 key len seed) key len.toNat
        (x64_128.hash.hash ⟨seed.setWidth 64, seed.setWidth 64⟩) :=
  ⟨readsKey_of_peeks (peeks_MurmurHash3_x86_32 hlen), readsKey_of_peeks (peeks_MurmurHash3_x86_128 hlen),
    readsKey_of_peeks (peeks_MurmurHash3_x64_128 hlen)⟩

theorem hashes_read_five_bytes :
    ReadsKey (MurmurHash3_x86_32 (.ext [1, 2, 3, 4, 5]) 5 7) (.ext [1, 2, 3, 4, 5]) 5 (x86_32.hash.hash 7) ∧
      ReadsKey (MurmurHash3_x86_128 (.ext [1, 2, 3, 4, 5]) 5 7) (.ext [1, 2, 3, 4, 5]) 5
        (x86_128.hash.hash ⟨7, 7, 7, 7⟩) ∧
      ReadsKey (MurmurHash3_x64_128 (.ext [1, 2, 3, 4, 5]) 5 7) (.ext [1, 2, 3, 4, 5]) 5 (x64_128.hash.hash ⟨7, 7⟩) :=
  hashes_read_the_key (.ext [1, 2, 3, 4, 5]) 5 7 (by decide)

/-- Keys of one length that differ in one block of `size` bytes only have different hashes, whatever
is around them and wherever they stand; so have all seeds for one key. -/
structure Separates (size : ℕ) (x : CharPtr → BitVec 32 → BitVec 32 → M τ) : Prop where
  keys : ∀ {key key' len seed s s' t t' out out' i}, 0 ≤ len.toInt →
    x key len seed s = .ok (out, t) → x key' len seed s' = .ok (out', t') →
    (∀ j < len.toNat, j / size ≠ i → charAt s.mem key j = charAt s'.mem key' j) →
    (∃ j < len.toNat, charAt s.mem key j ≠ charAt s'.mem key' j) → out ≠ out'
  seeds : ∀ {key len seed seed' s t t' out out'}, 0 ≤ len.toInt →
    x key len seed s = .ok (out, t) → x key len seed' s = .ok (out', t') → seed ≠ seed' → out ≠ out'

theorem separates_of_lossless (start : BitVec 32 → σ) (hH : H.Lossless) (hstart : Function.Injective start)
    (h : ∀ key len seed, 0 ≤ len.toInt → ReadsKey (x key len seed) key len.toNat (H.hash (start seed))) :
    Separates H.size x where
  keys := by
    intro key key' len seed s s' t t' out out' i hlen hx hx' hagree hdiff
    obtain ⟨-, bs, hbs, hall, rfl⟩ := (h key len seed hlen _ _ _).mp hx
    obtain ⟨-, bs', hbs', hall', rfl⟩ := (h key' len seed hlen _ _ _).mp hx'
    refine hH.hash_ne (i := i) (hbs.trans hbs'.symm) (fun j hj => ?_) ?_
    · by_cases hlt : j < len.toNat
      · rw [← hall j hlt, ← hall' j hlt, hagree j hlt hj]
      · rw [List.getElem?_eq_none (by omega), List.getElem?_eq_none (by omega)]
    · rintro rfl
      obtain ⟨j, hj, hne⟩ := hdiff
      exact hne ((hall j hj).trans (hall' j hj).symm)
  seeds := by
    intro key len seed seed' s t t' out out' hlen hx hx' hne heq
    obtain ⟨-, bs, hbs, hall, rfl⟩ := (h key len seed hlen _ _ _).mp hx
    obtain ⟨-, bs', hbs', hall', rfl⟩ := (h key len seed' hlen _ _ _).mp hx'
    have hsame : bs = bs' := by
      refine List.ext_getElem? fun j => ?_
      by_cases hlt : j < len.toNat
      · rw [← hall j hlt, hall' j hlt]
      · rw [List.getElem?_eq_none (by omega), List.getElem?_eq_none (by omega)]
    subst hsame
    exact hne (hstart (hH.hash_state heq))

/-- Two keys whose first `n` bytes are whole blocks and whose other bytes agree collide if and only if
these first bytes alone do. -/
def CollidesBlockwise (size : ℕ) (x : CharPtr → BitVec 32 → BitVec 32 → M τ) : Prop :=
  ∀ {key key' n len seed s s' t t' u u' out out' all all'}, n.toNat % size = 0 → n.toNat ≤ len.toNat →
    0 ≤ len.toInt → (∀ j : ℕ, n.toNat ≤ j → j < len.toNat → charAt s.mem key j = charAt s'.mem key' j) →
    x key n seed s = .ok (out, t) → x key' n seed s' = .ok (out', t') →
    x key len seed s = .ok (all, u) → x key' len seed s' = .ok (all', u') → (all = all' ↔ out = out')

theorem reads_prefix {m : Mem} {n k : ℕ} (hle : k ≤ n) (hbs : bs.length = n)
    (hall : ∀ j < n, charAt m key j = bs[j]?) (hxs : xs.length = k) (hpre : ∀ j < k, charAt m key j = xs[j]?) :
    bs.take k = xs := by
  refine List.ext_getElem? fun j => ?_
  rw [List.getElem?_take]
  split
  · next hj => rw [← hall j (by omega), hpre j hj]
  · next hj => rw [List.getElem?_eq_none (by omega)]

theorem collidesBlockwise_of_lossless (start : BitVec 32 → σ) (hH : H.Lossless)
    (h : ∀ key len seed, 0 ≤ len.toInt → ReadsKey (x key len seed) key len.toNat (H.hash (start seed))) :
    CollidesBlockwise H.size x := by
  intro key key' n len seed s s' t t' u u' out out' all all' hblocks hle hlen hsuffix hx hx' hy hy'
  have hn : 0 ≤ n.toInt := by
    rw [BitVec.toInt_eq_toNat_cond] at hlen ⊢
    split at hlen <;> split <;> omega
  obtain ⟨-, xs, hxs, hreads, rfl⟩ := (h key n seed hn _ _ _).mp hx
  obtain ⟨-, xs', hxs', hreads', rfl⟩ := (h key' n seed hn _ _ _).mp hx'
  obtain ⟨-, bs, hbs, hall, rfl⟩ := (h key len seed hlen _ _ _).mp hy
  obtain ⟨-, bs', hbs', hall', rfl⟩ := (h key' len seed hlen _ _ _).mp hy'
  have hdrop : bs.drop n.toNat = bs'.drop n.toNat := by
    refine List.ext_getElem? fun j => ?_
    rw [List.getElem?_drop, List.getElem?_drop]
    by_cases hj : n.toNat + j < len.toNat
    · rw [← hall _ hj, ← hall' _ hj, hsuffix _ (Nat.le_add_right _ _) hj]
    · rw [List.getElem?_eq_none (by omega), List.getElem?_eq_none (by omega)]
  have hwhole : xs.length = H.size * (n.toNat / H.size) := by
    rw [hxs]
    exact (Nat.mul_div_cancel' (Nat.dvd_of_mod_eq_zero hblocks)).symm
  rw [← List.take_append_drop n.toNat bs, ← List.take_append_drop n.toNat bs', ← hdrop,
    reads_prefix hle hbs hall hxs hreads, reads_prefix hle hbs' hall' hxs' hreads']
  exact hH.hash_append_eq hwhole (hxs.trans hxs'.symm)

theorem hashes_separate : Separates 4 MurmurHash3_x86_32 ∧ Separates 16 MurmurHash3_x86_128 ∧
    Separates 16 MurmurHash3_x64_128 := by
  refine ⟨?_, ?_, ?_⟩
  · refine separates_of_lossless (fun seed => seed) x86_32.lossless (fun _ _ heq => heq) fun key len seed hlen => ?_
    exact readsKey_of_peeks (peeks_MurmurHash3_x86_32 hlen)
  · refine separates_of_lossless (fun seed => ⟨seed, seed, seed, seed⟩) x86_128.lossless
      (fun _ _ heq => (x86_128.Lanes.mk.inj heq).1) fun key len seed hlen => ?_
    exact readsKey_of_peeks (peeks_MurmurHash3_x86_128 hlen)
  · refine separates_of_lossless (fun seed => ⟨seed.setWidth 64, seed.setWidth 64⟩) x64_128.lossless
      (fun seed seed' heq => ?_) fun key len seed hlen => ?_
    · have hword := congrArg (BitVec.setWidth 32) (x64_128.Lanes.mk.inj heq).1
      simpa using hword
    · exact readsKey_of_peeks (peeks_MurmurHash3_x64_128 hlen)

/-- Keys that differ in the tail, keys that differ in a block, and seeds. -/
theorem hashes_separate_keys :
    (∃ out out', MurmurHash3_x86_32 (.ext [1, 2, 3, 4, 5]) 5 7 zinit = .ok (out, zinit) ∧
      MurmurHash3_x86_32 (.ext [1, 2, 3, 4, 6]) 5 7 zinit = .ok (out', zinit) ∧ out ≠ out') ∧
    (∃ out out', MurmurHash3_x86_128 (.ext (0 :: List.replicate 16 9)) 17 7 zinit = .ok (out, zinit) ∧
      MurmurHash3_x86_128 (.ext (1 :: List.replicate 16 9)) 17 7 zinit = .ok (out', zinit) ∧ out ≠ out') ∧
    ∃ out out', MurmurHash3_x64_128 (.ext [1, 2, 3]) 3 7 zinit = .ok (out, zinit) ∧
      MurmurHash3_x64_128 (.ext [1, 2, 3]) 3 8 zinit = .ok (out', zinit) ∧ out ≠ out' := by
  have hx86 : ∀ bs, bs.length = 5 → MurmurHash3_x86_32 (.ext bs) 5 7 zinit = .ok (x86_32.hash.hash 7 bs, zinit) :=
    fun bs hbs => (readsKey_of_peeks (peeks_MurmurHash3_x86_32 (by decide))).ext hbs
  have hx128 : ∀ bs, bs.length = 17 →
      MurmurHash3_x86_128 (.ext bs) 17 7 zinit = .ok (x86_128.hash.hash ⟨7, 7, 7, 7⟩ bs, zinit) :=
    fun bs hbs => (readsKey_of_peeks (peeks_MurmurHash3_x86_128 (by decide))).ext hbs
  have hx64 : ∀ seed, MurmurHash3_x64_128 (.ext [1, 2, 3]) 3 seed zinit =
      .ok (x64_128.hash.hash ⟨seed.setWidth 64, seed.setWidth 64⟩ [1, 2, 3], zinit) :=
    fun seed => (readsKey_of_peeks (peeks_MurmurHash3_x64_128 (by decide))).ext rfl
  refine ⟨⟨_, _, hx86 _ rfl, hx86 _ rfl, ?_⟩, ⟨_, _, hx128 _ rfl, hx128 _ rfl, ?_⟩, ⟨_, _, hx64 7, hx64 8, ?_⟩⟩
  · refine hashes_separate.1.keys (i := 1) (by decide) (hx86 _ rfl) (hx86 _ rfl) ?_ ⟨4, by decide, ?_⟩
    · simp only [charAt_ext]
      decide
    · simp only [charAt_ext]
      decide
  · refine hashes_separate.2.1.keys (i := 0) (by decide) (hx128 _ rfl) (hx128 _ rfl) ?_ ⟨0, by decide, ?_⟩
    · simp only [charAt_ext]
      decide
    · simp only [charAt_ext]
      decide
  · exact hashes_separate.2.2.seeds (by decide) (hx64 7) (hx64 8) (by decide)

theorem collisions_extend : CollidesBlockwise 4 MurmurHash3_x86_32 ∧
    CollidesBlockwise 16 MurmurHash3_x86_128 ∧ CollidesBlockwise 16 MurmurHash3_x64_128 := by
  refine ⟨?_, ?_, ?_⟩
  · refine collidesBlockwise_of_lossless (fun seed => seed) x86_32.lossless fun key len seed hlen => ?_
    exact readsKey_of_peeks (peeks_MurmurHash3_x86_32 hlen)
  · refine collidesBlockwise_of_lossless (fun seed => ⟨seed, seed, seed, seed⟩) x86_128.lossless
      fun key len seed hlen => ?_
    exact readsKey_of_peeks (peeks_MurmurHash3_x86_128 hlen)
  · refine collidesBlockwise_of_lossless (fun seed => ⟨seed.setWidth 64, seed.setWidth 64⟩) x64_128.lossless
      fun key len seed hlen => ?_
    exact readsKey_of_peeks (peeks_MurmurHash3_x64_128 hlen)

/-- Keys whose first eight bytes collide, and which collide with the ninth. -/
theorem collisions_extend_byte : ∃ out all,
    MurmurHash3_x86_32 (.ext [1, 2, 3, 4, 5, 6, 7, 8, 42]) 8 0 zinit = .ok (out, zinit) ∧
    MurmurHash3_x86_32 (.ext [9, 9, 9, 9, 111, 179, 212, 252, 42]) 8 0 zinit = .ok (out, zinit) ∧
    MurmurHash3_x86_32 (.ext [1, 2, 3, 4, 5, 6, 7, 8, 42]) 9 0 zinit = .ok (all, zinit) ∧
    MurmurHash3_x86_32 (.ext [9, 9, 9, 9, 111, 179, 212, 252, 42]) 9 0 zinit = .ok (all, zinit) := by
  have hfirst : ∀ bs, bs.length = 9 →
      MurmurHash3_x86_32 (.ext bs) 8 0 zinit = .ok (x86_32.hash.hash 0 (bs.take 8), zinit) := by
    intro bs hbs
    refine (readsKey_of_peeks (peeks_MurmurHash3_x86_32 (by decide)) _ _ _).mpr ⟨rfl, bs.take 8, ?_, ?_, rfl⟩
    · rw [List.length_take, hbs]
      rfl
    · intro j hj
      rw [charAt_ext]
      exact (List.getElem?_take_of_lt hj).symm
  have hall : ∀ bs, bs.length = 9 → MurmurHash3_x86_32 (.ext bs) 9 0 zinit = .ok (x86_32.hash.hash 0 bs, zinit) :=
    fun bs hbs => (readsKey_of_peeks (peeks_MurmurHash3_x86_32 (by decide))).ext hbs
  have h₁ := hfirst [1, 2, 3, 4, 5, 6, 7, 8, 42] rfl
  have h₂ := hfirst [9, 9, 9, 9, 111, 179, 212, 252, 42] rfl
  have h₃ := hall [1, 2, 3, 4, 5, 6, 7, 8, 42] rfl
  have h₄ := hall [9, 9, 9, 9, 111, 179, 212, 252, 42] rfl
  have hcollide : x86_32.hash.hash 0 ([1, 2, 3, 4, 5, 6, 7, 8, 42].take 8) =
      x86_32.hash.hash 0 ([9, 9, 9, 9, 111, 179, 212, 252, 42].take 8) := by decide +kernel
  have hextend := (collisions_extend.1 (n := 8) (by decide) (by decide) (by decide) ?_ h₁ h₂ h₃ h₄).mpr hcollide
  · exact ⟨_, _, h₁, hcollide ▸ h₂, h₃, hextend ▸ h₄⟩
  · simp only [charAt_ext]
    decide

end Keys

section Inverses

variable {bs xs ys : List Byte} {len seed target : BitVec 32} {s : State Globals} {i : ℕ}

theorem bijective_of_injective {w : ℕ} {f : BitVec w → BitVec w} (hf : Function.Injective f) :
    Function.Bijective f := by
  have : Finite (BitVec w) := Finite.of_equiv (Fin (2 ^ w)) BitVec.equivFin.toEquiv.symm
  exact Finite.injective_iff_bijective.mp hf

theorem existsUnique_run {x : BitVec 32 → M (BitVec 32)} {f : BitVec 32 → BitVec 32} (hf : Function.Injective f)
    (hx : ∀ a, x a s = .ok (f a, s)) (target : BitVec 32) : ∃! a, x a s = .ok (target, s) := by
  simpa only [hx, Except.ok.injEq, Prod.mk.injEq, and_true] using (bijective_of_injective hf).existsUnique target

theorem MurmurHash3_x86_32_ext (hlen : 0 ≤ len.toInt) (hbs : bs.length = len.toNat) :
    MurmurHash3_x86_32 (.ext bs) len seed s = .ok (x86_32.hash.hash seed bs, s) :=
  (readsKey_of_peeks (peeks_MurmurHash3_x86_32 hlen)).ext hbs

theorem getElem?_splice_ne {off j : ℕ} (h : off + ys.length ≤ xs.length) (hj : j < off ∨ off + ys.length ≤ j) :
    (splice xs off ys)[j]? = xs[j]? := by
  have htake : (xs.take off).length = off := List.length_take_of_le (by omega)
  rw [splice]
  rcases hj with hlt | hle
  · rw [List.append_assoc, List.getElem?_append_left (by omega), List.getElem?_take_of_lt hlt]
  · rw [List.getElem?_append_right (by rw [List.length_append]; omega), List.length_append, htake,
      List.getElem?_drop, Nat.add_sub_cancel' hle]

/-- The `i`-th block of a key replaced by the bytes of `k`. -/
def setBlock (bs : List Byte) (i : ℕ) (k : BitVec 32) : List Byte := splice bs (4 * i) (toLE 4 k.toNat)

theorem setBlock_length (k : BitVec 32) (hi : 4 * i + 4 ≤ bs.length) : (setBlock bs i k).length = bs.length :=
  splice_length (by rw [toLE_length]; exact hi)

theorem setBlock_agree (k k' : BitVec 32) (hi : 4 * i + 4 ≤ bs.length) :
    x86_32.hash.Agree i (setBlock bs i k) (setBlock bs i k') := by
  intro j hj
  have hout : j < 4 * i ∨ 4 * i + 4 ≤ j := by
    by_contra hin
    rw [not_or] at hin
    exact hj (Nat.div_eq_of_lt_le (by simp only [x86_32.hash]; omega) (by simp only [x86_32.hash]; omega))
  rw [setBlock, setBlock, getElem?_splice_ne (by rw [toLE_length]; exact hi) (by rw [toLE_length]; exact hout),
    getElem?_splice_ne (by rw [toLE_length]; exact hi) (by rw [toLE_length]; exact hout)]

theorem setBlock_injective : Function.Injective (setBlock bs i) := by
  intro k k' heq
  rw [setBlock, setBlock, splice, splice, toLE_length, toLE_length] at heq
  have hbytes := (List.append_inj (List.append_inj' heq rfl).1 rfl).2
  have hnat := congrArg ofLE hbytes
  rw [ofLE_toLE, ofLE_toLE] at hnat
  have hk := k.isLt
  have hk' := k'.isLt
  exact BitVec.eq_of_toNat_eq (by omega)

/-- Every 32-bit value is the hash of exactly one choice of any one block, and of exactly one seed:
preimages under `MurmurHash3_x86_32` are unique and always there. -/
theorem MurmurHash3_x86_32_bijective (bs : List Byte) (len : BitVec 32) (hlen : 0 ≤ len.toInt)
    (hbs : bs.length = len.toNat) (s : State Globals) (target : BitVec 32) :
    (∃! seed, MurmurHash3_x86_32 (.ext bs) len seed s = .ok (target, s)) ∧
      ∀ seed i, 4 * i + 4 ≤ bs.length →
        ∃! k, MurmurHash3_x86_32 (.ext (setBlock bs i k)) len seed s = .ok (target, s) := by
  refine ⟨?_, fun seed i hi => ?_⟩
  · exact existsUnique_run x86_32.lossless.hash_state (fun seed => MurmurHash3_x86_32_ext hlen hbs) target
  · refine existsUnique_run (fun k k' heq => ?_)
      (fun k => MurmurHash3_x86_32_ext hlen ((setBlock_length k hi).trans hbs)) target
    by_contra hne
    refine x86_32.lossless.hash_ne (by rw [setBlock_length k hi, setBlock_length k' hi]) (setBlock_agree k k' hi) ?_ heq
    exact fun hbytes => hne (setBlock_injective hbytes)

theorem MurmurHash3_x86_32_bijective_word :
    (∃! seed, MurmurHash3_x86_32 (.ext [1, 2, 3, 4]) 4 seed zinit = .ok (0, zinit)) ∧
    ∀ seed i, 4 * i + 4 ≤ [1, 2, 3, 4].length →
      ∃! k, MurmurHash3_x86_32 (.ext (setBlock [1, 2, 3, 4] i k)) 4 seed zinit = .ok (0, zinit) :=
  MurmurHash3_x86_32_bijective [1, 2, 3, 4] 4 (by decide) rfl zinit 0

end Inverses

section Strings

variable {s s' : State Globals} {t : CharPtr} {cs rest : List Byte} {out : Word} {len : BitVec 32}

/-- `commonHash` of a string. -/
def commonHashOf (cs : List Byte) : Word := (x64_128.hash.hash ⟨SEED.setWidth 64, SEED.setWidth 64⟩ cs).l2

theorem charAt_heap {m : Mem} {p : Addr} {off j : ℕ} {bs : List Byte} (h : Holds m p bs) :
    charAt m (.heap p off) j = (bs.drop off)[j]? := by
  have hlookup : m.lookup (p - PREFIX_SIZE) = some (wordBytes (BitVec.ofNat 64 bs.length) ++ bs) := h.block
  have hsum : 8 + (off : ℤ) + (j : ℤ) = ((8 + (off + j) : ℕ) : ℤ) := by push_cast; ring
  rw [charAt, hsum, if_neg (by simp only [h.ne_null, false_or]; omega), byteAt, if_neg h.base_ne_null, hlookup,
    Option.bind_some, Int.toNat_natCast, List.getElem?_append_right (by simp), wordBytes_length,
    Nat.add_sub_cancel_left, List.getElem?_drop]

/-- Bytes that a caller can read are the ones at the pointer. -/
theorem charAt_of_reads {m : Mem} {n j : ℕ} {bs : List Byte} (h : Reads m t n bs) (hj : j < n) :
    charAt m t j = bs[j]? := by
  cases t with
  | null => exact h.elim
  | ext bytes =>
    obtain ⟨-, rfl⟩ := h
    rw [charAt_ext, List.getElem?_take_of_lt hj]
  | heap p off =>
    obtain ⟨ds, hp, -, rfl⟩ := h
    rw [charAt_heap hp, slice, List.getElem?_take_of_lt hj]

theorem setWidth_ofNat_length (n : ℕ) : (BitVec.ofNat 64 n).setWidth 32 = BitVec.ofNat 32 n := by
  apply BitVec.eq_of_toNat_eq
  rw [BitVec.toNat_setWidth, BitVec.toNat_ofNat, BitVec.toNat_ofNat]
  omega

theorem commonHash_eq (ht : cstring t s = .ok (cs, s)) : commonHash t s =
    (MurmurHash3_x64_128 t (BitVec.ofNat 32 cs.length) SEED >>= fun out => return out.l2) s := by
  have hlen : strlen t s = .ok (BitVec.ofNat 64 cs.length, s) := wp.eq_ok (wp_strlen ht ⟨rfl, rfl⟩)
  rw [← setWidth_ofNat_length]
  show (strlen t s >>= fun r => _) = _
  rw [hlen]
  rfl

/-- The lengths of the strings in front of which `commonHash` reads nothing: the low 32 bits of them are
not the length of a negative number of whole blocks with a tail. -/
def ForwardLength (n : ℕ) : Prop := n % 2 ^ 32 < 2 ^ 31 ∨ n % 16 = 0 ∨ 2 ^ 32 - 16 < n % 2 ^ 32

/-- What `commonHash` makes of the length of a string, an `int`: only the low 32 bits of it count, and
when they are negative at most 15 bytes are hashed. -/
def textHash (cs : List Byte) : Word :=
  if cs.length % 2 ^ 32 < 2 ^ 31 then commonHashOf (cs.take (cs.length % 2 ^ 32))
  else (x64_128.finalization (BitVec.ofNat 32 cs.length) (x64_128.hash.rest
    ⟨SEED.setWidth 64, SEED.setWidth 64⟩ (cs.take (cs.length % 16)))).l2

theorem toInt_ofNat_32 (n : ℕ) : (BitVec.ofNat 32 n).toInt =
    if n % 2 ^ 32 < 2 ^ 31 then ((n % 2 ^ 32 : ℕ) : ℤ) else ((n % 2 ^ 32 : ℕ) : ℤ) - ((2 ^ 32 : ℕ) : ℤ) := by
  rw [BitVec.toInt_eq_toNat_cond, BitVec.toNat_ofNat]
  split <;> split <;> omega

theorem collect_of_reads {k : ℕ} (h : Reads s.mem t cs.length cs) (hk : k ≤ cs.length) :
    collect (charAt s.mem t) 0 k = some (cs.take k) := by
  refine collect_zero.mpr ⟨List.length_take_of_le hk, fun j hj => ?_⟩
  rw [charAt_of_reads h (Nat.lt_of_lt_of_le hj hk), List.getElem?_take_of_lt hj]

/-- Of a negative length the bytes that are read are those of the last, broken block. -/
theorem peeks_commonHash_neg (hneg : ¬ cs.length % 2 ^ 32 < 2 ^ 31) :
    Peeks (MurmurHash3_x64_128 t (BitVec.ofNat 32 cs.length) SEED >>= fun out => return out.l2) fun mem =>
      (collect (charAt mem t) (-(((2 ^ 32 - cs.length % 2 ^ 32) / 16 : ℕ) : ℤ) * 16) (cs.length % 16)).map
        fun bs => (x64_128.finalization (BitVec.ofNat 32 cs.length) (x64_128.hash.rest
          ⟨SEED.setWidth 64, SEED.setWidth 64⟩ bs)).l2 := by
  have hlen : (BitVec.ofNat 32 cs.length).toInt < 0 := by
    rw [toInt_ofNat_32, if_neg hneg]
    omega
  have hmod : cs.length % 2 ^ 32 % 16 = cs.length % 16 := Nat.mod_mod_of_dvd _ (by decide)
  have hpeeks := (@peeks_MurmurHash3_x64_128_neg t _ SEED hlen).map (g := x64_128.Lanes.l2)
  rw [tdiv_of_neg hlen, BitVec.toNat_ofNat, hmod] at hpeeks
  simpa only [Option.map_map, Function.comp_def] using hpeeks

/-- Equal strings hash equally, wherever they are stored and whatever is stored around them. -/
theorem commonHash_of_reads (ht : cstring t s = .ok (cs, s)) (hr : Reads s.mem t cs.length cs)
    (hn : ForwardLength cs.length) : commonHash t s = .ok (textHash cs, s) := by
  rw [commonHash_eq ht, textHash]
  by_cases hpos : cs.length % 2 ^ 32 < 2 ^ 31
  · have hlen : 0 ≤ (BitVec.ofNat 32 cs.length).toInt := by
      rw [toInt_ofNat_32, if_pos hpos]
      exact Int.natCast_nonneg _
    rw [if_pos hpos, (peeks_MurmurHash3_x64_128 hlen).map.ok_iff, BitVec.toNat_ofNat,
      collect_of_reads hr (Nat.mod_le _ _)]
    exact ⟨rfl, rfl⟩
  · have hsome : collect (charAt s.mem t) (-(((2 ^ 32 - cs.length % 2 ^ 32) / 16 : ℕ) : ℤ) * 16) (cs.length % 16) =
        some (cs.take (cs.length % 16)) := by
      rcases hn.resolve_left hpos with hzero | hnear
      · rw [hzero]
        rfl
      · rw [Nat.div_eq_of_lt (by omega)]
        exact collect_of_reads hr (Nat.mod_le _ _)
    rw [if_neg hpos, (peeks_commonHash_neg hpos).ok_iff, hsome]
    exact ⟨rfl, rfl⟩

/-- In front of a string of the caller there is nothing. -/
theorem collect_before {m : Mem} {i : ℤ} {k : ℕ} {bs : List Byte} (hi : i < 0) (hk : 0 < k) :
    collect (charAt m (.ext bs)) i k = none := by
  refine collect_eq_none.mpr ⟨0, hk, ?_⟩
  rw [charAt, if_neg (by simpa using hi)]

theorem commonHash_ub {bytes : List Byte} (ht : cstring (.ext bytes) s = .ok (cs, s)) (hn : ¬ ForwardLength cs.length) :
    commonHash (.ext bytes) s = .error .ub := by
  rw [ForwardLength, not_or, not_or] at hn
  obtain ⟨hpos, hmod, hnear⟩ := hn
  rw [commonHash_eq ht, (peeks_commonHash_neg hpos).error_iff, collect_before (by omega) (by omega)]
  rfl

theorem takeWhile_nul (h0 : 0 ∉ cs) : (cs ++ 0 :: rest).takeWhile (· ≠ 0) = cs := by
  rw [List.takeWhile_append_of_pos (fun c hc => by simpa using ne_of_mem_of_not_mem hc h0),
    List.takeWhile_cons_of_neg (by simp), List.append_nil]

theorem cstring_ext (h0 : 0 ∉ cs) : cstring (.ext (cs ++ 0 :: rest)) s = .ok (cs, s) := by
  apply wp.eq_ok
  rw [cstring, wp_bind, restChars, wp_pure, if_pos (by simp), wp_pure, takeWhile_nul h0]
  exact ⟨rfl, rfl⟩

/-- The C string that an sds string holds, up to its first NUL. -/
theorem cstring_sds {p : Addr} {b : Buf} (h : StrAt s.mem p b) (hb : b.chars = cs ++ 0 :: rest) (h0 : 0 ∉ cs) :
    cstring (sdsPtr p) s = .ok (cs, s) := by
  have hdrop : b.bytes.drop sdshdr.buf = cs ++ 0 :: rest := by
    rw [Buf.bytes, ← List.append_assoc, hb]
    exact List.drop_left' (by simp)
  refine wp.eq_ok ((wp_cstring_heap h ?_).mpr ?_)
  · rw [hdrop]
    simp
  · rw [hdrop, takeWhile_nul h0]
    exact ⟨rfl, rfl⟩

/-- What `commonHash` does with a string that begins its object, for every length: it hashes what is left
of the length in an `int`, or reads bytes in front of the string. -/
theorem commonHash_by_length (cs rest : List Byte) (h0 : 0 ∉ cs) (s : State Globals) :
    commonHash (.ext (cs ++ 0 :: rest)) s =
      if cs.length % 2 ^ 32 < 2 ^ 31 then .ok (commonHashOf (cs.take (cs.length % 2 ^ 32)), s)
      else if cs.length % 16 = 0 ∨ 2 ^ 32 - 16 < cs.length % 2 ^ 32 then
        .ok ((x64_128.finalization (BitVec.ofNat 32 cs.length) (x64_128.hash.rest
          ⟨SEED.setWidth 64, SEED.setWidth 64⟩ (cs.take (cs.length % 16)))).l2, s)
      else .error .ub := by
  have hreads : Reads s.mem (.ext (cs ++ 0 :: rest)) cs.length cs :=
    ⟨by rw [List.length_append]; omega, List.take_left.symm⟩
  have hhash := commonHash_of_reads (cstring_ext h0) hreads
  rw [textHash] at hhash
  by_cases hpos : cs.length % 2 ^ 32 < 2 ^ 31
  · rw [if_pos hpos] at hhash ⊢
    exact hhash (Or.inl hpos)
  · rw [if_neg hpos] at hhash ⊢
    by_cases hor : cs.length % 16 = 0 ∨ 2 ^ 32 - 16 < cs.length % 2 ^ 32
    · rw [if_pos hor]
      exact hhash (Or.inr hor)
    · rw [if_neg hor]
      exact commonHash_ub (cstring_ext h0) (not_or.mpr ⟨hpos, hor⟩)

theorem commonHash_by_length_key : commonHash (.ext ([107, 101, 121] ++ 0 :: [])) zinit =
    .ok (commonHashOf [107, 101, 121], zinit) :=
  (commonHash_by_length [107, 101, 121] [] (by decide) zinit).trans (if_pos (by decide))

end Strings

end Redis
