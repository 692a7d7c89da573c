import Mathlib.Data.List.Basic
import Mathlib.Tactic

/-! Bytes of a block and the 64-bit words stored in them. Words are little
endian. A load is a `slice` of the block, a store a `splice` into it; the two
lemmas on `words` say that a block of words behaves as the list of its words. -/

namespace CMem

abbrev Byte := UInt8
abbrev Word := BitVec 64

/-- The low `k` bytes of `n`, least significant first. -/
def toLE : ℕ → ℕ → List Byte
  | 0, _ => []
  | k + 1, n => UInt8.ofNat n :: toLE k (n / 256)

def ofLE : List Byte → ℕ
  | [] => 0
  | b :: bs => b.toNat + 256 * ofLE bs

@[simp] theorem toLE_length (k n : ℕ) : (toLE k n).length = k := by
  induction k generalizing n with
  | zero => rfl
  | succ k ih => simp [toLE, ih]

theorem ofLE_toLE (k n : ℕ) : ofLE (toLE k n) = n % 256 ^ k := by
  induction k generalizing n with
  | zero => simp [toLE, ofLE, Nat.mod_one]
  | succ k ih =>
    simp only [toLE, ofLE, ih, UInt8.toNat_ofNat']
    exact (pow_succ' 256 k ▸ Nat.mod_mul (a := 256)).symm

theorem ofLE_lt (bs : List Byte) : ofLE bs < 256 ^ bs.length := by
  induction bs with
  | nil => simp [ofLE]
  | cons b bs ih =>
    have hb := b.toNat_lt
    simp only [ofLE, List.length_cons, pow_succ]
    omega

theorem toLE_ofLE (bs : List Byte) : toLE bs.length (ofLE bs) = bs := by
  induction bs with
  | nil => rfl
  | cons b bs ih =>
    have hb := b.toNat_lt
    have hdiv : (b.toNat + 256 * ofLE bs) / 256 = ofLE bs := by omega
    simp only [List.length_cons, toLE, ofLE, hdiv, ih, List.cons.injEq, and_true]
    apply UInt8.toNat_inj.mp
    rw [UInt8.toNat_ofNat']
    omega

def wordBytes (w : Word) : List Byte := toLE 8 w.toNat
def bytesWord (bs : List Byte) : Word := BitVec.ofNat 64 (ofLE bs)

@[simp] theorem wordBytes_length (w : Word) : (wordBytes w).length = 8 := toLE_length 8 _

@[simp] theorem bytesWord_wordBytes (w : Word) : bytesWord (wordBytes w) = w := by
  apply BitVec.eq_of_toNat_eq
  rw [bytesWord, wordBytes, ofLE_toLE, BitVec.toNat_ofNat]
  have := w.isLt
  omega

theorem wordBytes_bytesWord {bs : List Byte} (h : bs.length = 8) : wordBytes (bytesWord bs) = bs := by
  have hlt := ofLE_lt bs
  rw [h] at hlt
  rw [wordBytes, bytesWord, BitVec.toNat_ofNat, Nat.mod_eq_of_lt (by omega), ← h, toLE_ofLE]

section Slices

variable {α : Type*} {xs ys zs : List α} {off n : ℕ}

def slice (xs : List α) (off n : ℕ) : List α := (xs.drop off).take n

/-- `xs` with `ys` written over it from `off` on. -/
def splice (xs : List α) (off : ℕ) (ys : List α) : List α :=
  xs.take off ++ ys ++ xs.drop (off + ys.length)

theorem slice_length (h : off + n ≤ xs.length) : (slice xs off n).length = n := by
  simp only [slice, List.length_take, List.length_drop]
  omega

theorem splice_length (h : off + ys.length ≤ xs.length) : (splice xs off ys).length = xs.length := by
  simp only [splice, List.length_append, List.length_take, List.length_drop]
  omega

theorem slice_append_left (h : off + n ≤ xs.length) : slice (xs ++ ys) off n = slice xs off n := by
  rw [slice, List.drop_append_of_le_length (by omega), List.take_append_of_le_length
    (by rw [List.length_drop]; omega), slice]

theorem slice_append_right (h : xs.length ≤ off) :
    slice (xs ++ ys) off n = slice ys (off - xs.length) n := by
  rw [slice, List.drop_append, List.drop_eq_nil_of_le h, List.nil_append, slice]

theorem slice_take {k : ℕ} (h : off + n ≤ k) : slice (xs.take k) off n = slice xs off n := by
  rw [slice, List.drop_take, List.take_take, Nat.min_eq_left (by omega), slice]

theorem slice_zero : slice xs 0 n = xs.take n := rfl

@[simp] theorem slice_self : slice xs 0 xs.length = xs := List.take_length

@[simp] theorem slice_none : slice xs off 0 = [] := List.take_zero

theorem splice_append_left (h : off + zs.length ≤ xs.length) :
    splice (xs ++ ys) off zs = splice xs off zs ++ ys := by
  rw [splice, List.take_append_of_le_length (by omega), List.drop_append_of_le_length h, splice]
  simp only [List.append_assoc]

theorem splice_append_right (h : xs.length ≤ off) :
    splice (xs ++ ys) off zs = xs ++ splice ys (off - xs.length) zs := by
  rw [splice, List.take_append, List.take_of_length_le h, List.drop_append,
    List.drop_eq_nil_of_le (by omega), splice,
    show off + zs.length - xs.length = off - xs.length + zs.length by omega]
  simp

theorem splice_zero : splice xs 0 ys = ys ++ xs.drop ys.length := by simp [splice]

@[simp] theorem splice_nil : splice xs off [] = xs := by simp [splice]

theorem splice_self (h : ys.length = xs.length) : splice xs 0 ys = ys := by
  rw [splice_zero, h, List.drop_length, List.append_nil]

theorem splice_singleton {y : α} (h : n < xs.length) : splice xs n [y] = xs.set n y := by
  rw [splice, List.set_eq_take_append_cons_drop, if_pos h, List.append_assoc]
  rfl

theorem slice_singleton (h : n < xs.length) : slice xs n 1 = [xs[n]] := by
  rw [slice, List.drop_eq_getElem_cons h]
  rfl

/-- Writing one more element behind what was just written. -/
theorem splice_splice_cons {y : α} (h : off + ys.length < xs.length) :
    splice (splice xs off ys) (off + ys.length) [y] =
      xs.take off ++ (ys ++ y :: xs.drop (off + ys.length + 1)) := by
  have hlen : (xs.take off ++ ys).length = off + ys.length := by
    rw [List.length_append, List.length_take_of_le (by omega)]
  have hsplice : splice xs off ys = xs.take off ++ ys ++ xs.drop (off + ys.length) := rfl
  rw [hsplice, splice_append_right (le_of_eq hlen), hlen, Nat.sub_self, splice_zero, List.drop_drop,
    List.append_assoc]
  rfl

/-- Writing over the front of a slice and putting the slice back. -/
theorem splice_slice (hn : off + n ≤ xs.length) (hy : ys.length ≤ n) :
    splice xs off (splice (slice xs off n) 0 ys) = splice xs off ys := by
  have hlen : (ys ++ ((xs.drop off).take n).drop ys.length).length = n := by
    simp only [List.length_append, List.length_drop, List.length_take]
    omega
  have hdrop : xs.drop (off + n) = ((xs.drop off).drop ys.length).drop (n - ys.length) := by
    rw [List.drop_drop, List.drop_drop, Nat.add_sub_cancel' hy]
  rw [splice_zero, slice, splice, hlen, List.drop_take, hdrop, splice]
  simp only [List.append_assoc, List.take_append_drop]
  rw [List.drop_drop]

end Slices

/-- The bytes of consecutive words. -/
def words (ws : List Word) : List Byte := ws.flatMap wordBytes

@[simp] theorem words_nil : words [] = [] := rfl

@[simp] theorem words_cons (w : Word) (ws : List Word) : words (w :: ws) = wordBytes w ++ words ws := rfl

@[simp] theorem words_length (ws : List Word) : (words ws).length = 8 * ws.length := by
  induction ws with
  | nil => rfl
  | cons w ws ih => simp [ih]; omega

theorem slice_words {ws : List Word} {i : ℕ} (hi : i < ws.length) :
    slice (words ws) (8 * i) 8 = wordBytes ws[i] := by
  induction ws generalizing i with
  | nil => simp at hi
  | cons w ws ih =>
    cases i with
    | zero =>
      rw [words_cons, slice_append_left (by simp)]
      simpa using @slice_self _ (wordBytes w)
    | succ i =>
      rw [words_cons, slice_append_right (by rw [wordBytes_length]; omega), wordBytes_length,
        show 8 * (i + 1) - 8 = 8 * i by omega, ih (by simpa using hi), List.getElem_cons_succ]

theorem slice_words_iff {ws : List Word} {i : ℕ} {w : Word} :
    slice (words ws) (8 * i) 8 = wordBytes w ↔ ws[i]? = some w := by
  by_cases hi : i < ws.length
  · rw [slice_words hi, List.getElem?_eq_getElem hi, Option.some.injEq]
    refine ⟨fun heq => ?_, fun heq => by rw [heq]⟩
    rw [← bytesWord_wordBytes ws[i], heq, bytesWord_wordBytes]
  · rw [List.getElem?_eq_none (Nat.le_of_not_lt hi), slice,
      List.drop_eq_nil_of_le (by rw [words_length]; omega), List.take_nil]
    refine ⟨fun heq => ?_, fun heq => absurd heq (by simp)⟩
    have hlen := congrArg List.length heq
    rw [wordBytes_length] at hlen
    exact absurd hlen (by simp)

theorem splice_words (ws : List Word) {i : ℕ} (hi : i < ws.length) (w : Word) :
    splice (words ws) (8 * i) (wordBytes w) = words (ws.set i w) := by
  induction ws generalizing i with
  | nil => simp at hi
  | cons v ws ih =>
    cases i with
    | zero =>
      rw [words_cons, splice_append_left (by simp), Nat.mul_zero, splice_self (by simp)]
      rfl
    | succ i =>
      rw [words_cons, splice_append_right (by rw [wordBytes_length]; omega), wordBytes_length,
        show 8 * (i + 1) - 8 = 8 * i by omega, ih (by simpa using hi)]
      rfl

/-- A block whose length is a multiple of eight is a block of words. -/
theorem exists_words {k : ℕ} {bs : List Byte} (h : bs.length = 8 * k) :
    ∃ ws : List Word, ws.length = k ∧ bs = words ws := by
  induction k generalizing bs with
  | zero => exact ⟨[], rfl, List.length_eq_zero_iff.mp h⟩
  | succ k ih =>
    obtain ⟨ws, hlen, hws⟩ := @ih (bs.drop 8) (by rw [List.length_drop]; omega)
    refine ⟨bytesWord (bs.take 8) :: ws, by simp [hlen], ?_⟩
    rw [words_cons, wordBytes_bytesWord (by rw [List.length_take]; omega), ← hws, List.take_append_drop]

section Order

variable {α : Type*} [LT α] {xs ys us vs : List α}

/-- What comes first decides. -/
theorem append_lt_append_iff (h : xs.length = ys.length) :
    xs ++ us < ys ++ vs ↔ xs < ys ∨ xs = ys ∧ us < vs := by
  induction xs generalizing ys with
  | nil =>
    obtain rfl := List.length_eq_zero_iff.mp h.symm
    simp
  | cons x xs ih =>
    rcases ys with - | ⟨y, ys⟩
    · simp at h
    · simp only [List.cons_append, List.cons_lt_cons_iff, ih (by simpa using h), List.cons.injEq]
      tauto

theorem nil_lt_iff : ([] : List α) < us ↔ us ≠ [] := by
  cases us with
  | nil => simp
  | cons u us => simp [List.nil_lt_cons]

end Order

end CMem
