import RedisPlayground.Spec.Zmalloc
import Mathlib.Data.BitVec

/-! What `zmalloc.cc` gives its callers: `Holds m p bs` says that `p` points to a
zmalloc'ed block with contents `bs`. The rules run the allocator and the accesses
behind its pointers on such blocks; every one leaves the other blocks alone. -/

namespace Redis

open CMem

variable {m m' : Mem} {p q : Addr} {bs cs xs : List Byte} {ws : List Word}

/-- The whole block behind a pointer, size header included. -/
def block (m : Mem) (p : Addr) : Option (List Byte) := m.lookup (p - PREFIX_SIZE)

structure Holds (m : Mem) (p : Addr) (bs : List Byte) : Prop where
  block : block m p = some (wordBytes (BitVec.ofNat 64 bs.length) ++ bs)
  ne_null : p ≠ NULL
  base_ne_null : p - PREFIX_SIZE ≠ NULL
  fits : bs.length + 8 < 2 ^ 64

/-- A pointer `zmalloc` may return. -/
structure Fresh (m : Mem) (p : Addr) : Prop where
  block : block m p = none
  ne_null : p ≠ NULL
  base_ne_null : p - PREFIX_SIZE ≠ NULL

def put (m : Mem) (p : Addr) (bs : List Byte) : Mem :=
  m.insert (p - PREFIX_SIZE) (wordBytes (BitVec.ofNat 64 bs.length) ++ bs)

def del (m : Mem) (p : Addr) : Mem := m.erase (p - PREFIX_SIZE)

theorem base_inj : p - PREFIX_SIZE = q - PREFIX_SIZE ↔ p = q := sub_left_inj

theorem block_put_self : block (put m p bs) p = some (wordBytes (BitVec.ofNat 64 bs.length) ++ bs) :=
  Finmap.lookup_insert _

theorem block_put_ne (h : q ≠ p) : block (put m p bs) q = block m q :=
  Finmap.lookup_insert_of_ne _ fun heq => h (base_inj.mp heq)

theorem block_del_self : block (del m p) p = none := Finmap.lookup_erase _ _

theorem block_del_ne (h : q ≠ p) : block (del m p) q = block m q :=
  Finmap.lookup_erase_ne fun heq => h (base_inj.mp heq)

/-- Memories are the same when the blocks behind all pointers are. -/
theorem mem_ext (h : ∀ p, block m p = block m' p) : m = m' := by
  refine Finmap.ext_lookup fun b => ?_
  have hb := h (b + PREFIX_SIZE)
  rwa [block, block, add_sub_cancel_right] at hb

theorem mem_of_block (h : block m p = some bs) : p - PREFIX_SIZE ∈ m := Finmap.mem_of_lookup_eq_some h

theorem block_none : block m p = none ↔ p - PREFIX_SIZE ∉ m := Finmap.lookup_eq_none

theorem Holds.congr (h : Holds m p bs) (heq : Redis.block m' p = Redis.block m p) : Holds m' p bs :=
  ⟨heq.trans h.block, h.ne_null, h.base_ne_null, h.fits⟩

theorem Holds.put_ne (h : Holds m q bs) (hne : q ≠ p) : Holds (put m p cs) q bs :=
  h.congr (block_put_ne hne)

theorem Holds.del_ne (h : Holds m q bs) (hne : q ≠ p) : Holds (del m p) q bs :=
  h.congr (block_del_ne hne)

theorem Holds.put (h : Holds m p bs) (hlen : xs.length = bs.length) : Holds (put m p xs) p xs :=
  ⟨block_put_self, h.ne_null, h.base_ne_null, hlen ▸ h.fits⟩

theorem Holds.put_words {vs : List Word} (h : Holds m p (words ws)) (hlen : vs.length = ws.length) :
    Holds (Redis.put m p (words vs)) p (words vs) :=
  h.put (by rw [words_length, words_length, hlen])

theorem Holds.unique (h : Holds m p bs) (h' : Holds m p cs) : bs = cs := by
  have heq := h.block.symm.trans h'.block
  exact (List.append_inj (Option.some.inj heq) (by simp)).2

theorem words_inj {ws vs : List Word} (h : words ws = words vs) : ws = vs := by
  have hlen := congrArg List.length h
  simp only [words_length] at hlen
  induction ws generalizing vs with
  | nil => exact (List.length_eq_zero_iff.mp (by simpa using hlen.symm)).symm
  | cons w ws ih =>
    cases vs with
    | nil => simp at hlen
    | cons v vs =>
      obtain ⟨hw, hws⟩ := List.append_inj h (by simp)
      rw [ih hws (by simpa using hlen), ← bytesWord_wordBytes w, hw, bytesWord_wordBytes]

theorem Holds.words_unique {ws vs : List Word} (h : Holds m p (words ws)) (h' : Holds m p (words vs)) :
    ws = vs := words_inj (h.unique h')

theorem Fresh.put (h : Fresh m p) (hfits : bs.length + 8 < 2 ^ 64) : Holds (put m p bs) p bs :=
  ⟨block_put_self, h.ne_null, h.base_ne_null, hfits⟩

theorem Holds.live (h : Holds m p bs) : Redis.block m p ≠ none := by
  rw [h.block]
  exact Option.some_ne_none _

/-- What is new is not among what is live. -/
theorem ne_of_live (hp : block m p = none) (hq : ∃ bs, Holds m q bs) : q ≠ p := by
  rintro rfl
  obtain ⟨bs, hbs⟩ := hq
  exact hbs.live hp

/-- There are as many live blocks as different pointers to them. -/
theorem length_le_card {ps : List Addr} (hn : ps.Nodup) (hlive : ∀ p ∈ ps, block m p ≠ none) :
    ps.length ≤ m.keys.card := by
  have hbase : (ps.map fun p => p - PREFIX_SIZE).Nodup := hn.map fun p q heq => base_inj.mp heq
  have hsub : (ps.map fun p => p - PREFIX_SIZE).toFinset ⊆ m.keys := by
    intro b hb
    obtain ⟨p, hp, rfl⟩ := List.mem_map.mp (List.mem_toFinset.mp hb)
    obtain ⟨bs, hbs⟩ := Option.ne_none_iff_exists'.mp (hlive p hp)
    exact Finmap.mem_keys.mpr (mem_of_block hbs)
  have hcard := Finset.card_le_card hsub
  rwa [List.toFinset_card_of_nodup hbase, List.length_map] at hcard

theorem Fresh.ne (h : Fresh m p) (hq : Holds m q bs) : q ≠ p := ne_of_live h.block ⟨bs, hq⟩

/-- What is live in `m` is the same in `m'`. -/
def Extends (m m' : Mem) : Prop := ∀ q, block m q ≠ none → block m' q = block m q

theorem Extends.holds (h : Extends m m') (hp : Holds m p bs) : Holds m' p bs := hp.congr (h p hp.live)

section Rules

variable {E : Stop → Prop} {s : State Globals} {i off n : ℕ} {w : Word} {L : Libc}

/-- What stands in front of the contents is not reached by an access behind `p`. -/
theorem slice_block : slice (wordBytes w ++ bs) (8 + off) n = slice bs off n := by
  rw [slice_append_right (by simp), wordBytes_length, Nat.add_sub_cancel_left]

theorem splice_block : splice (wordBytes w ++ bs) (8 + off) xs = wordBytes w ++ splice bs off xs := by
  rw [splice_append_right (by simp), wordBytes_length, Nat.add_sub_cancel_left]

theorem wp_getBytes {Q : List Byte → State Globals → Prop} (h : Holds s.mem p bs)
    (hn : off + n ≤ bs.length) : wp E (getBytes p off n) Q s ↔ Q (slice bs off n) s := by
  rw [getBytes, if_neg h.ne_null,
    wp_readAt h.base_ne_null h.block (by rw [List.length_append, wordBytes_length]; omega), slice_block]

theorem wp_setBytes {Q : Unit → State Globals → Prop} (h : Holds s.mem p bs)
    (hn : off + xs.length ≤ bs.length) :
    wp E (setBytes p off xs) Q s ↔ Q () { s with mem := put s.mem p (splice bs off xs) } := by
  rw [setBytes, if_neg h.ne_null,
    wp_writeAt h.base_ne_null h.block (by rw [List.length_append, wordBytes_length]; omega),
    splice_block, put, splice_length hn]

theorem readOnly_getBytes (off : ℕ) : ReadOnly (getBytes p off n) :=
  (readOnly_stop _).ite (readOnly_readAt _ _ _)

theorem readOnly_getField : ReadOnly (getField p i) :=
  (readOnly_getBytes _).bind fun _ => readOnly_pure _

/-- The rules for a reader that accepts undefined behaviour. -/
theorem wp_getBytes_of {Q : List Byte → State Globals → Prop} (hE : E .ub) (h : Holds s.mem p bs)
    (hQ : off + n ≤ bs.length → Q (slice bs off n) s) : wp E (getBytes p off n) Q s := by
  rw [getBytes, if_neg h.ne_null]
  refine wp_readAt_of hE fun cs _ hcs hn => ?_
  obtain rfl := Option.some.inj (hcs.symm.trans h.block)
  rw [List.length_append, wordBytes_length] at hn
  rw [slice_block]
  exact hQ (by omega)

/-- Nothing is read through a pointer to no block. -/
theorem wp_getBytes_dead {Q : List Byte → State Globals → Prop} (hE : E .ub) (h : block s.mem p = none) :
    wp E (getBytes p off n) Q s := by
  rw [getBytes, wp_ite]
  refine ⟨fun _ => hE, fun _ => wp_readAt_of hE fun bs _ hbs _ => ?_⟩
  exact absurd (hbs.symm.trans h) (Option.some_ne_none bs)

theorem wp_setBytes_of {Q : Unit → State Globals → Prop} (hE : E .ub) (h : Holds s.mem p bs)
    (hQ : off + xs.length ≤ bs.length →
      Q () { s with mem := put s.mem p (splice bs off xs) }) : wp E (setBytes p off xs) Q s := by
  by_cases hn : off + xs.length ≤ bs.length
  · exact (wp_setBytes h hn).mpr (hQ hn)
  · rw [setBytes, if_neg h.ne_null]
    refine wp_writeAt_of hE fun cs _ hcs hn' => absurd ?_ hn
    obtain rfl := Option.some.inj (hcs.symm.trans h.block)
    rw [List.length_append, wordBytes_length] at hn'
    omega

theorem wp_getField {Q : Word → State Globals → Prop} (h : Holds s.mem p (words ws))
    (hw : ws[i]? = some w) : wp E (getField p i) Q s ↔ Q w s := by
  obtain ⟨hi, hget⟩ := List.getElem?_eq_some_iff.mp hw
  rw [getField, wp_bind, wp_getBytes h (by rw [words_length]; omega), slice_words hi, hget, wp_pure,
    bytesWord_wordBytes]

theorem getField_ok (h : Holds s.mem p (words ws)) (hw : ws[i]? = some w) :
    getField p i s = .ok (w, s) := wp.eq_ok ((wp_getField h hw).mpr ⟨rfl, rfl⟩)

theorem getField_iff (h : Holds s.mem p (words ws)) : getField p i s = .ok (w, s) ↔ ws[i]? = some w := by
  refine ⟨fun hok => ?_, getField_ok h⟩
  have hwp : wp Any (getField p i) (fun v _ => ws[i]? = some v) s := by
    rw [getField, wp_bind]
    refine wp_getBytes_of trivial h fun hn => wp_pure.mpr ?_
    have hi : i < ws.length := by
      rw [words_length] at hn
      omega
    rw [slice_words hi, bytesWord_wordBytes, List.getElem?_eq_getElem hi]
  exact hwp.of_ok hok

theorem wp_getField_null {Q : Word → State Globals → Prop} : wp E (getField NULL i) Q s ↔ E .ub := by
  rw [getField, wp_bind, getBytes, if_pos rfl, wp_stop]

theorem wp_setField {Q : Unit → State Globals → Prop} (h : Holds s.mem p (words ws))
    (hi : i < ws.length) :
    wp E (setField p i w) Q s ↔ Q () { s with mem := put s.mem p (words (ws.set i w)) } := by
  rw [setField, wp_setBytes h (by rw [words_length, wordBytes_length]; omega), splice_words ws hi]

theorem ofLE_take_wordBytes (w : Word) : BitVec.ofNat 32 (ofLE ((wordBytes w).take 4)) = w.setWidth 32 := by
  have htake : (wordBytes w).take 4 = toLE 4 w.toNat := by simp [wordBytes, toLE]
  apply BitVec.eq_of_toNat_eq
  rw [htake, ofLE_toLE, BitVec.toNat_ofNat, BitVec.toNat_setWidth]
  omega

theorem wp_getInt {Q : BitVec 32 → State Globals → Prop} (h : Holds s.mem p (words ws))
    (hw : ws[i]? = some w) : wp E (getInt p i) Q s ↔ Q (w.setWidth 32) s := by
  obtain ⟨hi, hget⟩ := List.getElem?_eq_some_iff.mp hw
  have hslice : slice (words ws) (8 * i) 4 = (wordBytes w).take 4 := by
    rw [← hget, ← slice_words hi, slice, slice, List.take_take]
    rfl
  rw [getInt, wp_bind, wp_getBytes h (by rw [words_length]; omega), hslice, wp_pure, ofLE_take_wordBytes]

/-- Storing an `int` leaves some word with that `int` in its low half. -/
theorem wp_setInt {Q : Unit → State Globals → Prop} {k : BitVec 32} (h : Holds s.mem p (words ws))
    (hi : i < ws.length)
    (hQ : ∀ w : Word, w.setWidth 32 = k → Q () { s with mem := put s.mem p (words (ws.set i w)) }) :
    wp E (setInt p i k) Q s := by
  have hlen : (splice (wordBytes ws[i]) 0 (toLE 4 k.toNat)).length = 8 := by
    rw [splice_length (by simp), wordBytes_length]
  have hsplice : splice (words ws) (8 * i) (toLE 4 k.toNat) =
      words (ws.set i (bytesWord (splice (wordBytes ws[i]) 0 (toLE 4 k.toNat)))) := by
    rw [← splice_words ws hi, wordBytes_bytesWord hlen, ← slice_words hi,
      splice_slice (by rw [words_length]; omega) (by simp)]
  rw [setInt, wp_setBytes h (by rw [words_length, toLE_length]; omega), hsplice]
  apply hQ
  rw [← ofLE_take_wordBytes, wordBytes_bytesWord hlen, splice_zero, List.take_left' (by simp),
    ofLE_toLE]
  apply BitVec.eq_of_toNat_eq
  have := k.isLt
  rw [BitVec.toNat_ofNat]
  omega

theorem wp_zmalloc_refuse {size : Word} {Q : Addr → State Globals → Prop}
    (hE : L.malloc s.trace s.mem (size + PREFIX_SIZE) = none → E .abort) (hsize : size.toNat + 8 < 2 ^ 64)
    (hQ : ∀ p raw, L.malloc s.trace s.mem (size + PREFIX_SIZE) = some (p - PREFIX_SIZE, raw) →
      raw.length = 8 + size.toNat → Fresh s.mem p →
      Q p { mem := put s.mem p (raw.drop 8),
            glob := { used_memory := s.glob.used_memory + (size + PREFIX_SIZE) },
            trace := .malloc (size + PREFIX_SIZE) (p - PREFIX_SIZE) :: s.trace }) :
    wp E (zmalloc L size) Q s := by
  have hlen : (size + PREFIX_SIZE).toNat = 8 + size.toNat := by
    rw [BitVec.toNat_add]
    change (size.toNat + 8) % _ = _
    omega
  rw [zmalloc, wp_bind]
  refine wp_malloc (fun hb => ?_) fun b raw hb => ?_
  · rw [if_pos rfl]
    exact hE hb
  obtain ⟨hfresh, hraw, hnull, hend⟩ := L.malloc_spec hb
  rw [hlen] at hraw hend
  have hp : b + PREFIX_SIZE - PREFIX_SIZE = b := add_sub_cancel_right _ _
  have hp0 : b + PREFIX_SIZE ≠ NULL := by
    intro h0
    have := congrArg BitVec.toNat h0
    rw [BitVec.toNat_add] at this
    change (b.toNat + 8) % _ = 0 at this
    omega
  have hwrite : splice raw 0 (wordBytes size) =
      wordBytes (BitVec.ofNat 64 (raw.drop 8).length) ++ raw.drop 8 := by
    rw [splice_zero, wordBytes_length, List.length_drop, hraw, Nat.add_sub_cancel_left,
      BitVec.ofNat_toNat, BitVec.setWidth_eq]
  have hQ' := hQ (b + PREFIX_SIZE) raw (by rw [hp]; exact hb) hraw
    ⟨by rw [block_none, hp]; exact hfresh, hp0, by rwa [hp]⟩
  rw [put, hp] at hQ'
  rw [if_neg hnull, wp_bind, writeWord, wp_writeAt hnull (Finmap.lookup_insert _) (by rw [wordBytes_length]; omega),
    wp_bind, increment_used_memory, wp_modify, wp_pure, hwrite]
  simpa only [Finmap.insert_insert] using hQ'

theorem wp_zmalloc {size : Word} {Q : Addr → State Globals → Prop} (hE : E .abort)
    (hsize : size.toNat + 8 < 2 ^ 64)
    (hQ : ∀ p raw, L.malloc s.trace s.mem (size + PREFIX_SIZE) = some (p - PREFIX_SIZE, raw) →
      raw.length = 8 + size.toNat → Fresh s.mem p →
      Q p { mem := put s.mem p (raw.drop 8),
            glob := { used_memory := s.glob.used_memory + (size + PREFIX_SIZE) },
            trace := .malloc (size + PREFIX_SIZE) (p - PREFIX_SIZE) :: s.trace }) :
    wp E (zmalloc L size) Q s := wp_zmalloc_refuse (fun _ => hE) hsize hQ

/-- A block of `n` bytes behind a size header lies inside the address space. -/
structure Placed (L : Libc) (p : Addr) (n : ℕ) : Prop where
  lt : (p - PREFIX_SIZE).toNat + (8 + n) < 2 ^ 64
  bounded : L.Bounded → n < 2 ^ 63

theorem wp_zremalloc_answer {size : Word} {Q : Addr → State Globals → Prop}
    (hE : L.realloc s.trace s.mem (p - PREFIX_SIZE) (size + PREFIX_SIZE) = none → E .abort)
    (h : Holds s.mem p bs) (hsize : size.toNat + 8 < 2 ^ 64)
    (hQ : ∀ r raw cs, L.realloc s.trace s.mem (p - PREFIX_SIZE) (size + PREFIX_SIZE) = some (r - PREFIX_SIZE, raw) →
      cs.length = size.toNat → cs.take bs.length = bs.take size.toNat →
      Placed L r size.toNat → Fresh (del s.mem p) r →
      Q r { mem := put (del s.mem p) r cs,
            glob := { used_memory :=
              s.glob.used_memory - BitVec.ofNat 64 bs.length + size },
            trace := .realloc (p - PREFIX_SIZE) (size + PREFIX_SIZE) (r - PREFIX_SIZE) :: s.trace }) :
    wp E (zremalloc L p size) Q s := by
  have hlen : (size + PREFIX_SIZE).toNat = 8 + size.toNat := by
    rw [BitVec.toNat_add]
    change (size.toNat + 8) % _ = _
    omega
  have hold : slice (wordBytes (BitVec.ofNat 64 bs.length) ++ bs) 0 8 =
      wordBytes (BitVec.ofNat 64 bs.length) := by
    rw [slice_zero, List.take_left' (by simp)]
  rw [zremalloc, if_neg h.ne_null, wp_bind, readWord, wp_bind, wp_readAt h.base_ne_null h.block (by simp), wp_pure,
    hold, bytesWord_wordBytes, wp_bind]
  refine wp_realloc h.base_ne_null (mem_of_block h.block) (fun hb => ?_) fun b raw hb => ?_
  · rw [if_pos rfl]
    exact hE hb
  obtain ⟨hfresh, hraw, hkeep, hnull, hend⟩ := L.realloc_spec h.block hb
  have hbound : L.Bounded → size.toNat < 2 ^ 63 := by
    intro hL
    have hlt := hL.realloc hb
    omega
  rw [hlen] at hraw hend
  have hp : b + PREFIX_SIZE - PREFIX_SIZE = b := add_sub_cancel_right _ _
  have hp0 : b + PREFIX_SIZE ≠ NULL := by
    intro h0
    have := congrArg BitVec.toNat h0
    rw [BitVec.toNat_add] at this
    change (b.toNat + 8) % _ = 0 at this
    omega
  have hgone : block (del s.mem p) (b + PREFIX_SIZE) = none := by
    rw [block_none, hp, del, Finmap.mem_erase]
    rintro ⟨hne, hmem⟩
    rcases hfresh with rfl | hnew
    · exact hne rfl
    · exact hnew hmem
  have hwrite : splice raw 0 (wordBytes size) =
      wordBytes (BitVec.ofNat 64 (raw.drop 8).length) ++ raw.drop 8 := by
    rw [splice_zero, wordBytes_length, List.length_drop, hraw, Nat.add_sub_cancel_left,
      BitVec.ofNat_toNat, BitVec.setWidth_eq]
  have htake : (raw.drop 8).take bs.length = bs.take size.toNat := by
    have hkeep' := congrArg (List.drop 8) hkeep
    rwa [List.length_append, wordBytes_length, List.drop_take, Nat.add_sub_cancel_left, hlen,
      List.drop_take, List.drop_left' (by simp), Nat.add_sub_cancel_left] at hkeep'
  have hQ' := hQ (b + PREFIX_SIZE) raw (raw.drop 8) (by rw [hp]; exact hb)
    (by rw [List.length_drop, hraw, Nat.add_sub_cancel_left]) htake ⟨by rwa [hp], hbound⟩
    ⟨hgone, hp0, by rwa [hp]⟩
  rw [put, hp, del] at hQ'
  rw [if_neg hnull, wp_bind, writeWord, wp_writeAt hnull (Finmap.lookup_insert _) (by rw [wordBytes_length]; omega),
    wp_bind, decrement_used_memory, wp_modify, wp_bind, increment_used_memory, wp_modify, wp_pure, hwrite]
  simpa only [Finmap.insert_insert] using hQ'

theorem wp_zremalloc {size : Word} {Q : Addr → State Globals → Prop}
    (hE : L.realloc s.trace s.mem (p - PREFIX_SIZE) (size + PREFIX_SIZE) = none → E .abort)
    (h : Holds s.mem p bs) (hsize : size.toNat + 8 < 2 ^ 64)
    (hQ : ∀ r cs, cs.length = size.toNat → cs.take bs.length = bs.take size.toNat →
      Placed L r size.toNat → Fresh (del s.mem p) r →
      Q r { mem := put (del s.mem p) r cs,
            glob := { used_memory :=
              s.glob.used_memory - BitVec.ofNat 64 bs.length + size },
            trace := .realloc (p - PREFIX_SIZE) (size + PREFIX_SIZE) (r - PREFIX_SIZE) :: s.trace }) :
    wp E (zremalloc L p size) Q s := wp_zremalloc_answer hE h hsize fun r _ cs _ => hQ r cs

/-- A request that wraps around gets a block too short for its own size header. -/
theorem zmalloc_wraps {size : Word} (hwrap : ¬ size.toNat + 8 < 2 ^ 64)
    {Q : Addr → State Globals → Prop} :
    wp Safe (zmalloc L size) Q s ↔ L.malloc s.trace s.mem (size + PREFIX_SIZE) = none := by
  have hlen : (size + PREFIX_SIZE).toNat < 8 := by
    have := size.isLt
    rw [BitVec.toNat_add]
    change (size.toNat + 8) % _ < 8
    omega
  rw [zmalloc, wp_bind, wp, malloc]
  cases h : L.malloc s.trace s.mem (size + PREFIX_SIZE) with
  | none => simp [zmalloc_oom]
  | some x =>
    obtain ⟨b, raw⟩ := x
    obtain ⟨-, hraw, hnull, -⟩ := L.malloc_spec h
    simp only [if_neg hnull, wp_bind, reduceCtorEq, iff_false]
    simp only [wp, writeWord, writeAt, if_neg hnull, Finmap.lookup_insert, wordBytes_length, hraw]
    rw [if_neg (by omega)]
    simp

theorem zremalloc_wraps {size : Word} (h : Holds s.mem p bs) (hwrap : ¬ size.toNat + 8 < 2 ^ 64)
    {Q : Addr → State Globals → Prop} :
    wp Safe (zremalloc L p size) Q s ↔
      L.realloc s.trace s.mem (p - PREFIX_SIZE) (size + PREFIX_SIZE) = none := by
  have hlen : (size + PREFIX_SIZE).toNat < 8 := by
    have := size.isLt
    rw [BitVec.toNat_add]
    change (size.toNat + 8) % _ < 8
    omega
  rw [zremalloc, if_neg h.ne_null, wp_bind, readWord, wp_bind,
    wp_readAt h.base_ne_null h.block (by simp), wp_pure, wp_bind, wp, realloc, if_neg h.base_ne_null,
    if_pos (mem_of_block h.block)]
  cases hr : L.realloc s.trace s.mem (p - PREFIX_SIZE) (size + PREFIX_SIZE) with
  | none => simp [zmalloc_oom]
  | some x =>
    obtain ⟨b, raw⟩ := x
    obtain ⟨-, hraw, -, hnull, -⟩ := L.realloc_spec h.block hr
    simp only [if_neg hnull, wp_bind, reduceCtorEq, iff_false]
    simp only [wp, writeWord, writeAt, if_neg hnull, Finmap.lookup_insert, wordBytes_length, hraw]
    rw [if_neg (by omega)]
    simp

theorem zmalloc_fits {size r : Word} {s' : State Globals} (hok : zmalloc L size s = .ok (r, s')) :
    size.toNat + 8 < 2 ^ 64 := by
  by_contra hwrap
  have hrefused := (zmalloc_wraps (L := L) (s := s) (Q := fun _ _ => True) hwrap).mp
    (wp.of_eq hok trivial)
  exact ((zmalloc_wraps (Q := fun _ _ => False) hwrap).mpr hrefused).of_ok hok

theorem zremalloc_fits {size r : Word} {s' : State Globals} (h : Holds s.mem p bs)
    (hok : zremalloc L p size s = .ok (r, s')) : size.toNat + 8 < 2 ^ 64 := by
  by_contra hwrap
  have hrefused := (zremalloc_wraps (L := L) (Q := fun _ _ => True) h hwrap).mp
    (wp.of_eq hok trivial)
  exact ((zremalloc_wraps (Q := fun _ _ => False) h hwrap).mpr hrefused).of_ok hok

/-- A reader that accepts every end need not ask whether the request fits. -/
theorem zmalloc_told {size : Word} {Q : Addr → State Globals → Prop}
    (hQ : ∀ p cs g, Fresh s.mem p → cs.length = size.toNat → Placed L p cs.length → size.toNat + 8 < 2 ^ 64 →
      Q p ⟨put s.mem p cs, g, .malloc (size + PREFIX_SIZE) (p - PREFIX_SIZE) :: s.trace⟩) :
    wp Any (zmalloc L size) Q s := by
  refine wp_any fun r s' hok => ?_
  have hfits := zmalloc_fits hok
  refine (wp_zmalloc (E := Any) trivial hfits fun p raw heq hraw hfresh => ?_).of_ok hok
  have hlen : (raw.drop 8).length = size.toNat := by
    rw [List.length_drop]
    omega
  obtain ⟨-, hraw', -, hend⟩ := L.malloc_spec heq
  rw [← hraw', hraw] at hend
  refine hQ p (raw.drop 8) _ hfresh hlen ?_ hfits
  constructor
  · rwa [hlen]
  · intro hL
    have hlt := hL.malloc heq
    omega

theorem zremalloc_told {size : Word} {Q : Addr → State Globals → Prop} (h : Holds s.mem p bs)
    (hQ : ∀ r cs g, Fresh (del s.mem p) r → cs.length = size.toNat →
      cs.take bs.length = bs.take cs.length → Placed L r cs.length → size.toNat + 8 < 2 ^ 64 →
      Q r ⟨put (del s.mem p) r cs, g, .realloc (p - PREFIX_SIZE) (size + PREFIX_SIZE) (r - PREFIX_SIZE) :: s.trace⟩) :
    wp Any (zremalloc L p size) Q s := by
  refine wp_any fun r s' hok => ?_
  have hfits := zremalloc_fits h hok
  refine (wp_zremalloc (E := Any) (fun _ => trivial) h hfits fun r cs hcs htake hend hfresh => ?_).of_ok hok
  rw [← hcs] at htake hend
  exact hQ r cs _ hfresh hcs htake hend hfits

theorem wp_zfree {Q : Unit → State Globals → Prop} (h : Holds s.mem p bs) :
    wp E (zfree p) Q s ↔
      Q () { mem := del s.mem p,
             glob := { used_memory :=
               s.glob.used_memory - (BitVec.ofNat 64 bs.length + PREFIX_SIZE) },
             trace := .free (p - PREFIX_SIZE) :: s.trace } := by
  have hsize : slice (wordBytes (BitVec.ofNat 64 bs.length) ++ bs) 0 8 =
      wordBytes (BitVec.ofNat 64 bs.length) := by
    rw [slice_zero, List.take_left' (by simp)]
  rw [zfree, if_neg h.ne_null, wp_bind, readWord, wp_bind, wp_readAt h.base_ne_null h.block (by simp), wp_pure, hsize,
    bytesWord_wordBytes, wp_bind, decrement_used_memory, wp_modify]
  exact wp_free h.base_ne_null (mem_of_block h.block)

theorem wp_zfree_null {Q : Unit → State Globals → Prop} : wp E (zfree NULL) Q s ↔ Q () s := by
  rw [zfree, if_pos rfl]
  rfl

theorem wp_zsizeof {Q : Word → State Globals → Prop} (h : Holds s.mem p bs) :
    wp E (zsizeof p) Q s ↔ Q (BitVec.ofNat 64 bs.length) s := by
  rw [zsizeof, readWord, wp_bind, wp_readAt h.base_ne_null h.block (by simp), wp_pure, slice_zero,
    List.take_left' (by simp), bytesWord_wordBytes]

end Rules

end Redis
