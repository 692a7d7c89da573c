import RedisPlayground.Proofs.Contents

/-! When `sdsrange` keeps the characters from one index to another: the upper
index is taken as it is, also when it lies behind the end of the string. -/

namespace Redis

open CMem

/-- An index counted from the end when negative, and then at least 0. -/
def fromEnd (i : ℤ) (n : ℕ) : ℤ := if i < 0 then max (i + n) 0 else i

/-- The characters at the positions from `i` to `j`. -/
def part (c : List Byte) (i j : ℤ) : List Byte := (c.take (j + 1).toNat).drop i.toNat

/-- The indices between which `sdsrange` does its work: of an empty string it does not
store the terminator, of another one it takes the upper index to be inside. With no
position between the indices it still forms the pointer to the lower one. -/
def Buf.RangeOk (b : Buf) (i j : ℤ) : Prop :=
  if b.len = 0 then b.chars[0]? = some 0
  else b.Fits (j - i + 1).toNat ∧
    if i ≤ j then j < b.len.toNat else i.toNat ≤ b.chars.length

variable {s : State Globals} {p : Addr} {b : Buf} {E : Stop → Prop} {i j len : Word} {k l : ℤ}

theorem fromEnd_nonneg {n : ℕ} : 0 ≤ fromEnd k n := by
  unfold fromEnd
  split <;> omega

theorem backIndex_toInt (h : len.toNat < 2 ^ 31) : (backIndex i len).toInt = fromEnd i.toInt len.toNat := by
  have hlt := BitVec.toInt_lt (x := i)
  have hge := BitVec.le_toInt (x := i)
  have hlen : len.toInt = len.toNat := BitVec.toInt_eq_toNat_of_lt (by omega)
  have h0 : (0 : Word).toInt = 0 := rfl
  unfold backIndex fromEnd
  simp only [BitVec.slt_iff_toInt_lt, h0]
  by_cases hneg : i.toInt < 0
  · have hadd : (i + len).toInt = i.toInt + len.toNat := by
      rw [BitVec.toInt_add, hlen, Int.bmod_eq_of_le] <;> omega
    rw [if_pos hneg, if_pos hneg, hadd]
    split
    · rw [h0]
      omega
    · rw [hadd]
      omega
  · rw [if_neg hneg, if_neg hneg]

/-- The number of characters asked for. -/
theorem newlen_toNat (hi : 0 ≤ i.toInt) (hj : 0 ≤ j.toInt) :
    (if j.slt i then 0 else j - i + 1 : Word).toNat = (j.toInt - i.toInt + 1).toNat := by
  obtain ⟨hi', hi⟩ := toNat_of_nonneg hi
  obtain ⟨hj', hj⟩ := toNat_of_nonneg hj
  have h1 : (1 : Word).toNat = 1 := rfl
  rw [hi, hj]
  by_cases hlt : j.slt i
  · rw [if_pos hlt]
    rw [BitVec.slt_iff_toInt_lt, hi, hj] at hlt
    change 0 = _
    omega
  · rw [if_neg hlt]
    rw [BitVec.slt_iff_toInt_lt, hi, hj] at hlt
    rw [BitVec.toNat_add, BitVec.toNat_sub, h1]
    omega

theorem part_eq_slice {c : List Byte} (hk : 0 ≤ k) (hl : 0 ≤ l) :
    part c k l = slice c k.toNat (l - k + 1).toNat := by
  rw [part, List.drop_take, slice]
  congr 1
  omega

theorem part_length {c : List Byte} : (part c k l).length = min (l + 1).toNat c.length - k.toNat := by
  rw [part, List.length_drop, List.length_take]

/-- The string `sdsrange` leaves, if the indices lie in the block. -/
theorem wp_sdsrange {Q : Addr → State Globals → Prop} (h : StrAt s.mem p b)
    (hlen : b.len.toNat < 2 ^ 31) (hne : b.len ≠ 0)
    (hk : fromEnd i.toInt b.len.toNat = k) (hl : fromEnd j.toInt b.len.toNat = l)
    (hE : E .ub ∨ k.toNat + (l - k + 1).toNat ≤ b.chars.length ∧ (l - k + 1).toNat < b.chars.length)
    (hQ : k.toNat + (l - k + 1).toNat ≤ b.chars.length → (l - k + 1).toNat < b.chars.length →
      ∀ w m, w.toNat = (l - k + 1).toNat → Makes s.mem {base p} m p (b.keep k.toNat w) →
      Q p { s with mem := m }) : wp E (sdsrange p i j) Q s := by
  have hi := backIndex_toInt (i := i) hlen
  have hj := backIndex_toInt (i := j) hlen
  rw [hk] at hi
  rw [hl] at hj
  have hk0 : 0 ≤ k := hk ▸ fromEnd_nonneg
  have hl0 : 0 ≤ l := hl ▸ fromEnd_nonneg
  have hstart : (backIndex i b.len).toNat = k.toNat := by
    obtain ⟨-, hnat⟩ := toNat_of_nonneg (hi ▸ hk0)
    omega
  have hnew := newlen_toNat (hi ▸ hk0) (hj ▸ hl0)
  rw [hi, hj] at hnew
  rw [sdsrange, wp_bind, wp_sdslenSize_any h, signExtend_len hlen, if_neg hne, wp_bind, hstart]
  generalize (if (backIndex j b.len).slt (backIndex i b.len) then 0 else
    backIndex j b.len - backIndex i b.len + 1 : Word) = w at hnew ⊢
  rw [← hnew] at hE hQ
  apply wp_sdskeep h hE
  intro hread hstore m hm
  exact wp_pure.mpr (hQ hread hstore w m rfl hm)

theorem sdsrange_leaves_iff (h : StrAt s.mem p b) (hb : b.WellFormed) (hlen : b.len.toNat < 2 ^ 31)
    (hk : fromEnd i.toInt b.len.toNat = k) (hl : fromEnd j.toInt b.len.toNat = l) :
    (∃ s' b', sdsrange p i j s = .ok (p, s') ∧ Makes s.mem {base p} s'.mem p b' ∧
      Leaves b (part b.content k l) b') ↔ b.RangeOk k l := by
  have hsize := hb.size
  have hcontent := hb.content_length
  have hk0 : 0 ≤ k := hk ▸ fromEnd_nonneg
  have hl0 : 0 ≤ l := hl ▸ fromEnd_nonneg
  have hpart := part_eq_slice (c := b.content) hk0 hl0
  have hplen := part_length (c := b.content) (k := k) (l := l)
  unfold Buf.RangeOk
  by_cases h0 : b.len = 0
  · have hnil : part b.content k l = [] := by
      apply List.length_eq_zero_iff.mp
      rw [hplen, hcontent, h0]
      simp
    have hok : sdsrange p i j s = .ok (p, s) := by
      apply wp.eq_ok
      rw [sdsrange, wp_bind, wp_sdslenSize_any h, signExtend_len hlen, if_pos h0, wp_pure]
      exact ⟨rfl, rfl⟩
    have hlen0 : b.len.toNat = 0 := by
      rw [h0]
      rfl
    rw [if_pos h0, hnil]
    constructor
    · rintro ⟨s', b', hok', hm, hleaves⟩
      obtain ⟨-, rfl⟩ := Prod.mk.inj (Except.ok.inj (hok'.symm.trans hok))
      obtain rfl := hm.str.unique h
      rw [← hlen0]
      exact hleaves.nul
    · intro hnul
      refine ⟨s, b, hok, Makes.refl h, hb, ?_, le_rfl, rfl, ?_, rfl⟩
      · apply List.length_eq_zero_iff.mp
        rw [hcontent, hlen0]
      · rw [hlen0, hnul]
  · rw [if_neg h0]
    have hpos : 0 < b.len.toNat := by
      apply Nat.pos_of_ne_zero
      exact fun hz => h0 (BitVec.eq_of_toNat_eq hz)
    constructor
    · rintro ⟨s', b', hok, hm, hleaves⟩
      have hwp := wp_sdsrange (E := Any) (i := i) (j := j) (Q := fun _ s' =>
        k.toNat + (l - k + 1).toNat ≤ b.chars.length ∧ (l - k + 1).toNat < b.chars.length ∧
        ∃ w : Word, w.toNat = (l - k + 1).toNat ∧ StrAt s'.mem p (b.keep k.toNat w)) h hlen h0 hk hl
        (Or.inl trivial) fun hread hstore w m hw hm => ⟨hread, hstore, w, hw, hm.str⟩
      obtain ⟨hread, hstore, w, hw, hstr⟩ := hwp.of_ok hok
      obtain rfl := hm.str.unique hstr
      rw [← hw] at hread hstore
      obtain ⟨hle, hfits, hslice⟩ := (hb.keep_iff hread hstore).mp hleaves
      have hwlen := hleaves.length
      rw [hplen, hcontent] at hwlen
      change w.toNat = _ at hwlen
      refine ⟨hw ▸ hfits, ?_⟩
      split <;> omega
    · rintro ⟨hfits, hin⟩
      have hread : k.toNat + (l - k + 1).toNat ≤ b.chars.length ∧ (l - k + 1).toNat < b.chars.length := by
        split at hin <;> omega
      obtain ⟨a, s', hok, rfl, w, hw, hm⟩ := (wp_sdsrange (E := Never) (i := i) (j := j) (Q := fun a s' =>
        a = p ∧ ∃ w : Word, w.toNat = (l - k + 1).toNat ∧ Makes s.mem {base p} s'.mem p (b.keep k.toNat w))
        h hlen h0 hk hl (Or.inr hread) fun _ _ w m hw hm => ⟨rfl, w, hw, hm⟩).run
      refine ⟨s', _, hok, hm, (hb.keep_iff (by omega) (by omega)).mpr ⟨?_, hw ▸ hfits, ?_⟩⟩
      · split at hin <;> omega
      · rw [hpart, hw]
        split at hin
        · exact slice_take (by omega)
        · rw [show (l - k + 1).toNat = 0 by omega, slice_none, slice_none]

/-- `sdsrange` keeps the characters between the indices, and nothing else, exactly if
the upper one is inside the string. -/
theorem sdsrange_keeps (s : State Globals) (p : Addr) (b : Buf) (h : StrAt s.mem p b)
    (hb : b.WellFormed) (hlen : b.len.toNat < 2 ^ 31) (start last : Word) :
    (∃ s' b', sdsrange p start last s = .ok (p, s') ∧ Makes s.mem {base p} s'.mem p b' ∧
      Leaves b (part b.content (fromEnd start.toInt b.len.toNat) (fromEnd last.toInt b.len.toNat)) b') ↔
    b.RangeOk (fromEnd start.toInt b.len.toNat) (fromEnd last.toInt b.len.toNat) :=
  sdsrange_leaves_iff h hb hlen rfl rfl

/-- The string `"abc"`. -/
def range₁ : State Globals := after (sdsnew (bump 0) (.ext [97, 98, 99, 0])) zinit

def rangeBuf : Buf := ⟨3, 0, [97, 98, 99, 0]⟩

theorem range_abc : StrAt range₁.mem 0x1018 rangeBuf ∧ rangeBuf.WellFormed :=
  ⟨⟨by decide +kernel, by decide, by decide, by decide⟩, by decide, by decide, by decide⟩

theorem sdsrange_keeps_last : (∃ s' b', sdsrange 0x1018 1 (-1) range₁ = .ok (0x1018, s') ∧
      Makes range₁.mem {base 0x1018} s'.mem 0x1018 b' ∧ Leaves rangeBuf (part [97, 98, 99]
        (fromEnd 1 3) (fromEnd (-1) 3)) b') ↔
    rangeBuf.RangeOk (fromEnd 1 3) (fromEnd (-1) 3) :=
  sdsrange_keeps range₁ 0x1018 rangeBuf range_abc.1 range_abc.2 (by decide) 1 (-1)

/-- Four characters are asked for, and only three are there: the terminator of the
string is taken for its last character, and the new one is stored behind the block. -/
theorem sdsrange_overruns : StrAt range₁.mem 0x1018 rangeBuf ∧ rangeBuf.WellFormed ∧
    ¬ ∃ s', sdsrange 0x1018 0 3 range₁ = .ok (0x1018, s') := by
  refine ⟨range_abc.1, range_abc.2, ?_⟩
  rintro ⟨s', hok⟩
  have hnone : result (sdsrange 0x1018 0 3) range₁ = none := by decide +kernel
  rw [result_of_ok hok] at hnone
  exact Option.some_ne_none _ hnone

end Redis
