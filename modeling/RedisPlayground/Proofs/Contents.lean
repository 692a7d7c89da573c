import RedisPlayground.Proofs.Terminators

/-! Strings of any length. The header has the length in 64 bits; `sdslen` gives
its low 32 bits, as a signed number. -/

namespace Redis

open CMem

namespace Buf

/-- The fields of the header are not negative, and they describe the block. -/
structure WellFormed (b : Buf) : Prop where
  len : 0 ≤ b.len.toInt
  free : 0 ≤ b.free.toInt
  size : b.chars.length = b.len.toNat + b.free.toNat + 1

/-- The value of `sdslen`. -/
def intLen (b : Buf) : ℤ := (b.len.setWidth 32).toInt

end Buf

variable {s : State Globals} {p : Addr} {b : Buf} {E : Stop → Prop} {n : ℕ} {w : Word}

theorem toNat_of_nonneg (h : 0 ≤ w.toInt) : w.toNat < 2 ^ 63 ∧ w.toInt = w.toNat := by
  have hlt := w.isLt
  rw [BitVec.toInt_eq_toNat_cond] at h ⊢
  split at h <;> omega

namespace Buf.WellFormed

theorem content_length (h : b.WellFormed) : b.content.length = b.len.toNat := by
  rw [Buf.content, List.length_take, h.size]
  omega

theorem len_lt (h : b.WellFormed) : b.len.toNat < 2 ^ 63 := (toNat_of_nonneg h.len).1

theorem free_lt (h : b.WellFormed) : b.free.toNat < 2 ^ 63 := (toNat_of_nonneg h.free).1

end Buf.WellFormed

/-- The value of `sdslen` is the length, or it is smaller. -/
theorem intLen_le : b.intLen ≤ b.len.toNat := by
  have hle := Nat.mod_le b.len.toNat (2 ^ 32)
  rw [Buf.intLen, BitVec.toInt_eq_toNat_cond, BitVec.toNat_setWidth]
  split <;> omega

theorem reads_content (h : StrAt s.mem p b) (hn : n ≤ b.chars.length) :
    Reads s.mem (sdsPtr p) n (b.chars.take n) := reads_self h hn

theorem Buf.bytes_inj {b' : Buf} (h : b.bytes = b'.bytes) : b = b' := by
  obtain ⟨len, free, chars⟩ := b
  obtain ⟨len', free', chars'⟩ := b'
  obtain ⟨hlen, h⟩ := List.append_inj h (by rw [wordBytes_length, wordBytes_length])
  obtain ⟨hfree, hchars⟩ := List.append_inj h (by rw [wordBytes_length, wordBytes_length])
  rw [Buf.mk.injEq]
  refine ⟨?_, ?_, hchars⟩
  · rw [← bytesWord_wordBytes len, hlen, bytesWord_wordBytes]
  · rw [← bytesWord_wordBytes free, hfree, bytesWord_wordBytes]

theorem StrAt.unique {m : Mem} {b' : Buf} (h : StrAt m p b) (h' : StrAt m p b') : b = b' :=
  Buf.bytes_inj (Holds.unique h h')

/-- What a function leaves of a string that stays in its block: some content with a
terminator behind it, and the bytes behind that as they were. -/
structure Leaves (b : Buf) (c : List Byte) (b' : Buf) : Prop where
  wellFormed : b'.WellFormed
  content : b'.content = c
  le : b'.len.toNat ≤ b.len.toNat
  room : b'.len.toNat + b'.free.toNat = b.len.toNat + b.free.toNat
  nul : b'.chars[b'.len.toNat]? = some 0
  rest : b'.chars.drop (b'.len.toNat + 1) = b.chars.drop (b'.len.toNat + 1)

theorem Leaves.length {c : List Byte} {b' : Buf} (h : Leaves b c b') : b'.len.toNat = c.length := by
  rw [← h.content, h.wellFormed.content_length]

/-- A function with a result leaves one string. -/
theorem Makes.exists_iff {x : M Addr} {s' : State Globals} {b' : Buf} {P : Buf → Prop}
    (hok : x s = .ok (p, s')) (hm : Makes s.mem {base p} s'.mem p b') :
    (∃ t c, x s = .ok (p, t) ∧ Makes s.mem {base p} t.mem p c ∧ P c) ↔ P b' := by
  constructor
  · rintro ⟨t, c, hok', hm', hP⟩
    obtain ⟨-, rfl⟩ := Prod.mk.inj (Except.ok.inj (hok'.symm.trans hok))
    rwa [← hm'.str.unique hm.str]
  · exact fun hP => ⟨s', b', hok, hm, hP⟩

/-- The room behind `k` characters is a number that the header can hold. -/
def Buf.Fits (b : Buf) (k : ℕ) : Prop := b.len.toNat + b.free.toNat < 2 ^ 63 + k

theorem Buf.WellFormed.keep_iff (h : b.WellFormed) {c : List Byte} (hn : n + w.toNat ≤ b.chars.length)
    (hw : w.toNat < b.chars.length) : Leaves b c (b.keep n w) ↔
      w.toNat ≤ b.len.toNat ∧ b.Fits w.toNat ∧ c = slice b.chars n w.toNat := by
  have hlen := h.len_lt
  have hfree := h.free_lt
  have hsize := h.size
  have hslice : (slice b.chars n w.toNat).length = w.toNat := slice_length hn
  have hcontent : (b.keep n w).content = slice b.chars n w.toNat := List.take_left' hslice
  have hcut : (b.keep n w).chars.drop (w.toNat + 1) = b.chars.drop (w.toNat + 1) := by
    rw [Buf.keep, List.drop_append, hslice, List.drop_eq_nil_of_le (by omega), Nat.add_sub_cancel_left]
    rfl
  unfold Buf.Fits
  constructor
  · intro hl
    have hle : w.toNat ≤ b.len.toNat := hl.le
    have hroom : w.toNat + (b.keep n w).free.toNat = b.len.toNat + b.free.toNat := hl.room
    have hlt := hl.wellFormed.free_lt
    exact ⟨hle, by omega, hl.content.symm.trans hcontent⟩
  · rintro ⟨hle, hfits, rfl⟩
    have hroom : (b.keep n w).free.toNat = b.free.toNat + (b.len.toNat - w.toNat) := by
      simp only [Buf.keep, BitVec.toNat_add, BitVec.toNat_sub]
      omega
    constructor
    · constructor
      · change 0 ≤ w.toInt
        rw [BitVec.toInt_eq_toNat_of_lt] <;> omega
      · rw [BitVec.toInt_eq_toNat_of_lt] <;> omega
      · rw [hroom]
        simp only [Buf.keep, List.length_append, List.length_cons, List.length_drop, hslice]
        omega
    · exact hcontent
    · exact hle
    · rw [hroom]
      simp only [Buf.keep]
      omega
    · simp [Buf.keep, hslice]
    · exact hcut

end Redis
