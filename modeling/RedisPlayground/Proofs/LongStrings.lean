import RedisPlayground.Proofs.Contents

/-! The functions that take the length through `sdslen` are right for lengths in the
range of an `int` only: a longer string is cut, or its length becomes a huge one. -/

namespace Redis

open CMem

variable {L : Libc} {s s' : State Globals} {p r : Addr} {b b' : Buf} {t : CharPtr} {ts : List Byte}

theorem sizeLen_toNat :
    b.sizeLen.toNat = b.len.toNat % 2 ^ 32 ∧ b.len.toNat % 2 ^ 32 < 2 ^ 31 ∨
      b.sizeLen.toNat = 2 ^ 64 - 2 ^ 32 + b.len.toNat % 2 ^ 32 ∧ 2 ^ 31 ≤ b.len.toNat % 2 ^ 32 := by
  have hmsb : (b.len.setWidth 32).msb = decide (2 ^ 31 ≤ b.len.toNat % 2 ^ 32) := by
    rw [BitVec.msb_eq_decide, BitVec.toNat_setWidth]
  have hlow : (b.len.setWidth 32).toNat = b.len.toNat % 2 ^ 32 := BitVec.toNat_setWidth _ _
  rw [Buf.sizeLen, BitVec.toNat_signExtend, hmsb, BitVec.toNat_setWidth, hlow]
  rcases Nat.lt_or_ge (b.len.toNat % 2 ^ 32) (2 ^ 31) with hlt | hge
  · rw [decide_eq_false (by omega)]
    left
    simp only [Bool.false_eq_true, if_false]
    omega
  · rw [decide_eq_true hge]
    right
    simp only [if_true]
    omega

theorem sizeLen_eq_iff (h : b.len.toNat < 2 ^ 63) : b.sizeLen.toNat = b.len.toNat ↔ b.len.toNat < 2 ^ 31 := by
  have hcases := sizeLen_toNat (b := b)
  omega

/-- The value of `sdslen` as a `size_t` is at most the length, or no object is as large. -/
theorem sizeLen_le : b.sizeLen.toNat ≤ b.len.toNat ∨ 2 ^ 63 ≤ b.sizeLen.toNat := by
  have hcases := sizeLen_toNat (b := b)
  omega

theorem sdslenSize_eq (h : StrAt s.mem p b) : sdslenSize p s = .ok (b.sizeLen, s) :=
  wp.eq_ok ((wp_sdslenSize_any h).mpr ⟨rfl, rfl⟩)

/-- A copy with the right length is made of a string whose length is in range only. -/
theorem sdsdup_lt (h : StrAt s.mem p b) (hb : b.WellFormed) (hok : sdsdup L p s = .ok (r, s'))
    (hm : Makes s.mem 0 s'.mem r b') (heq : b'.len = b.len) : b.len.toNat < 2 ^ 31 := by
  have hwp : wp Any (sdsdup L p) (fun r s' => ∃ c : Buf, StrAt s'.mem r c ∧
      c.len.toNat = b.sizeLen.toNat) s := by
    rw [sdsdup, wp_bind, wp_sdslenSize_any h]
    apply sdsnewlen_text.mono
    rintro r s' ⟨c, cs, hc, hcs, -⟩
    exact ⟨c, hc.makes.str, hc.length.trans hcs.length⟩
  obtain ⟨c, hc, hclen⟩ := hwp.of_ok hok
  obtain rfl := hm.str.unique hc
  rw [← sizeLen_eq_iff hb.len_lt, ← hclen, heq]

theorem sdsdup_keeps (h : StrAt s.mem p b) (hb : b.WellFormed) (hlt : b.len.toNat < 2 ^ 31)
    (hmalloc : L.malloc s.trace s.mem (sdshdr.sizeof + b.len + 1 + PREFIX_SIZE) ≠ none) :
    ∃ r s' b', sdsdup L p s = .ok (r, s') ∧ Makes s.mem 0 s'.mem r b' ∧ b'.len = b.len ∧
      b'.content = b.content := by
  have hsize := hb.size
  have hlen := hb.content_length
  have hread : Reads s.mem (sdsPtr p) b.content.length b.content := by
    rw [hlen]
    exact reads_content h (by omega)
  have hwp : wp Never (sdsdup L p) (fun r s' => Makes s.mem 0 s'.mem r ⟨b.len, 0, b.content ++ [0]⟩) s := by
    rw [sdsdup, wp_bind, wp_sdslenSize_any h, signExtend_len hlt]
    apply wp_sdsnewlen_buf (fun hnone => hmalloc hnone) (by omega) hlen.symm (Or.inr hread)
    intro r s' hm _
    exact hm
  obtain ⟨r, s', hok, hm⟩ := hwp.run
  exact ⟨r, s', _, hok, hm, rfl, List.take_left' hlen⟩

theorem sdscat_lt (h : StrAt s.mem p b) (hp : p ≠ NULL) (hb : b.WellFormed)
    (ht : cstring t s = .ok (ts, s)) (hok : sdscat L p t s = .ok (r, s'))
    (hm : Makes s.mem {base p} s'.mem r b') (heq : b'.len.toNat = b.len.toNat + ts.length) :
    b.len.toNat < 2 ^ 31 := by
  have hwp : wp Any (sdscat L p t) (fun r s' => ∃ c : Buf, StrAt s'.mem r c ∧
      c.len.toNat = b.sizeLen.toNat + (BitVec.ofNat 64 ts.length).toNat) s := by
    rw [sdscat, wp_bind]
    apply wp_strlen ht
    apply (sdscatlen_text h hp).mono
    rintro r s' ⟨b₁, c, bs, -, hc, -, hlt, hbs⟩
    refine ⟨c, hc.makes.str, ?_⟩
    rw [hc.length, List.length_append, List.length_take_of_le hlt.le, hbs.length]
  obtain ⟨c, hc, hclen⟩ := hwp.of_ok hok
  obtain rfl := hm.str.unique hc
  have hlt := b'.len.isLt
  rw [BitVec.toNat_ofNat] at hclen
  rw [← sizeLen_eq_iff hb.len_lt]
  omega

theorem sdscat_keeps (h : StrAt s.mem p b) (hp : p ≠ NULL) (hb : b.WellFormed)
    (hlt : b.len.toNat < 2 ^ 31) (ht : cstring t s = .ok (ts, s)) (hknown : t.Known s.mem)
    (hav : t.Avoids {base p})
    (hfits : b.free.toNat < ts.length → (b.len.toNat + ts.length) * 2 + 25 < 2 ^ 64)
    (hrealloc : b.free.toNat < ts.length → L.realloc s.trace s.mem (base p - PREFIX_SIZE)
      (sdshdr.sizeof + (b.len + BitVec.ofNat 64 ts.length) * 2 + 1 + PREFIX_SIZE) ≠ none) :
    ∃ r s' b', sdscat L p t s = .ok (r, s') ∧ Makes s.mem {base p} s'.mem r b' ∧
      b'.len.toNat = b.len.toNat + ts.length ∧ b'.content = b.content ++ ts := by
  have hfree := hb.free_lt
  have hw : (BitVec.ofNat 64 ts.length).toNat = ts.length := by
    rw [BitVec.toNat_ofNat]
    omega
  have hread := reads_of_cstring hknown ht
  have hwp : wp Never (sdscat L p t) (fun r s' => ∃ free rest, Makes s.mem {base p} s'.mem r
      ⟨b.len + BitVec.ofNat 64 ts.length, free, b.content ++ ts ++ 0 :: rest⟩) s := by
    rw [sdscat, wp_bind]
    apply wp_strlen ht
    apply wp_sdscatlen_buf h hp hb.size hlt hw
    · rwa [hw]
    · rw [hw]
      exact fun hgt hnone => hrealloc hgt hnone
    · exact hread
    · exact hav
    · intro r s' free rest hm _ _ _
      exact ⟨free, rest, hm⟩
  obtain ⟨r, s', hok, free, rest, hm⟩ := hwp.run
  have hsum : (b.len + BitVec.ofNat 64 ts.length).toNat = b.len.toNat + ts.length := by
    rw [BitVec.toNat_add, hw]
    omega
  refine ⟨r, s', _, hok, hm, hsum, ?_⟩
  rw [Buf.content, hsum]
  apply List.take_left'
  rw [List.length_append, hb.content_length]

/-- `sdslen`, `sdsdup` and `sdscat` see the length of a string that the header has
exactly if it is in the range of an `int`. -/
theorem long_strings_kept (L : Libc) (s : State Globals) (p : Addr) (b : Buf) (t : CharPtr)
    (ts : List Byte) (h : StrAt s.mem p b) (hp : p ≠ NULL) (hb : b.WellFormed)
    (ht : cstring t s = .ok (ts, s)) (hknown : t.Known s.mem) (hav : t.Avoids {base p})
    (hmalloc : L.malloc s.trace s.mem (sdshdr.sizeof + b.len + 1 + PREFIX_SIZE) ≠ none)
    (hfits : b.free.toNat < ts.length → (b.len.toNat + ts.length) * 2 + 25 < 2 ^ 64)
    (hrealloc : b.free.toNat < ts.length → L.realloc s.trace s.mem (base p - PREFIX_SIZE)
      (sdshdr.sizeof + (b.len + BitVec.ofNat 64 ts.length) * 2 + 1 + PREFIX_SIZE) ≠ none) :
    (sdslenSize p s = .ok (b.len, s) ↔ b.len.toNat < 2 ^ 31) ∧
    ((∃ r s' b', sdsdup L p s = .ok (r, s') ∧ Makes s.mem 0 s'.mem r b' ∧ b'.len = b.len ∧
      b'.content = b.content) ↔ b.len.toNat < 2 ^ 31) ∧
    ((∃ r s' b', sdscat L p t s = .ok (r, s') ∧ Makes s.mem {base p} s'.mem r b' ∧
      b'.len.toNat = b.len.toNat + ts.length ∧ b'.content = b.content ++ ts) ↔
    b.len.toNat < 2 ^ 31) := by
  refine ⟨?_, ?_, ?_⟩
  · rw [sdslenSize_eq h, Except.ok.injEq, Prod.mk.injEq, and_iff_left rfl, ← BitVec.toNat_inj]
    exact sizeLen_eq_iff hb.len_lt
  · constructor
    · rintro ⟨r, s', b', hok, hm, heq, -⟩
      exact sdsdup_lt h hb hok hm heq
    · exact fun hlt => sdsdup_keeps h hb hlt hmalloc
  · constructor
    · rintro ⟨r, s', b', hok, hm, heq, -⟩
      exact sdscat_lt h hp hb ht hok hm heq
    · exact fun hlt => sdscat_keeps h hp hb hlt ht hknown hav hfits hrealloc

theorem bump_answers {fill : Byte} {w : Word} (h : w.toNat < 2 ^ 63) :
    (bump fill).malloc [] ∅ w ≠ none := by
  have hp : (4096 : Addr) ∉ (∅ : Mem) ∧ (4096 : Addr) ≠ NULL ∧ (4096 : Addr).toNat + w.toNat < 2 ^ 64 := by
    refine ⟨Finmap.notMem_empty, by decide, ?_⟩
    change 4096 + w.toNat < _
    omega
  have hsome : (bump fill).malloc [] ∅ w = some (4096, List.replicate w.toNat fill) := if_pos hp
  rw [hsome]
  exact Option.some_ne_none _

/-- A string of `n` times the letter `'a'`. -/
def longBuf (n : ℕ) : Buf := ⟨BitVec.ofNat 64 n, 0, List.replicate n 97 ++ [0]⟩

section Long

variable {n : ℕ}

theorem longBuf_len (hn : n < 2 ^ 62) : (longBuf n).len.toNat = n := by
  rw [longBuf, BitVec.toNat_ofNat]
  omega

theorem longBuf_wellFormed (hn : n < 2 ^ 62) : (longBuf n).WellFormed := by
  have hlen := longBuf_len hn
  refine ⟨?_, le_rfl, ?_⟩
  · rw [BitVec.toInt_eq_toNat_of_lt] <;> omega
  · rw [hlen, longBuf, List.length_append, List.length_replicate]
    rfl

theorem longBuf_content (hn : n < 2 ^ 62) : (longBuf n).content = List.replicate n 97 := by
  rw [Buf.content, longBuf_len hn]
  exact List.take_left' List.length_replicate

theorem longBuf_nul (hn : n < 2 ^ 62) : (longBuf n).chars[(longBuf n).len.toNat]? = some 0 := by
  rw [longBuf_len hn, longBuf, List.getElem?_append_right (by rw [List.length_replicate]),
    List.length_replicate, Nat.sub_self]
  rfl

theorem longBuf_intLen : (longBuf n).intLen = ((BitVec.ofNat 64 n).setWidth 32).toInt := rfl

theorem exists_long (hn : n < 2 ^ 62) : ∃ p s,
    sdsnewlen (bump 0) (.ext (List.replicate n 97)) (BitVec.ofNat 64 n) zinit = .ok (p, s) ∧
      p ≠ NULL ∧ StrAt s.mem p (longBuf n) := by
  have hlen := longBuf_len hn
  have hreq : (sdshdr.sizeof + BitVec.ofNat 64 n + 1 + PREFIX_SIZE).toNat < 2 ^ 63 := by
    rw [BitVec.toNat_add, BitVec.toNat_add, BitVec.toNat_add]
    change (((16 + (longBuf n).len.toNat) % _ + 1) % _ + 8) % _ < _
    omega
  have hread : Reads zinit.mem (.ext (List.replicate n 97)) (List.replicate n (97 : Byte)).length
      (List.replicate n 97) := ⟨le_rfl, List.take_length.symm⟩
  have hwp : wp Never (sdsnewlen (bump 0) (.ext (List.replicate n 97)) (BitVec.ofNat 64 n))
      (fun p s => p ≠ NULL ∧ StrAt s.mem p (longBuf n)) zinit := by
    apply wp_sdsnewlen_buf (fun hnone => bump_answers hreq hnone) _ _ (Or.inr hread)
    · intro p s hm hp
      exact ⟨hp, hm.str⟩
    · rw [List.length_replicate]
      omega
    · rw [List.length_replicate]
      exact hlen
  exact hwp.run

end Long

/-- The string `"ab"`. -/
def long₁ : State Globals := after (sdsnew (bump 0) (.ext [97, 98, 0])) zinit

theorem long_ab : StrAt long₁.mem 0x1018 ⟨2, 0, [97, 98, 0]⟩ :=
  ⟨by decide +kernel, by decide, by decide, by decide⟩

theorem long_strings_kept_short :
    (sdslenSize 0x1018 long₁ = .ok (2, long₁) ↔ 2 < 2 ^ 31) ∧
    ((∃ r s' b', sdsdup (bump 0) 0x1018 long₁ = .ok (r, s') ∧ Makes long₁.mem 0 s'.mem r b' ∧
      b'.len = 2 ∧ b'.content = [97, 98]) ↔ 2 < 2 ^ 31) ∧
    ((∃ r s' b', sdscat (bump 0) 0x1018 (.ext [99, 0]) long₁ = .ok (r, s') ∧
      Makes long₁.mem {base 0x1018} s'.mem r b' ∧ b'.len.toNat = 2 + 1 ∧
      b'.content = [97, 98] ++ [99]) ↔ 2 < 2 ^ 31) :=
  long_strings_kept (bump 0) long₁ 0x1018 ⟨2, 0, [97, 98, 0]⟩ (.ext [99, 0]) [99] long_ab (by decide)
    ⟨by decide, by decide, by decide⟩ rfl trivial trivial (by decide +kernel)
    (fun _ => by decide) (fun _ => by decide +kernel)

/-- A string of 2^32 bytes has a length whose low half is 0, and its copy is not one. -/
theorem sdsdup_loses : ∃ p s,
    sdsnewlen (bump 0) (.ext (List.replicate (2 ^ 32) 97)) (BitVec.ofNat 64 (2 ^ 32)) zinit = .ok (p, s) ∧
      ¬ ∃ r s' b', sdsdup (bump 0) p s = .ok (r, s') ∧ Makes s.mem 0 s'.mem r b' ∧
        b'.len = BitVec.ofNat 64 (2 ^ 32) ∧ b'.content = List.replicate (2 ^ 32) 97 := by
  have hn : 2 ^ 32 < 2 ^ 62 := by decide
  obtain ⟨p, s, hok, -, h⟩ := exists_long hn
  refine ⟨p, s, hok, ?_⟩
  rintro ⟨r, s', b', hdup, hm, heq, -⟩
  have hlt := sdsdup_lt h (longBuf_wellFormed hn) hdup hm heq
  rw [longBuf_len hn] at hlt
  exact absurd hlt (by decide)

end Redis
