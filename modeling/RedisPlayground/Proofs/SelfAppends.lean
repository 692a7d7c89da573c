import RedisPlayground.Proofs.GrowthRuns

/-! A string appended to itself. `sdscatlen` makes the room before it copies, so bytes
of the string itself are copied from where they were before the string moved. -/

namespace Redis

open CMem

/-- The characters of a string from the `i`-th one on, as an argument. -/
def inside (p : Addr) (i : ℕ) : CharPtr := .heap (base p) (sdshdr.buf + i)

/-- What a program sees of a string. -/
structure Seen (s : State Globals) (p : Addr) (c : List Byte) (avail : Word) : Prop where
  len : sdslenSize p s = .ok (BitVec.ofNat 64 c.length, s)
  avail : sdsavail p s = .ok (avail, s)
  chars : getBytes (base p) sdshdr.buf c.length s = .ok (c, s)

/-- What `sdscatlen` asks of `realloc` for `n` more bytes. -/
def answer (L : Libc) (s : State Globals) (p : Addr) (c : List Byte) (n : Word) : Option (Addr × List Byte) :=
  L.realloc s.trace s.mem (base p - PREFIX_SIZE) (BitVec.ofNat 64 (2 * (c.length + n.toNat) + 25))

/-- The ends of an append of `n` bytes of the string `p` itself, from the `i`-th one on. -/
structure SelfAppend (L : Libc) (s : State Globals) (p : Addr) (c : List Byte) (avail : Word) (i : ℕ) (n : Word) :
    Prop where
  appends : (n.toNat ≤ avail.toNat ∨ ∃ raw, answer L s p c n = some (base p - PREFIX_SIZE, raw)) →
    ∃ s' avail', sdscatlen L p (inside p i) n s = .ok (p, s') ∧ Seen s' p (c ++ slice c i n.toNat) avail' ∧
      getChar p (c.length + n.toNat) s' = .ok (0, s') ∧ ∀ q ≠ base p, block s'.mem q = block s.mem q
  aborts : avail.toNat < n.toNat → answer L s p c n = none → sdscatlen L p (inside p i) n s = .error .abort
  wild : avail.toNat < n.toNat → ∀ q raw, answer L s p c n = some (q, raw) → q ≠ base p - PREFIX_SIZE →
    sdscatlen L p (inside p i) n s = .error .ub

variable {L : Libc} {s s' : State Globals} {ls : Finset Addr} {p r : Addr} {b c : Buf} {i : ℕ} {n : Word}
  {E : Stop → Prop} {S : Multiset Addr} {m₀ : Mem}

theorem seen_of (h : StrAt s.mem p b) (hlen : b.len.toNat < 2 ^ 31) (hsize : b.len.toNat ≤ b.chars.length) :
    Seen s p b.content b.free := by
  have hcontent : b.content.length = b.len.toNat := List.length_take_of_le hsize
  refine ⟨wp.eq_ok ?_, wp.eq_ok ?_, wp.eq_ok ?_⟩
  · rw [wp_sdslenSize_any h, signExtend_len hlen, hcontent, ← eq_ofNat rfl]
    exact ⟨rfl, rfl⟩
  · rw [sdsavail, ← base, wp_getFree h]
    exact ⟨rfl, rfl⟩
  · have hget := wp_getChars (E := Never) (i := 0) (n := b.content.length)
      (Q := fun bs s' => bs = b.content ∧ s' = s) h (by omega)
    refine hget.mpr ⟨?_, rfl⟩
    rw [slice_zero, hcontent]
    rfl

/-- The characters are still there after the string has grown in its place. -/
theorem reads_inside (h : StrAt s.mem p c) (hb : b.chars <+: c.chars) (hsize : b.len.toNat ≤ b.chars.length)
    (hi : i + n.toNat ≤ b.content.length) : Reads s.mem (inside p i) n.toNat (slice b.content i n.toNat) := by
  have hcontent : b.content.length = b.len.toNat := List.length_take_of_le hsize
  obtain ⟨rest, hrest⟩ : b.content <+: c.chars := (List.take_prefix _ _).trans hb
  have hlen := congrArg List.length hrest
  rw [List.length_append] at hlen
  refine ⟨c.bytes, h, ?_, ?_⟩
  · rw [Buf.bytes_length]
    change 16 + i + _ ≤ _
    omega
  · rw [slice_chars, ← hrest, slice_append_left hi]

theorem appended_seen {free : Word} {rest bs : List Byte}
    (h : StrAt s.mem p ⟨b.len + n, free, b.content ++ bs ++ 0 :: rest⟩)
    (hcontent : b.content.length = b.len.toNat) (hbs : bs.length = n.toNat)
    (hshort : b.len.toNat + n.toNat < 2 ^ 31) : Seen s p (b.content ++ bs) free := by
  have hsum : (b.len + n).toNat = (b.content ++ bs).length := by
    rw [BitVec.toNat_add, List.length_append]
    omega
  have hseen := seen_of h (by rw [hsum, List.length_append]; omega)
    (by rw [hsum]; exact (List.prefix_append _ _).length_le)
  rwa [Buf.content, hsum, List.take_left] at hseen

theorem RoomAt.eq_of_le (hat : RoomAt L s p b n r) (hle : n.toNat ≤ b.free.toNat) : r = p := by
  cases hat with
  | stays => rfl
  | asks hgt => omega

section Append

variable (h : StrAt s.mem p b) (hp : p ≠ NULL) (hsize : b.chars.length = b.len.toNat + b.free.toNat + 1)
  (hlen : b.len.toNat < 2 ^ 31) (hi : i + n.toNat ≤ b.content.length)

include hsize in
theorem answer_eq : answer L s p b.content n =
    L.realloc s.trace s.mem (base p - PREFIX_SIZE) (sdshdr.sizeof + (b.len + n) * 2 + 1 + PREFIX_SIZE) := by
  have hcontent : b.content.length = b.len.toNat := List.length_take_of_le (by omega)
  rw [answer, hcontent]
  congr 1
  apply BitVec.eq_of_toNat_eq
  rw [BitVec.toNat_add, BitVec.toNat_add, BitVec.toNat_add, BitVec.toNat_mul, BitVec.toNat_add, BitVec.toNat_ofNat]
  change _ = (((16 + _ % _ * 2 % _) % _ + 1) % _ + 8) % _
  omega

include hsize in
theorem RoomAt.asked (hat : RoomAt L s p b n r) (hgt : b.free.toNat < n.toNat) :
    ∃ raw, answer L s p b.content n = some (base r - PREFIX_SIZE, raw) := by
  cases hat with
  | stays hle => omega
  | asks _ hsome => exact ⟨_, (answer_eq hsize).trans hsome⟩

include h hp hsize hlen hi

/-- The copy is from where the string was, which is gone if the string is not there any more. -/
theorem wp_self_append {Q : Addr → State Globals → Prop}
    (hE : b.free.toNat < n.toNat → answer L s p b.content n = none → E .abort)
    (hub : ∀ r, RoomAt L s p b n r → r ≠ p → E .ub)
    (hQ : ∀ s' free rest, RoomAt L s p b n p →
      Makes s.mem {base p} s'.mem p ⟨b.len + n, free, b.content ++ slice b.content i n.toNat ++ 0 :: rest⟩ → Q p s') :
    wp E (sdscatlen L p (inside p i) n) Q s := by
  rw [answer_eq hsize] at hE
  have hbs : (slice b.content i n.toNat).length = n.toNat := slice_length hi
  have hcontent : b.content.length = b.len.toNat := List.length_take_of_le (by omega)
  apply wp_sdscatlen_room (P := fun r => r = p ∧ RoomAt L s p b n p) h hp hsize hlen hbs.symm (by omega) hE
  · intro r s' c hat hr hb
    by_cases heq : r = p
    · obtain rfl := heq
      rw [wp_readChars (reads_inside hr.str hb (by omega) hi)]
      exact ⟨rfl, rfl, rfl, hat⟩
    · have hgone : block s'.mem (base p) = none := by
        refine hr.update.freed _ (Multiset.mem_singleton_self _) fun hmem => heq ?_
        exact (base_sds_inj.mp (Multiset.mem_singleton.mp hmem)).symm
      exact wp_getBytes_dead (hub r hat heq) hgone
  · rintro r s' free rest ⟨rfl, hat⟩ hr - - -
    exact hQ s' free rest hat hr

theorem self_append_ends (hshort : b.len.toNat + n.toNat < 2 ^ 31) : SelfAppend L s p b.content b.free i n := by
  have hcontent : b.content.length = b.len.toNat := List.length_take_of_le (by omega)
  refine ⟨fun hfits => ?_, fun hgt hnone => wp.eq_error ?_, fun hgt q raw hsome hne => wp.eq_error ?_⟩
  · have hanswer : b.free.toNat < n.toNat → ∃ raw, answer L s p b.content n = some (base p - PREFIX_SIZE, raw) :=
      fun hgt => hfits.resolve_left (by omega)
    have hwp : wp Never (sdscatlen L p (inside p i) n) (fun r s' => r = p ∧ ∃ avail',
        Seen s' p (b.content ++ slice b.content i n.toNat) avail' ∧
        getChar p (b.content.length + n.toNat) s' = .ok (0, s') ∧ ∀ q ≠ base p, block s'.mem q = block s.mem q) s := by
      refine wp_self_append h hp hsize hlen hi (fun hgt hnone => ?_) (fun r hat hne => hne ?_)
        fun s' free rest _ hr => ⟨rfl, free, ?_, ?_, fun q hq => ?_⟩
      · obtain ⟨raw, hraw⟩ := hanswer hgt
        exact absurd (hraw.symm.trans hnone) (Option.some_ne_none _)
      · rcases Nat.lt_or_ge b.free.toNat n.toNat with hgt | hle
        · obtain ⟨raw, hraw⟩ := hanswer hgt
          obtain ⟨raw', hraw'⟩ := hat.asked hsize hgt
          exact base_sds_inj.mp (base_inj.mp (Prod.mk.inj (Option.some.inj (hraw'.symm.trans hraw))).1)
        · exact hat.eq_of_le hle
      · exact appended_seen hr.str hcontent (slice_length hi) hshort
      · have hlength : (b.content ++ slice b.content i n.toNat).length = b.content.length + n.toNat := by
          rw [List.length_append, slice_length hi]
        rw [getChar_iff hr.str, ← hlength, List.getElem?_append_right le_rfl, Nat.sub_self]
        rfl
      · have hnot : q ∉ ({base p} : Multiset Addr) := fun hmem => hq (Multiset.mem_singleton.mp hmem)
        exact hr.update.frame q hnot hnot
    obtain ⟨r, s', hok, rfl, avail', hseen⟩ := hwp.run
    exact ⟨s', avail', hok, hseen⟩
  · have hno : ∀ r, ¬ RoomAt L s p b n r := fun r hat => by
      obtain ⟨raw, hraw⟩ := hat.asked hsize hgt
      exact absurd (hraw.symm.trans hnone) (Option.some_ne_none _)
    exact wp_self_append h hp hsize hlen hi (fun _ _ => rfl) (fun r hat => absurd hat (hno r))
      fun s' free rest hat => absurd hat (hno p)
  · refine wp_self_append h hp hsize hlen hi (fun _ hnone => ?_) (fun _ _ _ => rfl) fun s' free rest hat => ?_
    · exact absurd (hsome.symm.trans hnone) (Option.some_ne_none _)
    · obtain ⟨raw', hraw⟩ := hat.asked hsize hgt
      exact absurd (Prod.mk.inj (Option.some.inj (hsome.symm.trans hraw))).1 hne

end Append

/-- In every run of the string functions, an append of bytes of the string itself is right if they fit into its
room or `realloc` leaves the string where it is; if it moves the string, the append is undefined. -/
theorem sdscatlen_itself (L : Libc) (s₀ s : State Globals) (ls : Finset Addr)
    (tr : List ((State Globals × Finset Addr) × (SOp ⊕ Addr))) (hrun : Run (gstep L) (s₀, ∅) tr (s, ls))
    (hshort : Always AllShort tr (s, ls)) (p : Addr) (hp : p ∈ ls) :
    ∃ c avail, c.length < 2 ^ 31 ∧ Seen s p c avail ∧ ∀ (i : ℕ) (n : Word), i + n.toNat ≤ c.length →
      c.length + n.toNat < 2 ^ 31 → SelfAppend L s p c avail i n := by
  obtain ⟨es, W, -, hbook⟩ := gstep_books hrun hshort
  obtain ⟨y, W', rfl, rfl, -, -⟩ := hbook.find hp
  obtain ⟨hnull, ⟨b, hstr, hb⟩, -⟩ := hbook.tracked y (Multiset.mem_cons_self y W')
  have hlt : b.len.toNat < 2 ^ 31 := short_len hshort.last hp hstr
  have hsize : b.chars.length = b.len.toNat + b.free.toNat + 1 := by rw [hb.chars, hb.len, hb.free]
  have hcontent : b.content.length = b.len.toNat := List.length_take_of_le (by omega)
  refine ⟨b.content, b.free, by omega, seen_of hstr hlt (by omega), fun i n hi hsum => ?_⟩
  exact self_append_ends hstr hnull hsize hlt hi (by omega)

theorem sdscatlen_itself_grown : ∃ c avail, c.length < 2 ^ 31 ∧ Seen grow₃ 0x2018 c avail ∧
    ∀ (i : ℕ) (n : Word), i + n.toNat ≤ c.length → c.length + n.toNat < 2 ^ 31 →
      SelfAppend (bump 0) grow₃ 0x2018 c avail i n :=
  sdscatlen_itself (bump 0) zinit grow₃ {0x2018} growRun run_grow short_grow 0x2018 (Finset.mem_singleton_self _)

end Redis
