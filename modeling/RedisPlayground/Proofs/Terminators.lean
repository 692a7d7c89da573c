import RedisPlayground.Proofs.StringRuns

/-! Which string functions leave a NUL behind the content. All but `sdsclear`
store one themselves, whatever their arguments are; so runs of any kind are
considered here that do not end in undefined behaviour. -/

namespace Redis

open CMem

variable {L : Libc} {m m' m₀ : Mem} {s s' : State Globals} {p q r : Addr} {b : Buf} {i n : ℕ}
  {w : Word} {bs cs : List Byte} {S : Multiset Addr} {t : CharPtr} {α : Type} {E : Stop → Prop} {B : Prop}

/-- `p` is a string, and `buf[len]` is NUL. -/
structure Ends (m : Mem) (p : Addr) (b : Buf) : Prop where
  str : StrAt m p b
  nul : b.chars[b.len.toNat]? = some 0

theorem readOnly_zsizeof : ReadOnly (zsizeof p) := (readOnly_readAt _ _ _).bind fun _ => readOnly_pure _

theorem readOnly_readChars : ReadOnly (readChars t n) := by
  cases t with
  | null => exact readOnly_stop _
  | ext bytes => exact (readOnly_pure _).ite (readOnly_stop _)
  | heap q off => exact readOnly_getBytes _

theorem readOnly_cstring : ReadOnly (cstring t) := by
  have hrest : ReadOnly (restChars t) := by
    cases t with
    | null => exact readOnly_stop _
    | ext bytes => exact readOnly_pure _
    | heap q off => exact readOnly_zsizeof.bind fun _ => readOnly_getBytes _
  exact hrest.bind fun _ => (readOnly_pure _).ite (readOnly_stop _)

theorem readOnly_strlen : ReadOnly (strlen t) := readOnly_cstring.bind fun _ => readOnly_pure _

theorem readOnly_strchr {c : Byte} : ReadOnly (strchr t c) := readOnly_cstring.bind fun _ => readOnly_pure _

theorem readOnly_getChar : ReadOnly (getChar p i) := (readOnly_getBytes _).bind fun _ => readOnly_pure _

theorem readOnly_sdslen : ReadOnly (sdslen p) := readOnly_getField.bind fun _ => readOnly_pure _

theorem readOnly_sdslenSize : ReadOnly (sdslenSize p) := readOnly_sdslen.bind fun _ => readOnly_pure _

theorem readOnly_sdstrimFront {k : ℤ} : ReadOnly (sdstrimFront p t n k) := by
  induction n generalizing k with
  | zero => exact readOnly_pure _
  | succ n ih =>
    exact readOnly_getChar.bind fun _ => readOnly_strchr.bind fun _ => ih.ite (readOnly_pure _)

theorem readOnly_sdstrimBack {k : ℤ} : ReadOnly (sdstrimBack p t n k) := by
  induction n generalizing k with
  | zero => exact readOnly_pure _
  | succ n ih =>
    exact readOnly_getChar.bind fun _ => readOnly_strchr.bind fun _ => ih.ite (readOnly_pure _)

theorem getChar_iff {c : Byte} (h : StrAt s.mem p b) :
    getChar p i s = .ok (c, s) ↔ b.chars[i]? = some c := by
  constructor
  · intro hok
    have hwp : wp Any (getChar p i) (fun c _ => b.chars[i]? = some c) s := by
      rw [getChar, wp_bind, ← base]
      refine wp_getBytes_of trivial h fun hn => ?_
      have hi : i < b.chars.length := by
        rw [Buf.bytes_length, show sdshdr.buf = 16 from rfl] at hn
        omega
      rw [slice_chars, slice_singleton hi, List.getElem?_eq_getElem hi]
      rfl
    exact hwp.of_ok hok
  · intro hc
    obtain ⟨hi, hget⟩ := List.getElem?_eq_some_iff.mp hc
    refine wp.eq_ok ?_
    rw [getChar, wp_bind, ← base, wp_getChars h hi, slice_singleton hi, hget]
    exact ⟨rfl, rfl⟩

/-- The character behind the content. -/
theorem nextChar_iff {c : Byte} (h : StrAt s.mem p b) :
    (∃ len, getField (base p) sdshdr.len s = .ok (len, s) ∧ getChar p len.toNat s = .ok (c, s)) ↔
      b.chars[b.len.toNat]? = some c := by
  have hlen : getField (base p) sdshdr.len s = .ok (b.len, s) := wp.eq_ok ((wp_getLen h).mpr ⟨rfl, rfl⟩)
  constructor
  · rintro ⟨len, hget, hc⟩
    obtain rfl : b.len = len := by
      rw [hlen, Except.ok.injEq, Prod.mk.injEq] at hget
      exact hget.1
    exact (getChar_iff h).mp hc
  · exact fun hc => ⟨b.len, hlen, (getChar_iff h).mpr hc⟩

/-- Storing the terminator where the length says. -/
theorem set_nul (hi : i < cs.length) : (splice cs i [0])[i]? = some 0 := by
  rw [splice_singleton hi, List.getElem?_set_self hi]

/-- An access to the buffer, for a reader who accepts one outside of it too. -/
theorem Makes.setChars_or {Q : Unit → State Globals → Prop} (h : Makes m₀ S s.mem p b)
    (hE : E .ub ∨ i + bs.length ≤ b.chars.length)
    (hQ : i + bs.length ≤ b.chars.length → ∀ m,
      Makes m₀ S m p { b with chars := splice b.chars i bs } → Q () { s with mem := m }) :
    wp E (Redis.setChars p i bs) Q s := by
  by_cases hn : i + bs.length ≤ b.chars.length
  · exact h.setChars hn (hQ hn)
  · rw [Redis.setChars, ← base]
    apply wp_setBytes_of (hE.resolve_right hn) h.str
    intro hle
    rw [Buf.bytes_length, show sdshdr.buf = 16 from rfl] at hle
    omega

theorem Makes.setChars_of {Q : Unit → State Globals → Prop} (h : Makes m₀ S s.mem p b)
    (hQ : i + bs.length ≤ b.chars.length → ∀ m,
      Makes m₀ S m p { b with chars := splice b.chars i bs } → Q () { s with mem := m }) :
    wp Any (Redis.setChars p i bs) Q s := h.setChars_or (Or.inl trivial) hQ

theorem wp_getChars_or {Q : List Byte → State Globals → Prop} (h : StrAt s.mem p b)
    (hE : E .ub ∨ i + n ≤ b.chars.length)
    (hQ : i + n ≤ b.chars.length → Q (slice b.chars i n) s) :
    wp E (getBytes (base p) (sdshdr.buf + i) n) Q s := by
  by_cases hn : i + n ≤ b.chars.length
  · exact (wp_getChars h hn).mpr (hQ hn)
  · apply wp_getBytes_of (hE.resolve_right hn) h
    intro hle
    rw [Buf.bytes_length, show sdshdr.buf = 16 from rfl] at hle
    omega

theorem readChars_length (h : readChars t n s = .ok (bs, s')) : bs.length = n := by
  have hblock : ∀ {q off}, readAt q off n s = .ok (bs, s') → bs.length = n := by
    intro q off hok
    have hwp : wp Any (readAt q off n) (fun bs _ => bs.length = n) s :=
      wp_readAt_of trivial fun cs _ _ hn => slice_length hn
    exact hwp.of_ok hok
  cases t with
  | null => cases h
  | ext bytes =>
    rw [readChars] at h
    split at h
    · next hn =>
      obtain ⟨rfl, -⟩ := Prod.mk.inj (Except.ok.inj h)
      exact List.length_take_of_le hn
    · cases h
  | heap q off =>
    rw [readChars, getBytes] at h
    split at h
    · cases h
    · exact hblock h

/-- What is read through a pointer is what is there, if anything is read. -/
theorem wp_readChars_any {Q : List Byte → State Globals → Prop}
    (hQ : ∀ bs, bs.length = n → (∀ cs, Reads s.mem t n cs → bs = cs) → Q bs s) :
    wp Any (readChars t n) Q s := by
  apply wp_any
  intro bs s' hok
  obtain rfl := readOnly_readChars s bs s' hok
  apply hQ bs (readChars_length hok)
  intro cs hreads
  have hwp : wp Any (readChars t n) (fun bs _ => bs = cs) s' := (wp_readChars hreads).mpr rfl
  exact hwp.of_ok hok

/-- A block that is too short for a header. -/
theorem wp_setFree_short {Q : Unit → State Globals → Prop} (h : Holds s.mem q cs)
    (hlt : cs.length < 16) : wp Any (setField q sdshdr.free w) Q s := by
  refine wp_setBytes_of trivial h fun hle => absurd hle ?_
  rw [wordBytes_length, show 8 * sdshdr.free = 8 from rfl]
  omega

/-- What a function leaves: a string with the text `c` and a terminator behind it. -/
structure Stores (m₀ : Mem) (S : Multiset Addr) (m : Mem) (p : Addr) (b : Buf) (c : List Byte) : Prop where
  makes : Makes m₀ S m p b
  ne_null : p ≠ NULL
  content : b.content = c
  length : b.len.toNat = c.length
  nul : b.chars[b.len.toNat]? = some 0

/-- A string that ends, and nothing else touched. -/
structure LeavesEnd (m₀ : Mem) (S : Multiset Addr) (m : Mem) (p : Addr) : Prop where
  update : Updates m₀ m S {base p}
  ends : ∃ b, Ends m p b
  ne_null : p ≠ NULL

theorem Stores.ends {c : List Byte} (h : Stores m₀ S m p b c) : LeavesEnd m₀ S m p :=
  ⟨h.makes.update, ⟨b, h.makes.str, h.nul⟩, h.ne_null⟩

/-- What a function that owns `S` took for the bytes at a pointer. -/
structure Took (m : Mem) (S : Multiset Addr) (t : CharPtr) (n : ℕ) (bs : List Byte) : Prop where
  length : bs.length = n
  reads : t.Avoids S → ∀ cs, Reads m t n cs → bs = cs

theorem wp_readChars_took {Q : List Byte → State Globals → Prop} {S' : Multiset Addr}
    (hu : Updates m₀ s.mem S S') (hQ : ∀ bs, Took m₀ S t n bs → Q bs s) : wp Any (readChars t n) Q s := by
  apply wp_readChars_any
  intro bs hlen hbs
  exact hQ bs ⟨hlen, fun hav cs hreads => hbs cs (hreads.update hu hav)⟩

/-- Some bytes, and a terminator behind them. -/
theorem take_stored (h : i + bs.length < cs.length) :
    (splice (splice cs i bs) (i + bs.length) [0]).take (i + bs.length) = cs.take i ++ bs := by
  rw [splice_splice_cons h, ← List.append_assoc]
  apply List.take_left'
  rw [List.length_append, List.length_take_of_le (by omega)]

/-- The last store of most functions. -/
theorem Makes.terminate {Q : Unit → State Globals → Prop} {free : Word}
    (h : Makes m₀ S s.mem p ⟨w, free, splice cs i bs⟩) (hp : p ≠ NULL) (hw : w.toNat = i + bs.length)
    (hin : i + bs.length ≤ cs.length)
    (hQ : ∀ m b, Stores m₀ S m p b (cs.take i ++ bs) → b.free = free → b.chars.length = cs.length →
      i + bs.length < cs.length → Q () { s with mem := m }) :
    wp Any (Redis.setChars p w.toNat [0]) Q s := by
  have hlen : (splice cs i bs).length = cs.length := splice_length hin
  apply h.setChars_of
  intro hn m hm
  rw [List.length_singleton] at hn
  change w.toNat + 1 ≤ (splice cs i bs).length at hn
  refine hQ m _ ⟨hm, hp, ?_, ?_, set_nul hn⟩ rfl ?_ (by omega)
  · rw [Buf.content, hw]
    exact take_stored (by omega)
  · rw [List.length_append, List.length_take_of_le (by omega), hw]
  · rw [splice_length (by rw [List.length_singleton]; exact hn)]
    exact hlen

/-- A new block becomes a string, unless it is too short for a header. -/
theorem string_of_block (hq : Holds m q cs) (hu : Updates m₀ m S {q})
    (hend : Placed L q cs.length) (hlen : 16 ≤ cs.length) :
    ∃ p b, q = base p ∧ p ≠ NULL ∧ b.bytes = cs ∧ Makes m₀ S m p b := by
  obtain ⟨b, rfl, -⟩ := exists_buf (n := cs.length - 16) (Nat.add_sub_cancel' hlen).symm
  refine ⟨q + sdshdr.sizeof, b, base_add.symm, sds_ne_null hend.lt hlen, rfl, ?_, ?_⟩
  · rwa [base_add]
  · rwa [StrAt, base_add]

theorem sdsfill_took {init : CharPtr} {Q : Unit → State Globals → Prop} (h : Makes m₀ 0 s.mem p b)
    (hQ : ∀ c m, Took m₀ 0 init w.toNat c → c.length ≤ b.chars.length →
      Makes m₀ 0 m p { b with chars := splice b.chars 0 c } → Q () { s with mem := m }) :
    wp Any (if w = 0 then return () else sdsfill p init w) Q s := by
  have hstore : ∀ c, Took m₀ 0 init w.toNat c → wp Any (Redis.setChars p 0 c) Q s := by
    intro c hc
    apply h.setChars_of
    intro hn m hm
    exact hQ c m hc (by omega) hm
  rw [wp_ite]
  constructor
  · rintro rfl
    have hm := hQ [] s.mem ⟨rfl, fun _ cs hreads => (List.length_eq_zero_iff.mp hreads.length).symm⟩
      (Nat.zero_le _)
    rw [splice_nil] at hm
    exact wp_pure.mpr (hm h)
  · intro _
    cases init with
    | null => exact hstore _ ⟨List.length_replicate, fun _ cs hreads => hreads.elim⟩
    | _ => exact wp_bind.mpr (wp_readChars_took h.update fun bs hbs => hstore bs hbs)

/-- The block of a new string. -/
structure Allots (L : Libc) (t : List Event) (size : Word) (r : Addr) (t' : List Event) (b : Buf) : Prop where
  trace : t' = .malloc (size + PREFIX_SIZE) (base r - PREFIX_SIZE) :: t
  fits : size.toNat + 8 < 2 ^ 64
  chars : 16 + b.chars.length = size.toNat
  bounded : L.Bounded → b.chars.length < 2 ^ 63

theorem sdsnewlen_told {init : CharPtr} :
    wp Any (sdsnewlen L init w) (fun r s' => ∃ b c, Stores s.mem 0 s'.mem r b c ∧ Took s.mem 0 init w.toNat c ∧
      b.free = 0 ∧ Allots L s.trace (sdshdr.sizeof + w + 1) r s'.trace b) s := by
  rw [sdsnewlen, wp_bind]
  refine zmalloc_told fun q cs g hfresh hsize hend hfit => ?_
  have hfits := hend.lt
  have hq : Holds (put s.mem q cs) q cs := hfresh.put (by omega)
  rw [if_neg hfresh.ne_null, wp_bind]
  rcases Nat.lt_or_ge cs.length 16 with hshort | hlong
  · refine wp_setBytes_of trivial hq fun hle => ?_
    rw [wp_bind]
    exact wp_setFree_short (hq.put (splice_length hle)) (by rwa [splice_length hle])
  · obtain ⟨p, b, rfl, hnull, hb, h⟩ := string_of_block hq (updates_put hfresh.block) hend hlong
    have hbytes := congrArg List.length hb
    rw [Buf.bytes_length] at hbytes
    refine h.setLen fun m h => wp_bind.mpr (h.setFree fun m h => wp_bind.mpr ?_)
    rw [add_base]
    apply sdsfill_took h
    intro c m hc hle h
    rw [wp_bind]
    have h : Makes s.mem 0 m p ⟨w, 0, splice b.chars 0 c⟩ := h
    apply h.terminate hnull (by rw [hc.length, Nat.zero_add]) (by rw [Nat.zero_add]; exact hle)
    intro m b' hm hfree hlen _
    rw [List.take_zero, List.nil_append] at hm
    refine wp_pure.mpr ⟨b', c, hm, hc, hfree, rfl, hfit, by omega, fun hL => ?_⟩
    have hbound := hend.bounded hL
    omega

theorem sdsnewlen_text {init : CharPtr} :
    wp Any (sdsnewlen L init w) (fun r s' => ∃ b c, Stores s.mem 0 s'.mem r b c ∧
      Took s.mem 0 init w.toNat c ∧ (L.Bounded → b.chars.length < 2 ^ 63)) s := by
  apply sdsnewlen_told.mono
  rintro r s' ⟨b, c, hm, hc, -, hnew⟩
  exact ⟨b, c, hm, hc, hnew.bounded⟩

theorem sdsnewlen_ends {init : CharPtr} :
    wp Any (sdsnewlen L init w) (fun r s' => LeavesEnd s.mem 0 s'.mem r) s := by
  apply sdsnewlen_text.mono
  rintro r s' ⟨b, c, h, -, -⟩
  exact h.ends

/-- A string with more or less room behind it. -/
structure Resized (L : Libc) (b b' : Buf) : Prop where
  len : b'.len = b.len
  chars : b'.chars.take b.chars.length = b.chars.take b'.chars.length
  bounded : L.Bounded → b.chars.length < 2 ^ 63 → b'.chars.length < 2 ^ 63

theorem Resized.refl : Resized L b b := ⟨rfl, rfl, fun _ h => h⟩

theorem Resized.take {b' : Buf} (h : Resized L b b') (hn : n ≤ b.chars.length) (hn' : n ≤ b'.chars.length) :
    b'.chars.take n = b.chars.take n := by
  have htake := congrArg (List.take n) h.chars
  rwa [List.take_take, List.take_take, Nat.min_eq_left hn, Nat.min_eq_left hn'] at htake

/-- What `sdsMakeRoomFor` has done to get `w` bytes of room. -/
inductive Roomed (t : List Event) (p : Addr) (b : Buf) (w : Word) : Addr → List Event → Buf → Prop where
  | fits : w.toNat ≤ b.free.toNat → Roomed t p b w p t b
  | moved {r b'} : b.free.toNat < w.toNat → (sdshdr.sizeof + (b.len + w) * 2 + 1).toNat + 8 < 2 ^ 64 →
      b'.free = (b.len + w) * 2 - b.len → 16 + b'.chars.length = (sdshdr.sizeof + (b.len + w) * 2 + 1).toNat →
      Roomed t p b w r (.realloc (base p - PREFIX_SIZE) (sdshdr.sizeof + (b.len + w) * 2 + 1 + PREFIX_SIZE)
        (base r - PREFIX_SIZE) :: t) b'

theorem sdsMakeRoomFor_told (h : StrAt s.mem p b) (hnull : p ≠ NULL) :
    wp Any (sdsMakeRoomFor L p w) (fun r s' => ∃ b', Makes s.mem {base p} s'.mem r b' ∧ r ≠ NULL ∧
      Resized L b b' ∧ Roomed s.trace p b w r s'.trace b') s := by
  rw [sdsMakeRoomFor, wp_bind, sdsavail, ← base, wp_getFree h, wp_ite]
  refine ⟨fun hle => wp_pure.mpr ⟨b, Makes.refl h, hnull, Resized.refl, .fits (BitVec.le_def.mp hle)⟩, fun hgt => ?_⟩
  rw [wp_bind, wp_getLen h, wp_bind]
  refine zremalloc_told h fun q cs g hfresh hsize htake hend hfit => ?_
  have hfits := hend.lt
  have hq : Holds (put (del s.mem (base p)) q cs) q cs := hfresh.put (by omega)
  rw [if_neg hfresh.ne_null, wp_bind]
  rcases Nat.lt_or_ge cs.length 16 with hshort | hlong
  · refine readOnly_getField.wp fun _ => ?_
    rw [wp_bind]
    exact wp_setFree_short hq hshort
  · obtain ⟨r, b', rfl, hnull, rfl, h⟩ := string_of_block hq (updates_move hfresh.block) hend hlong
    rw [Buf.bytes_length, Buf.bytes_length] at htake
    rw [Buf.bytes_length] at hsize
    have hlen : b'.len = b.len := by
      have hlen := congrArg (List.take 8) htake
      rw [List.take_take, List.take_take, Nat.min_eq_left (by omega), Nat.min_eq_left (by omega), Buf.bytes,
        Buf.bytes, List.take_left' (by simp), List.take_left' (by simp)] at hlen
      rw [← bytesWord_wordBytes b.len, ← hlen, bytesWord_wordBytes]
    rw [wp_getLen h.str, wp_bind, add_base, hlen]
    refine h.setFree fun m h => wp_pure.mpr ⟨_, h, hnull, ⟨hlen, ?_, ?_⟩, ?_⟩
    · have hchars := congrArg (List.drop 16) htake
      rw [List.drop_take, List.drop_take, Nat.add_sub_cancel_left, Nat.add_sub_cancel_left] at hchars
      rwa [show 16 = sdshdr.buf from rfl, Buf.bytes_drop, Buf.bytes_drop] at hchars
    · intro hL _
      have hbound := hend.bounded hL
      rw [Buf.bytes_length] at hbound
      exact Nat.lt_of_le_of_lt (Nat.le_add_left _ 16) hbound
    · exact .moved (BitVec.lt_def.mp (BitVec.not_le.mp hgt)) hfit rfl hsize

/-- The value of `sdslen` as a `size_t`. -/
def Buf.sizeLen (b : Buf) : Word := (b.len.setWidth 32).signExtend 64

theorem sdscatlen_told (h : StrAt s.mem p b) (hnull : p ≠ NULL) :
    wp Any (sdscatlen L p t w) (fun r s' => ∃ b₁ b' bs, Resized L b b₁ ∧ Roomed s.trace p b w r s'.trace b₁ ∧
      Stores s.mem {base p} s'.mem r b' (b₁.chars.take b.sizeLen.toNat ++ bs) ∧ b'.free = b₁.free - w ∧
      b'.chars.length = b₁.chars.length ∧ b.sizeLen.toNat < b₁.chars.length ∧
      Took s.mem {base p} t w.toNat bs) s := by
  rw [sdscatlen, wp_bind, wp_sdslenSize_any h, wp_bind]
  apply (sdsMakeRoomFor_told h hnull).mono
  rintro r s' ⟨b₁, h, hr, hsized, hroom⟩
  have hfits := h.str.fits
  rw [Buf.bytes_length] at hfits
  rw [if_neg hr, wp_bind, ← base]
  apply wp_readChars_took h.update
  intro bs hbs
  rw [wp_bind, ← Buf.sizeLen]
  apply h.setChars_of
  intro hn m h
  have hsum : (b.sizeLen + w).toNat = b.sizeLen.toNat + bs.length := by
    rw [BitVec.toNat_add, hbs.length]
    have := hbs.length
    omega
  rw [wp_bind]
  apply h.setLen
  intro m h
  rw [wp_bind, wp_getFree h.str, wp_bind]
  apply h.setFree
  intro m h
  rw [wp_bind]
  apply Makes.terminate h hr hsum hn
  intro m b' hm hfree hlen hlt
  exact wp_pure.mpr ⟨b₁, b', bs, hsized, hroom, hm, hfree, hlen, by omega, hbs⟩

theorem sdscatlen_text (h : StrAt s.mem p b) (hnull : p ≠ NULL) :
    wp Any (sdscatlen L p t w) (fun r s' => ∃ b₁ b' bs, Resized L b b₁ ∧
      Stores s.mem {base p} s'.mem r b' (b₁.chars.take b.sizeLen.toNat ++ bs) ∧
      b'.chars.length = b₁.chars.length ∧ b.sizeLen.toNat < b₁.chars.length ∧
      Took s.mem {base p} t w.toNat bs) s := by
  apply (sdscatlen_told h hnull).mono
  rintro r s' ⟨b₁, b', bs, hsized, -, hm, -, hlen, hlt, hbs⟩
  exact ⟨b₁, b', bs, hsized, hm, hlen, hlt, hbs⟩

theorem sdscatlen_ends (h : StrAt s.mem p b) (hnull : p ≠ NULL) :
    wp Any (sdscatlen L p t w) (fun r s' => LeavesEnd s.mem {base p} s'.mem r) s := by
  apply (sdscatlen_text h hnull).mono
  rintro r s' ⟨b₁, b', bs, -, hm, -⟩
  exact hm.ends

/-- What `sdscpyRoom` has done to hold `w` bytes. -/
inductive CpyRoomed (t : List Event) (p : Addr) (b : Buf) (w : Word) : Addr → Word → List Event → Buf → Prop where
  | fits : w.toNat ≤ (b.free + b.len).toNat → CpyRoomed t p b w p (b.free + b.len) t b
  | room {r t' b'} : (b.free + b.len).toNat < w.toNat → Roomed t p b (w - b.len) r t' b' →
      CpyRoomed t p b w r (b'.free + b'.len) t' b'

theorem sdscpyRoom_told (h : StrAt s.mem p b) (hnull : p ≠ NULL) :
    wp Any (sdscpyRoom L p w) (fun r s' => ∃ b', Makes s.mem {base p} s'.mem r.1 b' ∧ r.1 ≠ NULL ∧
      Resized L b b' ∧ CpyRoomed s.trace p b w r.1 r.2 s'.trace b') s := by
  rw [sdscpyRoom, wp_bind, ← base, wp_getFree h, wp_bind, wp_getLen h, wp_ite]
  refine ⟨fun hlt => ?_, fun hle => wp_pure.mpr ⟨b, Makes.refl h, hnull, Resized.refl, .fits ?_⟩⟩
  · rw [wp_bind]
    apply (sdsMakeRoomFor_told h hnull).mono
    rintro r s' ⟨b', h, hr, hsized, hroom⟩
    rw [if_neg hr, ← base, wp_bind, wp_getFree h.str, wp_bind, wp_getLen h.str]
    exact wp_pure.mpr ⟨b', h, hr, hsized, .room (BitVec.lt_def.mp hlt) hroom⟩
  · exact BitVec.le_def.mp (BitVec.not_lt.mp hle)

theorem sdscpylen_told (h : StrAt s.mem p b) (hnull : p ≠ NULL) :
    wp Any (sdscpylen L p t w) (fun r s' => ∃ b₁ b' bs totlen, Resized L b b₁ ∧
      CpyRoomed s.trace p b w r totlen s'.trace b₁ ∧ Stores s.mem {base p} s'.mem r b' bs ∧
      b'.free = totlen - w ∧ b'.chars.length = b₁.chars.length ∧ Took s.mem {base p} t w.toNat bs) s := by
  rw [sdscpylen, wp_bind]
  apply (sdscpyRoom_told h hnull).mono
  rintro ⟨r, totlen⟩ s' ⟨b₁, h, hr, hsized, hroom⟩
  rw [wp_bind, ← base]
  apply wp_readChars_took h.update
  intro bs hbs
  rw [wp_bind]
  apply h.setChars_of
  intro hle m h
  have hlen : (splice b₁.chars 0 bs).length = b₁.chars.length := splice_length hle
  rw [wp_bind]
  apply h.setChars_of
  intro hn m h
  rw [List.length_singleton] at hn
  change w.toNat + 1 ≤ (splice b₁.chars 0 bs).length at hn
  rw [wp_bind]
  apply h.setLen
  intro m h
  rw [wp_bind]
  apply h.setFree
  intro m h
  refine wp_pure.mpr ⟨b₁, _, bs, totlen, hsized, hroom, ⟨h, hr, ?_, hbs.length.symm, set_nul hn⟩, rfl, ?_, hbs⟩
  · have hbs' := hbs.length
    have htake : (splice (splice b₁.chars 0 bs) (0 + bs.length) [0]).take (0 + bs.length) = _ :=
      take_stored (by omega)
    rw [Nat.zero_add, List.take_zero, List.nil_append, hbs'] at htake
    exact htake
  · rw [splice_length (by rw [List.length_singleton]; exact hn)]
    exact hlen

theorem sdscpylen_text (h : StrAt s.mem p b) (hnull : p ≠ NULL) :
    wp Any (sdscpylen L p t w) (fun r s' => ∃ b₁ b' bs, Resized L b b₁ ∧
      Stores s.mem {base p} s'.mem r b' bs ∧ b'.chars.length = b₁.chars.length ∧
      Took s.mem {base p} t w.toNat bs) s := by
  apply (sdscpylen_told h hnull).mono
  rintro r s' ⟨b₁, b', bs, totlen, hsized, -, hm, -, hlen, hbs⟩
  exact ⟨b₁, b', bs, hsized, hm, hlen, hbs⟩

theorem sdscpylen_ends (h : StrAt s.mem p b) (hnull : p ≠ NULL) :
    wp Any (sdscpylen L p t w) (fun r s' => LeavesEnd s.mem {base p} s'.mem r) s := by
  apply (sdscpylen_text h hnull).mono
  rintro r s' ⟨b₁, b', bs, -, hm, -⟩
  exact hm.ends

/-- What `sdskeep` makes of a string. -/
def Buf.keep (b : Buf) (start : ℕ) (w : Word) : Buf where
  len := w
  free := b.free + (b.len - w)
  chars := slice b.chars start w.toNat ++ 0 :: b.chars.drop (w.toNat + 1)

theorem wp_sdskeep {Q : Unit → State Globals → Prop} (h : StrAt s.mem p b)
    (hE : E .ub ∨ n + w.toNat ≤ b.chars.length ∧ w.toNat < b.chars.length)
    (hQ : n + w.toNat ≤ b.chars.length → w.toNat < b.chars.length → ∀ m,
      Makes s.mem {base p} m p (b.keep n w) → Q () { s with mem := m }) :
    wp E (sdskeep p n w) Q s := by
  rw [sdskeep, wp_bind, ← base]
  apply wp_getChars_or h (hE.imp_right And.left)
  intro hread
  have hslice : (slice b.chars n w.toNat).length = w.toNat := slice_length hread
  rw [wp_bind]
  apply (Makes.refl h).setChars (by omega)
  intro m h
  rw [wp_bind, wp_getFree h.str, wp_bind, wp_getLen h.str, wp_bind]
  apply h.setFree
  intro m h
  rw [wp_bind]
  apply h.setLen
  intro m h
  have h : Makes s.mem {base p} m p
    ⟨w, b.free + (b.len - w), splice b.chars 0 (slice b.chars n w.toNat)⟩ := h
  have hlen : (splice b.chars 0 (slice b.chars n w.toNat)).length = b.chars.length :=
    splice_length (by omega)
  apply h.setChars_or
  · rw [hlen, List.length_singleton]
    exact hE.imp_right And.right
  · intro hstore m h
    rw [hlen, List.length_singleton] at hstore
    have hkeep : splice (splice b.chars 0 (slice b.chars n w.toNat)) (0 + w.toNat) [(0 : Byte)] =
        _ := hslice ▸ splice_splice_cons (by omega)
    rw [Nat.zero_add, List.take_zero, List.nil_append] at hkeep
    rw [hkeep] at h
    exact hQ hread hstore m h

theorem Makes.keep {c : List Byte} (h : Makes m₀ S m p (b.keep n w)) (hp : p ≠ NULL)
    (hn : n + w.toNat ≤ b.chars.length) (hc : slice b.chars n w.toNat = c) :
    Stores m₀ S m p (b.keep n w) c := by
  subst hc
  have hslice : (slice b.chars n w.toNat).length = w.toNat := slice_length hn
  refine ⟨h, hp, List.take_left' hslice, hslice.symm, ?_⟩
  simp [Buf.keep, hslice]

theorem sdskeep_ends (h : StrAt s.mem p b) (hp : p ≠ NULL) :
    wp Any (sdskeep p n w) (fun _ s' => LeavesEnd s.mem {base p} s'.mem p) s := by
  apply wp_sdskeep h (Or.inl trivial)
  intro hn _ m hm
  exact (hm.keep hp hn rfl).ends

theorem sdstrim_ends (h : StrAt s.mem p b) (hp : p ≠ NULL) :
    wp Any (sdstrim p t) (fun r s' => LeavesEnd s.mem {base p} s'.mem r) s := by
  rw [sdstrim, wp_bind]
  refine readOnly_sdslen.wp fun len => wp_bind.mpr (readOnly_sdstrimFront.wp fun sp => wp_bind.mpr ?_)
  refine readOnly_sdstrimBack.wp fun ep => wp_bind.mpr ?_
  exact (sdskeep_ends h hp).mono fun _ s' hm => wp_pure.mpr hm

theorem LeavesEnd.refl (h : Ends m p b) (hp : p ≠ NULL) : LeavesEnd m {base p} m p :=
  ⟨Update.refl (Multiset.nodup_singleton _), ⟨b, h⟩, hp⟩

theorem sdsrange_ends {start last : Word} (h : Ends s.mem p b) (hp : p ≠ NULL) :
    wp Any (sdsrange p start last) (fun r s' => LeavesEnd s.mem {base p} s'.mem r) s := by
  rw [sdsrange, wp_bind]
  refine readOnly_sdslenSize.wp fun len => wp_ite.mpr ⟨fun _ => ?_, fun _ => wp_bind.mpr ?_⟩
  · exact wp_pure.mpr (LeavesEnd.refl h hp)
  · exact (sdskeep_ends h.str hp).mono fun _ s' hm => wp_pure.mpr hm

/-- A loop that has come to its end has stayed inside the buffer. -/
theorem sdsmapLoop_text {f : Byte → Byte} (h : StrAt s.mem p b) :
    wp Any (sdsmapLoop f p n) (fun _ s' => n ≤ b.chars.length ∧
      Makes s.mem {base p} s'.mem p { b with chars := (b.chars.take n).map f ++ b.chars.drop n }) s := by
  induction n with
  | zero => exact wp_pure.mpr ⟨Nat.zero_le _, Makes.refl h⟩
  | succ n ih =>
    rw [sdsmapLoop, wp_bind]
    apply ih.mono
    rintro _ s' ⟨hn, hm⟩
    have hlen : ((b.chars.take n).map f ++ b.chars.drop n).length = b.chars.length := by
      simp only [List.length_append, List.length_map, List.length_take, List.length_drop]
      omega
    rw [wp_bind, getChar, wp_bind, ← base]
    apply wp_getChars_or hm.str (Or.inl trivial)
    intro hread
    change n + 1 ≤ ((b.chars.take n).map f ++ b.chars.drop n).length at hread
    rw [hlen] at hread
    rw [wp_pure]
    apply hm.setChars_of
    intro _ m hm
    rw [map_round hread] at hm
    exact ⟨hread, hm⟩

/-- A loop that maps NUL to NUL leaves every NUL where it is. -/
theorem map_nul {f : Byte → Byte} (hf : f 0 = 0) (h : cs[i]? = some 0) :
    ((cs.take n).map f ++ cs.drop n)[i]? = some 0 := by
  rcases Nat.lt_or_ge i n with hlt | hge
  · have hi : i < ((cs.take n).map f).length := by
      obtain ⟨hi, -⟩ := List.getElem?_eq_some_iff.mp h
      rw [List.length_map, List.length_take]
      omega
    rw [List.getElem?_append_left hi, List.getElem?_map, List.getElem?_take_of_lt hlt, h, Option.map_some, hf]
  · rcases Nat.lt_or_ge cs.length n with hlong | hle
    · rw [List.take_of_length_le hlong.le, List.drop_eq_nil_of_le hlong.le, List.append_nil,
        List.getElem?_map, h, Option.map_some, hf]
    · rw [List.getElem?_append_right (by simp; omega), List.length_map, List.length_take_of_le hle,
        List.getElem?_drop, Nat.add_sub_cancel' hge, h]

theorem sdsmap_ends {f : Byte → Byte} (hf : f 0 = 0) (h : Ends s.mem p b) (hp : p ≠ NULL) :
    wp Any (do let len ← sdslenSize p; sdsmapLoop f p len.toNat)
      (fun _ s' => LeavesEnd s.mem {base p} s'.mem p) s := by
  rw [wp_bind]
  apply readOnly_sdslenSize.wp
  intro len
  apply (sdsmapLoop_text h.str).mono
  rintro _ s' ⟨-, hm⟩
  exact ⟨hm.update, ⟨_, hm.str, map_nul hf h.nul⟩, hp⟩

/-- `sdsclear` leaves the characters as they are. -/
theorem sdsclear_keeps (h : StrAt s.mem p b) {E : Stop → Prop} : wp E (sdsclear p) (fun _ s' =>
    Makes s.mem {base p} s'.mem p { b with len := 0, free := b.free + b.len }) s := by
  rw [sdsclear, wp_bind, ← base, wp_getFree h, wp_bind, wp_getLen h, wp_bind]
  refine (Makes.refl h).setFree fun m h => ?_
  refine h.setLen fun m h => ?_
  exact h

end Redis
