import RedisPlayground.Spec.Sds
import RedisPlayground.Proofs.Cells

/-! The string functions of `sds.cc`, one rule for each. `Makes m₀ S m p b` says
that a function that owned the blocks `S` in `m₀` has turned the memory into `m`
and owns the string `p` with header and buffer `b`. -/

namespace Redis

open CMem

/-- What the block of a string contains. -/
structure Buf where
  len : Word
  free : Word
  chars : List Byte

def Buf.content (b : Buf) : List Byte := b.chars.take b.len.toNat

def Buf.bytes (b : Buf) : List Byte := wordBytes b.len ++ (wordBytes b.free ++ b.chars)

/-- The block of a string, by the pointer `zmalloc` gave out for it. -/
def base (p : Addr) : Addr := p - sdshdr.sizeof

def StrAt (m : Mem) (p : Addr) (b : Buf) : Prop := Holds m (base p) b.bytes

structure Makes (m₀ : Mem) (S : Multiset Addr) (m : Mem) (p : Addr) (b : Buf) : Prop where
  update : Updates m₀ m S {base p}
  str : StrAt m p b

variable {L : Libc} {m m' m₀ : Mem} {s : State Globals} {p q r : Addr} {b : Buf} {i n off : ℕ}
  {w : Word} {bs cs c room : List Byte} {E : Stop → Prop} {S S' : Multiset Addr} {t : CharPtr}

theorem base_sds_inj : base p = base q ↔ p = q := sub_left_inj

@[simp] theorem Buf.bytes_length : b.bytes.length = 16 + b.chars.length := by
  rw [Buf.bytes, List.length_append, List.length_append, wordBytes_length, wordBytes_length]
  omega

theorem Buf.bytes_drop : b.bytes.drop sdshdr.buf = b.chars := by
  rw [show sdshdr.buf = 8 + 8 from rfl, Buf.bytes, ← List.drop_drop, List.drop_left' (by simp),
    List.drop_left' (by simp)]

theorem Makes.refl (h : StrAt m p b) : Makes m {base p} m p b :=
  ⟨Update.refl (Multiset.nodup_singleton _), h⟩

theorem Makes.put {b' : Buf} (h : Makes m₀ S m p b) (hlen : b'.chars.length = b.chars.length) :
    Makes m₀ S (put m (base p) b'.bytes) p b' :=
  ⟨h.update.trans updates_put_self,
    Holds.put h.str (by rw [Buf.bytes_length, Buf.bytes_length, hlen])⟩

section Header

theorem slice_len : slice b.bytes (8 * sdshdr.len) 8 = wordBytes b.len := by
  rw [show 8 * sdshdr.len = 0 from rfl, Buf.bytes, slice_append_left (by simp), slice_zero,
    List.take_of_length_le (by simp)]

theorem slice_free : slice b.bytes (8 * sdshdr.free) 8 = wordBytes b.free := by
  rw [show 8 * sdshdr.free = 8 from rfl, Buf.bytes, slice_append_right (by simp), wordBytes_length,
    slice_append_left (by simp), slice_zero, List.take_of_length_le (by simp)]

theorem slice_chars : slice b.bytes (sdshdr.buf + i) n = slice b.chars i n := by
  rw [show sdshdr.buf = 8 + 8 from rfl, Buf.bytes, slice_append_right (by simp; omega),
    slice_append_right (by simp; omega), wordBytes_length, wordBytes_length]
  congr 1
  omega

theorem splice_len : splice b.bytes (8 * sdshdr.len) (wordBytes w) = Buf.bytes { b with len := w } := by
  rw [show 8 * sdshdr.len = 0 from rfl, Buf.bytes, splice_append_left (by simp),
    splice_self (by simp), Buf.bytes]

theorem splice_free : splice b.bytes (8 * sdshdr.free) (wordBytes w) = Buf.bytes { b with free := w } := by
  rw [show 8 * sdshdr.free = 8 from rfl, Buf.bytes, splice_append_right (by simp), wordBytes_length,
    splice_append_left (by simp), splice_self (by simp), Buf.bytes]

theorem splice_chars : splice b.bytes (sdshdr.buf + i) bs = Buf.bytes { b with chars := splice b.chars i bs } := by
  rw [show sdshdr.buf = 8 + 8 from rfl, Buf.bytes, splice_append_right (by simp; omega),
    splice_append_right (by simp; omega), wordBytes_length, wordBytes_length, Buf.bytes]
  congr 4
  omega

theorem wp_getLen {Q : Word → State Globals → Prop} (h : StrAt s.mem p b) :
    wp E (getField (base p) sdshdr.len) Q s ↔ Q b.len s := by
  have hn : 8 * sdshdr.len + 8 ≤ b.bytes.length := by
    rw [Buf.bytes_length]
    exact Nat.le_add_right_of_le (by decide)
  rw [getField, wp_bind, wp_getBytes h hn, wp_pure, slice_len, bytesWord_wordBytes]

theorem wp_getFree {Q : Word → State Globals → Prop} (h : StrAt s.mem p b) :
    wp E (getField (base p) sdshdr.free) Q s ↔ Q b.free s := by
  have hn : 8 * sdshdr.free + 8 ≤ b.bytes.length := by
    rw [Buf.bytes_length]
    exact Nat.le_add_right_of_le (by decide)
  rw [getField, wp_bind, wp_getBytes h hn, wp_pure, slice_free, bytesWord_wordBytes]

theorem Makes.setLen {Q : Unit → State Globals → Prop} (h : Makes m₀ S s.mem p b)
    (hQ : ∀ m, Makes m₀ S m p { b with len := w } → Q () { s with mem := m }) :
    wp E (setField (base p) sdshdr.len w) Q s := by
  have hn : 8 * sdshdr.len + (wordBytes w).length ≤ b.bytes.length := by
    rw [Buf.bytes_length, wordBytes_length]
    exact Nat.le_add_right_of_le (by decide)
  rw [setField, wp_setBytes h.str hn, splice_len]
  exact hQ _ (h.put rfl)

theorem Makes.setFree {Q : Unit → State Globals → Prop} (h : Makes m₀ S s.mem p b)
    (hQ : ∀ m, Makes m₀ S m p { b with free := w } → Q () { s with mem := m }) :
    wp E (setField (base p) sdshdr.free w) Q s := by
  have hn : 8 * sdshdr.free + (wordBytes w).length ≤ b.bytes.length := by
    rw [Buf.bytes_length, wordBytes_length]
    exact Nat.le_add_right_of_le (by decide)
  rw [setField, wp_setBytes h.str hn, splice_free]
  exact hQ _ (h.put rfl)

theorem wp_getChars {Q : List Byte → State Globals → Prop} (h : StrAt s.mem p b)
    (hn : i + n ≤ b.chars.length) :
    wp E (getBytes (base p) (sdshdr.buf + i) n) Q s ↔ Q (slice b.chars i n) s := by
  have hn' : sdshdr.buf + i + n ≤ b.bytes.length := by
    rw [Buf.bytes_length, show sdshdr.buf = 16 from rfl]
    omega
  rw [wp_getBytes h hn', slice_chars]

theorem Makes.setChars {Q : Unit → State Globals → Prop} (h : Makes m₀ S s.mem p b)
    (hn : i + bs.length ≤ b.chars.length)
    (hQ : ∀ m, Makes m₀ S m p { b with chars := splice b.chars i bs } → Q () { s with mem := m }) :
    wp E (setChars p i bs) Q s := by
  have hn' : sdshdr.buf + i + bs.length ≤ b.bytes.length := by
    rw [Buf.bytes_length, show sdshdr.buf = 16 from rfl]
    omega
  rw [Redis.setChars, ← base, wp_setBytes h.str hn', splice_chars]
  exact hQ _ (h.put (splice_length hn))

end Header

section Sources

/-- The bytes a caller gives with a pointer. -/
def Reads (m : Mem) (t : CharPtr) (n : ℕ) (bs : List Byte) : Prop :=
  match t with
  | .null => False
  | .ext bytes => n ≤ bytes.length ∧ bs = bytes.take n
  | .heap q off => ∃ cs, Holds m q cs ∧ off + n ≤ cs.length ∧ bs = slice cs off n

/-- A pointer that leads into none of some blocks. -/
def CharPtr.Avoids (S : Multiset Addr) : CharPtr → Prop
  | .heap q _ => q ∉ S
  | _ => True

theorem CharPtr.avoids_zero : t.Avoids 0 := by
  cases t with
  | heap q off => exact Multiset.notMem_zero q
  | _ => trivial

theorem Reads.length (h : Reads m t n bs) : bs.length = n := by
  cases t with
  | null => exact h.elim
  | ext bytes =>
    obtain ⟨hn, rfl⟩ := h
    exact List.length_take_of_le hn
  | heap q off =>
    obtain ⟨cs, -, hn, rfl⟩ := h
    exact slice_length hn

/-- A function that does not own the block it reads from finds it as it was. -/
theorem Reads.update (h : Reads m t n bs) (hu : Updates m m' S S') (ht : t.Avoids S) :
    Reads m' t n bs := by
  cases t with
  | null => exact h
  | ext bytes => exact h
  | heap q off =>
    obtain ⟨cs, hq, hn, rfl⟩ := h
    have hq' : q ∉ S' := fun hmem => hq.live (hu.fresh q hmem ht)
    exact ⟨cs, hq.congr (hu.frame q ht hq'), hn, rfl⟩

theorem wp_readChars {Q : List Byte → State Globals → Prop} (h : Reads s.mem t n bs) :
    wp E (readChars t n) Q s ↔ Q bs s := by
  cases t with
  | null => exact h.elim
  | ext bytes =>
    obtain ⟨hn, rfl⟩ := h
    rw [readChars, if_pos hn, wp_pure]
  | heap q off =>
    obtain ⟨cs, hq, hn, rfl⟩ := h
    rw [readChars, wp_getBytes hq hn]

theorem Reads.take {k : ℕ} (h : Reads m t n bs) (hk : k ≤ n) : Reads m t k (bs.take k) := by
  cases t with
  | null => exact h.elim
  | ext bytes =>
    obtain ⟨hn, rfl⟩ := h
    refine ⟨by omega, ?_⟩
    rw [List.take_take, Nat.min_eq_left hk]
  | heap q off =>
    obtain ⟨cs, hq, hn, rfl⟩ := h
    refine ⟨cs, hq, by omega, ?_⟩
    rw [slice, List.take_take, Nat.min_eq_left hk, slice]

theorem Reads.takeWhile {f : Byte → Bool} (h : Reads m t n bs) :
    Reads m t (bs.takeWhile f).length (bs.takeWhile f) := by
  have hpre := List.takeWhile_prefix f (l := bs)
  have hle := hpre.length_le
  rw [h.length] at hle
  have htake := h.take hle
  rwa [← List.prefix_iff_eq_take.mp hpre] at htake

/-- Memory of the caller, or a block that is live. -/
def CharPtr.Known (m : Mem) : CharPtr → Prop
  | .heap q _ => ∃ cs, Holds m q cs
  | _ => True

theorem wp_readChars_of {Q : List Byte → State Globals → Prop} (hE : E .ub) (ht : t.Known s.mem)
    (hQ : ∀ bs, Reads s.mem t n bs → Q bs s) : wp E (readChars t n) Q s := by
  cases t with
  | null => exact hE
  | ext bytes =>
    rw [readChars, wp_ite]
    exact ⟨fun hn => wp_pure.mpr (hQ _ ⟨hn, rfl⟩), fun _ => hE⟩
  | heap q off =>
    obtain ⟨cs, hq⟩ := ht
    exact wp_getBytes_of hE hq fun hn => hQ _ ⟨cs, hq, hn, rfl⟩

theorem wp_cstring_of {Q : List Byte → State Globals → Prop} (hE : E .ub) (ht : t.Known s.mem)
    (hQ : ∀ cs, Reads s.mem t cs.length cs → Q cs s) : wp E (cstring t) Q s := by
  have hend : ∀ bytes, Reads s.mem t bytes.length bytes →
      wp E (if (0 : Byte) ∈ bytes then return bytes.takeWhile (· ≠ 0) else stop .ub) Q s := by
    intro bytes h
    rw [wp_ite]
    exact ⟨fun _ => wp_pure.mpr (hQ _ h.takeWhile), fun _ => hE⟩
  rw [cstring, wp_bind]
  cases t with
  | null => exact hE
  | ext bytes => exact hend bytes ⟨le_rfl, List.take_length.symm⟩
  | heap q off =>
    obtain ⟨cs, hq⟩ := ht
    rw [restChars, wp_bind, wp_zsizeof hq]
    refine wp_getBytes_of hE hq fun hn => hend _ ?_
    rw [slice_length hn]
    exact ⟨cs, hq, hn, rfl⟩

/-- The characters of a C string can be read. -/
theorem reads_of_cstring (ht : t.Known s.mem) (hcs : cstring t s = .ok (cs, s)) : Reads s.mem t cs.length cs := by
  have hwp : wp Any (cstring t) (fun cs _ => Reads s.mem t cs.length cs) s :=
    wp_cstring_of trivial ht fun _ hr => hr
  exact hwp.of_ok hcs

/-- A pointer into a block with a NUL behind it is a C string. -/
theorem wp_cstring_heap {Q : List Byte → State Globals → Prop} (h : Holds s.mem q cs)
    (hz : 0 ∈ cs.drop off) : wp E (cstring (.heap q off)) Q s ↔
      Q ((cs.drop off).takeWhile (· ≠ 0)) s := by
  have hlen := List.length_pos_of_mem hz
  have hfits := h.fits
  rw [List.length_drop] at hlen
  have hsize : (BitVec.ofNat 64 cs.length).toNat = cs.length := by
    rw [BitVec.toNat_ofNat]
    omega
  have hslice : slice cs off (cs.length - off) = cs.drop off := by
    rw [slice, List.take_of_length_le (by rw [List.length_drop])]
  rw [cstring, restChars, wp_bind, wp_bind, wp_zsizeof h, hsize, wp_getBytes h (by omega), hslice,
    if_pos hz, wp_pure]

theorem wp_strlen {Q : Word → State Globals → Prop} (ht : cstring t s = .ok (cs, s))
    (hQ : Q (BitVec.ofNat 64 cs.length) s) : wp E (strlen t) Q s := by
  rw [strlen, wp_bind]
  exact wp.of_eq ht hQ

theorem reads_self (h : StrAt m p b) (hn : n ≤ b.chars.length) :
    Reads m (sdsPtr p) n (b.chars.take n) := by
  refine ⟨b.bytes, h, by rw [Buf.bytes_length]; exact Nat.add_le_add_left hn 16, ?_⟩
  rw [← slice_zero, ← slice_chars]

end Sources

/-- The buffer of a string with some content and the bytes behind it. -/
def strBuf (c room : List Byte) : Buf where
  len := BitVec.ofNat 64 c.length
  free := BitVec.ofNat 64 (room.length - 1)
  chars := c ++ room

/-- A string a client may use. Behind its content there is room for a terminator,
and some NUL: a scan that overshoots the content ends inside the block. -/
structure IsStr (m : Mem) (p : Addr) (c room : List Byte) : Prop where
  str : StrAt m p (strBuf c room)
  nul : 0 ∈ room
  ne_null : p ≠ NULL
  len_lt : c.length < 2 ^ 31
  size_lt : c.length + room.length < 2 ^ 32

theorem IsStr.room_pos (h : IsStr m p c room) : 0 < room.length := List.length_pos_of_mem h.nul

theorem IsStr.congr (h : IsStr m p c room) (heq : block m' (base p) = block m (base p)) :
    IsStr m' p c room :=
  ⟨h.str.congr heq, h.nul, h.ne_null, h.len_lt, h.size_lt⟩

section Functions

theorem eq_ofNat (h : w.toNat = n) : w = BitVec.ofNat 64 n := by
  rw [← h, BitVec.ofNat_toNat, BitVec.setWidth_eq]

theorem signExtend_setWidth (hn : n < 2 ^ 31) :
    ((BitVec.ofNat 64 n).setWidth 32).signExtend 64 = BitVec.ofNat 64 n := by
  have hlow : (BitVec.ofNat 64 n).setWidth 32 = BitVec.ofNat 32 n := by
    apply BitVec.eq_of_toNat_eq
    simp only [BitVec.toNat_setWidth, BitVec.toNat_ofNat]
    omega
  rw [hlow, BitVec.signExtend_eq_setWidth_of_msb_false]
  · apply BitVec.eq_of_toNat_eq
    simp only [BitVec.toNat_setWidth, BitVec.toNat_ofNat]
    omega
  · rw [BitVec.msb_eq_false_iff_two_mul_lt, BitVec.toNat_ofNat]
    omega

theorem wp_sdslen {Q : BitVec 32 → State Globals → Prop} (h : StrAt s.mem p b) :
    wp E (sdslen p) Q s ↔ Q (b.len.setWidth 32) s := by
  rw [sdslen, wp_bind, ← base, wp_getLen h, wp_pure]

theorem wp_sdslenSize_any {Q : Word → State Globals → Prop} (h : StrAt s.mem p b) :
    wp E (sdslenSize p) Q s ↔ Q ((b.len.setWidth 32).signExtend 64) s := by
  rw [sdslenSize, wp_bind, wp_sdslen h, wp_pure]

/-- A length in the range of `sdslen` comes back unchanged. -/
theorem signExtend_len (h : w.toNat < 2 ^ 31) : (w.setWidth 32).signExtend 64 = w := by
  have hw := signExtend_setWidth h
  rwa [← eq_ofNat rfl] at hw

theorem wp_sdslenSize {Q : Word → State Globals → Prop} (h : StrAt s.mem p (strBuf c room))
    (hc : c.length < 2 ^ 31) : wp E (sdslenSize p) Q s ↔ Q (BitVec.ofNat 64 c.length) s := by
  rw [wp_sdslenSize_any h, strBuf, signExtend_setWidth hc]

/-- A pointer behind the header of a block is not NULL. -/
theorem sds_ne_null (h : (p - PREFIX_SIZE).toNat + (8 + n) < 2 ^ 64) (hn : 16 ≤ n) :
    p + sdshdr.sizeof ≠ NULL := by
  intro h0
  have hp : p + sdshdr.sizeof = p - PREFIX_SIZE + 24 := by
    rw [sub_add_eq_add_sub, add_sub_assoc]
    rfl
  have htoNat := congrArg BitVec.toNat (hp.symm.trans h0)
  rw [BitVec.toNat_add] at htoNat
  change (_ + 24) % _ = 0 at htoNat
  omega

theorem base_add : base (p + sdshdr.sizeof) = p := add_sub_cancel_right _ _

theorem add_base : base p + sdshdr.sizeof = p := sub_add_cancel _ _

/-- A new block has room for a header and as many characters as asked for. -/
theorem exists_buf (hlen : cs.length = 16 + n) : ∃ b : Buf, b.bytes = cs ∧ b.chars.length = n := by
  refine ⟨⟨bytesWord (cs.take 8), bytesWord ((cs.drop 8).take 8), cs.drop 16⟩, ?_, ?_⟩
  · rw [Buf.bytes, wordBytes_bytesWord (by rw [List.length_take]; omega), wordBytes_bytesWord
      (by rw [List.length_take, List.length_drop]; omega)]
    have hdrop : cs.drop 16 = (cs.drop 8).drop 8 := by rw [List.drop_drop]
    rw [hdrop, List.take_append_drop, List.take_append_drop]
  · rw [List.length_drop]
    omega

theorem Makes.fill {Q : Unit → State Globals → Prop} {init : CharPtr} (h : Makes m₀ S s.mem p b)
    (hw : w.toNat = bs.length) (hn : bs.length ≤ b.chars.length)
    (hinit : init = .null ∧ bs = List.replicate bs.length 0 ∨ Reads s.mem init bs.length bs)
    (hQ : ∀ m, Makes m₀ S m p { b with chars := splice b.chars 0 bs } → Q () { s with mem := m }) :
    wp E (if w = 0 then return () else sdsfill p init w) Q s := by
  rw [wp_ite]
  constructor
  · rintro rfl
    obtain rfl := List.length_eq_zero_iff.mp hw.symm
    have h' := hQ s.mem
    rw [splice_nil] at h'
    exact wp_pure.mpr (h' h)
  · intro _
    have hstore := h.setChars (E := E) (i := 0) (by omega) hQ
    rcases hinit with ⟨rfl, hzero⟩ | hreads
    · rwa [sdsfill, hw, ← hzero]
    · cases init with
      | null => exact hreads.elim
      | _ =>
        rwa [sdsfill, hw, wp_bind, wp_readChars hreads]
        exact CharPtr.noConfusion

theorem wp_sdsnewlen_buf {Q : Addr → State Globals → Prop} {init : CharPtr}
    (hE : L.malloc s.trace s.mem (sdshdr.sizeof + w + 1 + PREFIX_SIZE) = none → E .abort)
    (hn : bs.length + 25 < 2 ^ 64) (hw : w.toNat = bs.length)
    (hinit : init = .null ∧ bs = List.replicate bs.length 0 ∨ Reads s.mem init bs.length bs)
    (hQ : ∀ r s', Makes s.mem 0 s'.mem r ⟨w, 0, bs ++ [0]⟩ → r ≠ NULL → Q r s') :
    wp E (sdsnewlen L init w) Q s := by
  have hsize : (sdshdr.sizeof + w + 1).toNat = 17 + bs.length := by
    rw [BitVec.toNat_add, BitVec.toNat_add, hw]
    change ((16 + bs.length) % _ + 1) % _ = _
    omega
  rw [sdsnewlen, wp_bind]
  refine wp_zmalloc_refuse hE (by omega) fun sh raw heq hraw hfresh => ?_
  obtain ⟨p, rfl⟩ : ∃ p, sh = base p := ⟨sh + sdshdr.sizeof, base_add.symm⟩
  obtain ⟨b, hb, hchars⟩ := exists_buf (n := bs.length + 1)
    (show (raw.drop 8).length = 16 + (bs.length + 1) by rw [List.length_drop]; omega)
  have hstr : StrAt (put s.mem (base p) (raw.drop 8)) p b := by
    rw [StrAt, hb]
    exact hfresh.put (by rw [List.length_drop]; omega)
  have hp : p ≠ NULL := by
    have hend := (L.malloc_spec heq).2.2.2
    rw [BitVec.toNat_add, hsize] at hend
    change _ + (17 + bs.length + 8) % _ < _ at hend
    rw [← add_base (p := p)]
    exact sds_ne_null (n := 17 + bs.length) (by omega) (by omega)
  have h : Makes s.mem 0 (put s.mem (base p) (raw.drop 8)) p b := ⟨updates_put hfresh.block, hstr⟩
  have hbuf : splice (splice b.chars 0 bs) bs.length [0] = bs ++ [0] := by
    have hsplice : splice (splice b.chars 0 bs) (0 + bs.length) [0] = _ := splice_splice_cons (by omega)
    rwa [Nat.zero_add, List.take_zero, List.nil_append, List.drop_eq_nil_of_le (by omega)] at hsplice
  rw [if_neg hfresh.ne_null, add_base, wp_bind]
  refine h.setLen fun m h => wp_bind.mpr (h.setFree fun m h => wp_bind.mpr ?_)
  have h : Makes s.mem 0 m p ⟨w, 0, b.chars⟩ := h
  have hread := hinit.imp_right fun hreads => hreads.update h.update CharPtr.avoids_zero
  refine h.fill hw (Nat.le_of_lt (hchars ▸ Nat.lt_succ_self _)) hread fun m h => ?_
  have h : Makes s.mem 0 m p ⟨w, 0, splice b.chars 0 bs⟩ := h
  rw [wp_bind, hw]
  refine h.setChars ?_ fun m h => ?_
  · rw [splice_length (by omega), hchars, List.length_singleton]
  rw [hbuf] at h
  exact hQ p _ h hp

theorem wp_sdsnewlen {Q : Addr → State Globals → Prop} {init : CharPtr} (hE : E .abort)
    (hn : bs.length < 2 ^ 31) (hw : w.toNat = bs.length)
    (hinit : init = .null ∧ bs = List.replicate bs.length 0 ∨ Reads s.mem init bs.length bs)
    (hQ : ∀ r s', Updates s.mem s'.mem 0 {base r} → IsStr s'.mem r bs [0] → Q r s') :
    wp E (sdsnewlen L init w) Q s := by
  apply wp_sdsnewlen_buf (fun _ => hE) (by omega) hw hinit
  intro r s' h hr
  rw [eq_ofNat hw] at h
  exact hQ r s' h.update ⟨h.str, List.mem_singleton_self 0, hr, hn, by simp; omega⟩

/-- Bytes behind a string become room. -/
theorem Buf.bytes_append {xs : List Byte} :
    b.bytes ++ xs = Buf.bytes { b with chars := b.chars ++ xs } := by
  rw [Buf.bytes, Buf.bytes, List.append_assoc, List.append_assoc]

theorem updates_move (h : block (del m p) q = none) : Updates m (put (del m p) q cs) {p} {q} :=
  (updates_del (S := 0) (Multiset.nodup_singleton p)).trans (updates_put h)

theorem length_toNat (hn : n < 2 ^ 32) : (BitVec.ofNat 64 n).toNat = n := by
  rw [BitVec.toNat_ofNat]
  omega

/-- Where a string is once it has room. -/
inductive RoomAt (L : Libc) (s : State Globals) (p : Addr) (b : Buf) (w : Word) : Addr → Prop where
  | stays : w.toNat ≤ b.free.toNat → RoomAt L s p b w p
  | asks {r raw} : b.free.toNat < w.toNat → L.realloc s.trace s.mem (base p - PREFIX_SIZE)
      (sdshdr.sizeof + (b.len + w) * 2 + 1 + PREFIX_SIZE) = some (base r - PREFIX_SIZE, raw) → RoomAt L s p b w r

/-- Nothing to do, or a larger block with the same characters at its front. -/
theorem wp_sdsMakeRoomFor_place {Q : Addr → State Globals → Prop} (h : StrAt s.mem p b) (hp : p ≠ NULL)
    (hsize : b.chars.length = b.len.toNat + b.free.toNat + 1)
    (hfits : b.free.toNat < w.toNat → (b.len.toNat + w.toNat) * 2 + 25 < 2 ^ 64)
    (hE : b.free.toNat < w.toNat → L.realloc s.trace s.mem (base p - PREFIX_SIZE)
      (sdshdr.sizeof + (b.len + w) * 2 + 1 + PREFIX_SIZE) = none → E .abort)
    (hQ : ∀ r s', (∃ free extra, Makes s.mem {base p} s'.mem r ⟨b.len, free, b.chars ++ extra⟩ ∧ r ≠ NULL ∧
      free.toNat = b.free.toNat + extra.length ∧ w.toNat ≤ free.toNat ∧
      (extra = [] ∨ b.chars.length + extra.length = (b.len.toNat + w.toNat) * 2 + 1)) →
      RoomAt L s p b w r → Q r s') :
    wp E (sdsMakeRoomFor L p w) Q s := by
  rw [sdsMakeRoomFor, wp_bind, sdsavail, ← base, wp_getFree h, wp_ite]
  constructor
  · intro hle
    have hle := BitVec.le_def.mp hle
    have hm : Makes s.mem {base p} s.mem p ⟨b.len, b.free, b.chars ++ []⟩ := by
      rw [List.append_nil]
      exact Makes.refl h
    exact wp_pure.mpr (hQ p s ⟨b.free, [], hm, hp, by simp, hle, Or.inl rfl⟩ (.stays hle))
  · intro hgt
    have hgt := BitVec.not_le.mp hgt
    have hgt := BitVec.lt_def.mp hgt
    have hfits := hfits hgt
    have hnew : ((b.len + w) * 2).toNat = (b.len.toNat + w.toNat) * 2 := by
      rw [BitVec.toNat_mul, BitVec.toNat_add]
      change (_ % _ * 2) % _ = _
      omega
    have hreq : (sdshdr.sizeof + (b.len + w) * 2 + 1).toNat = 17 + (b.len.toNat + w.toNat) * 2 := by
      rw [BitVec.toNat_add, BitVec.toNat_add, hnew]
      change ((16 + _) % _ + 1) % _ = _
      omega
    rw [wp_bind, wp_getLen h, wp_bind]
    refine wp_zremalloc_answer (hE hgt) h (by omega) fun q raw cs hanswer hcs htake hend hfresh => ?_
    obtain ⟨r, rfl⟩ : ∃ r, q = base r := ⟨q + sdshdr.sizeof, base_add.symm⟩
    have hbytes : b.bytes.length = 16 + b.chars.length := Buf.bytes_length
    rw [List.take_of_length_le (show b.bytes.length ≤ _ by omega)] at htake
    obtain ⟨extra, rfl⟩ : ∃ extra, cs = b.bytes ++ extra := ⟨_, (htake ▸ List.take_append_drop _ cs).symm⟩
    rw [List.length_append] at hcs
    have hroom : ((b.len + w) * 2 - b.len).toNat = b.free.toNat + extra.length := by
      rw [BitVec.toNat_sub, hnew]
      omega
    have h : Makes s.mem {base p} _ r { b with chars := b.chars ++ extra } :=
      ⟨updates_move hfresh.block, by
        rw [StrAt, ← Buf.bytes_append]
        exact hfresh.put (by rw [List.length_append]; omega)⟩
    rw [if_neg hfresh.ne_null, wp_bind, wp_getLen h.str, wp_bind, add_base]
    refine h.setFree fun m h => wp_pure.mpr ?_
    refine hQ r _ ⟨(b.len + w) * 2 - b.len, extra, h, ?_, hroom, by omega, Or.inr (by omega)⟩ (.asks hgt hanswer)
    rw [← add_base (p := r)]
    exact sds_ne_null hend.lt (by omega)

theorem wp_sdsMakeRoomFor_buf {Q : Addr → State Globals → Prop} (h : StrAt s.mem p b) (hp : p ≠ NULL)
    (hsize : b.chars.length = b.len.toNat + b.free.toNat + 1)
    (hfits : b.free.toNat < w.toNat → (b.len.toNat + w.toNat) * 2 + 25 < 2 ^ 64)
    (hE : b.free.toNat < w.toNat → L.realloc s.trace s.mem (base p - PREFIX_SIZE)
      (sdshdr.sizeof + (b.len + w) * 2 + 1 + PREFIX_SIZE) = none → E .abort)
    (hQ : ∀ r s' free extra, Makes s.mem {base p} s'.mem r ⟨b.len, free, b.chars ++ extra⟩ → r ≠ NULL →
      free.toNat = b.free.toNat + extra.length → w.toNat ≤ free.toNat →
      (extra = [] ∨ b.chars.length + extra.length = (b.len.toNat + w.toNat) * 2 + 1) → Q r s') :
    wp E (sdsMakeRoomFor L p w) Q s := by
  apply wp_sdsMakeRoomFor_place h hp hsize hfits hE
  rintro r s' ⟨free, extra, hr, hnull, hfree, hle, hextra⟩ -
  exact hQ r s' free extra hr hnull hfree hle hextra

theorem wp_sdsMakeRoomFor {Q : Addr → State Globals → Prop} (hE : E .abort)
    (h : IsStr s.mem p c room) (hn : c.length + w.toNat < 2 ^ 31)
    (hQ : ∀ r s' room', Makes s.mem {base p} s'.mem r (strBuf c room') → r ≠ NULL →
      w.toNat < room'.length → c.length + room'.length < 2 ^ 32 → Q r s') :
    wp E (sdsMakeRoomFor L p w) Q s := by
  have hpos := h.room_pos
  have hlt := h.size_lt
  have hlen : (strBuf c room).len.toNat = c.length := length_toNat (by omega)
  have hfree : (strBuf c room).free.toNat = room.length - 1 := length_toNat (by omega)
  have hchars : (strBuf c room).chars.length = c.length + room.length := List.length_append
  apply wp_sdsMakeRoomFor_buf h.str h.ne_null (by omega) (by omega) fun _ _ => hE
  intro r s' free extra hm hr hroom hw hextra
  have hroom' : free.toNat = (room ++ extra).length - 1 := by
    rw [List.length_append]
    omega
  have hm : Makes s.mem {base p} s'.mem r ⟨BitVec.ofNat 64 c.length, free, c ++ room ++ extra⟩ := hm
  rw [eq_ofNat hroom', List.append_assoc] at hm
  apply hQ r s' (room ++ extra) hm hr
  · rw [List.length_append]
    omega
  · rw [List.length_append]
    rcases hextra with rfl | hextra
    · simpa using hlt
    · omega

/-- Bytes behind the content and a terminator behind them. -/
theorem append_terminated (hn : bs.length < room.length) :
    splice (splice (c ++ room) c.length bs) (c.length + bs.length) [0] =
      c ++ bs ++ 0 :: room.drop (bs.length + 1) := by
  rw [splice_splice_cons (by rw [List.length_append]; omega), List.take_left, List.append_assoc,
    List.drop_append, List.drop_eq_nil_of_le (by omega), List.nil_append]
  congr 4
  omega

/-- Bytes over the content and a terminator behind them. -/
theorem replace_terminated (hn : bs.length < c.length + room.length) :
    splice (splice (c ++ room) 0 bs) bs.length [0] = bs ++ 0 :: (c ++ room).drop (bs.length + 1) := by
  have hsplice : splice (splice (c ++ room) 0 bs) (0 + bs.length) [(0 : Byte)] = _ :=
    splice_splice_cons (by rw [List.length_append]; omega)
  rwa [Nat.zero_add, List.take_zero, List.nil_append] at hsplice

/-- The bytes are read once there is room for them. -/
theorem wp_sdscatlen_room {P : Addr → Prop} {Q : Addr → State Globals → Prop} (h : StrAt s.mem p b) (hp : p ≠ NULL)
    (hsize : b.chars.length = b.len.toNat + b.free.toNat + 1) (hlen : b.len.toNat < 2 ^ 31)
    (hw : w.toNat = bs.length)
    (hfits : b.free.toNat < w.toNat → (b.len.toNat + w.toNat) * 2 + 25 < 2 ^ 64)
    (hE : b.free.toNat < w.toNat → L.realloc s.trace s.mem (base p - PREFIX_SIZE)
      (sdshdr.sizeof + (b.len + w) * 2 + 1 + PREFIX_SIZE) = none → E .abort)
    (ht : ∀ r s' c, RoomAt L s p b w r → Makes s.mem {base p} s'.mem r c → b.chars <+: c.chars →
      wp E (readChars t w.toNat) (fun cs s'' => cs = bs ∧ s'' = s' ∧ P r) s')
    (hQ : ∀ r s' free rest, P r → Makes s.mem {base p} s'.mem r ⟨b.len + w, free, b.content ++ bs ++ 0 :: rest⟩ →
      r ≠ NULL → free.toNat = rest.length → b.len.toNat + w.toNat + rest.length + 1 = b.chars.length ∨
        b.len.toNat + w.toNat + rest.length + 1 = (b.len.toNat + w.toNat) * 2 + 1 → Q r s') :
    wp E (sdscatlen L p t w) Q s := by
  rw [sdscatlen, wp_bind, wp_sdslenSize_any h, signExtend_len hlen, wp_bind]
  apply wp_sdsMakeRoomFor_place h hp hsize hfits hE
  rintro r s' ⟨free, extra, hm, hnull, hfree, hle, hextra⟩ hat
  have hr := hm
  have hend := hr.str.fits
  rw [Buf.bytes_length] at hend
  change 16 + (b.chars ++ extra).length + 8 < _ at hend
  have hcontent : b.content.length = b.len.toNat := List.length_take_of_le (by omega)
  obtain ⟨room, hroom⟩ : ∃ room, b.chars ++ extra = b.content ++ room :=
    ⟨b.chars.drop b.len.toNat ++ extra, by rw [← List.append_assoc, Buf.content, List.take_append_drop]⟩
  have hlength := congrArg List.length hroom
  rw [List.length_append, List.length_append, hcontent] at hlength
  rw [List.length_append] at hend
  have hcw : (b.len + w).toNat = b.len.toNat + bs.length := by
    rw [BitVec.toNat_add]
    omega
  rw [hroom] at hr
  rw [if_neg hnull, wp_bind]
  refine (ht r s' _ hat hm (List.prefix_append _ _)).mono ?_
  rintro cs s'' ⟨hcs, rfl, hP⟩
  rw [hcs, wp_bind, ← base]
  refine hr.setChars ?_ fun m h => wp_bind.mpr (h.setLen fun m h => ?_)
  · rw [List.length_append]
    omega
  have h : Makes s.mem {base p} m r ⟨b.len + w, free, splice (b.content ++ room) b.len.toNat bs⟩ := h
  rw [wp_bind, wp_getFree h.str, wp_bind]
  refine h.setFree fun m h => ?_
  rw [wp_bind, hcw]
  refine h.setChars ?_ fun m h => wp_pure.mpr ?_
  · rw [splice_length (by rw [List.length_append]; omega), List.length_append, List.length_singleton]
    omega
  have h : Makes s.mem {base p} m r ⟨b.len + w, free - w,
    splice (splice (b.content ++ room) b.len.toNat bs) (b.len.toNat + bs.length) [0]⟩ := h
  have hrest : (room.drop (bs.length + 1)).length = free.toNat - w.toNat := by
    rw [List.length_drop]
    omega
  rw [← hcontent, append_terminated (by omega)] at h
  apply hQ r _ _ _ hP h hnull
  · rw [hrest, BitVec.toNat_sub]
    omega
  · rw [hrest]
    rcases hextra with rfl | hextra
    · rw [List.length_nil] at hfree hlength
      omega
    · omega

theorem wp_sdscatlen_buf {Q : Addr → State Globals → Prop} (h : StrAt s.mem p b) (hp : p ≠ NULL)
    (hsize : b.chars.length = b.len.toNat + b.free.toNat + 1) (hlen : b.len.toNat < 2 ^ 31)
    (hw : w.toNat = bs.length)
    (hfits : b.free.toNat < w.toNat → (b.len.toNat + w.toNat) * 2 + 25 < 2 ^ 64)
    (hE : b.free.toNat < w.toNat → L.realloc s.trace s.mem (base p - PREFIX_SIZE)
      (sdshdr.sizeof + (b.len + w) * 2 + 1 + PREFIX_SIZE) = none → E .abort)
    (ht : Reads s.mem t bs.length bs) (hav : t.Avoids {base p})
    (hQ : ∀ r s' free rest, Makes s.mem {base p} s'.mem r ⟨b.len + w, free, b.content ++ bs ++ 0 :: rest⟩ →
      r ≠ NULL → free.toNat = rest.length → b.len.toNat + w.toNat + rest.length + 1 = b.chars.length ∨
        b.len.toNat + w.toNat + rest.length + 1 = (b.len.toNat + w.toNat) * 2 + 1 → Q r s') :
    wp E (sdscatlen L p t w) Q s := by
  apply wp_sdscatlen_room (P := fun _ => True) h hp hsize hlen hw hfits hE
  · intro r s' c _ hr _
    rw [hw, wp_readChars (ht.update hr.update hav)]
    exact ⟨rfl, rfl, trivial⟩
  · exact fun r s' free rest _ => hQ r s' free rest

theorem wp_sdscatlen {Q : Addr → State Globals → Prop} (hE : E .abort)
    (h : IsStr s.mem p c room) (hw : w.toNat = bs.length) (hn : c.length + bs.length < 2 ^ 31)
    (ht : Reads s.mem t bs.length bs) (hp : t.Avoids {base p})
    (hQ : ∀ r s' room', Updates s.mem s'.mem {base p} {base r} → IsStr s'.mem r (c ++ bs) room' →
      Q r s') :
    wp E (sdscatlen L p t w) Q s := by
  have hpos := h.room_pos
  have hlt := h.size_lt
  have hlen : (strBuf c room).len.toNat = c.length := length_toNat (by omega)
  have hfree : (strBuf c room).free.toNat = room.length - 1 := length_toNat (by omega)
  have hchars : (strBuf c room).chars.length = c.length + room.length := List.length_append
  have hcontent : (strBuf c room).content = c := by
    rw [Buf.content, hlen]
    exact List.take_left
  apply wp_sdscatlen_buf h.str h.ne_null (by omega) (by omega) hw (by omega) (fun _ _ => hE) ht hp
  intro r s' free rest hm hr hroom hextra
  have hcw : ((strBuf c room).len + w).toNat = (c ++ bs).length := by
    rw [BitVec.toNat_add, List.length_append]
    omega
  have hroom' : free.toNat = (0 :: rest : List Byte).length - 1 := by
    rw [List.length_cons]
    omega
  rw [hcontent, eq_ofNat hcw, eq_ofNat hroom'] at hm
  refine hQ r s' _ hm.update ⟨hm.str, List.mem_cons_self, hr, ?_, ?_⟩
  · rw [List.length_append]
    omega
  · rw [List.length_append, List.length_cons]
    omega

theorem wp_sdscpyRoom {Q : Addr × Word → State Globals → Prop} (hE : E .abort)
    (h : IsStr s.mem p c room) (hn : w.toNat < 2 ^ 31)
    (hQ : ∀ r s' room' v, Makes s.mem {base p} s'.mem r (strBuf c room') → r ≠ NULL →
      v.toNat + 1 = c.length + room'.length → w.toNat ≤ v.toNat → v.toNat + 1 < 2 ^ 32 → Q (r, v) s') :
    wp E (sdscpyRoom L p w) Q s := by
  have htot : ∀ room' : List Byte, 0 < room'.length → c.length + room'.length < 2 ^ 32 →
      ((strBuf c room').free + (strBuf c room').len).toNat + 1 = c.length + room'.length := by
    intro room' hpos hlt
    rw [strBuf, BitVec.toNat_add, length_toNat (by omega), length_toNat (by omega)]
    omega
  have hroom := htot room h.room_pos h.size_lt
  have hlt := h.size_lt
  rw [sdscpyRoom, wp_bind, ← base, wp_getFree h.str, wp_bind, wp_getLen h.str, wp_ite]
  constructor
  · intro hgt
    have hgt := BitVec.lt_def.mp hgt
    have hadd : (w - (strBuf c room).len).toNat = w.toNat - c.length := by
      rw [strBuf, BitVec.toNat_sub, length_toNat (by omega)]
      omega
    rw [wp_bind]
    refine wp_sdsMakeRoomFor hE h (by omega) fun r s' room' hr hnull hroom' hlt' => ?_
    have hroom' := htot room' (by omega) hlt'
    rw [if_neg hnull, ← base, wp_bind, wp_getFree hr.str, wp_bind, wp_getLen hr.str, wp_pure]
    exact hQ r s' room' _ hr hnull hroom' (by omega) (by omega)
  · intro hle
    have hle := BitVec.le_def.mp (BitVec.not_lt.mp hle)
    exact wp_pure.mpr (hQ p s room _ (Makes.refl h.str) h.ne_null hroom hle (by omega))

theorem wp_sdscpylen {Q : Addr → State Globals → Prop} (hE : E .abort)
    (h : IsStr s.mem p c room) (hw : w.toNat = bs.length) (hn : bs.length < 2 ^ 31)
    (ht : Reads s.mem t bs.length bs) (hp : t.Avoids {base p})
    (hQ : ∀ r s' room', Updates s.mem s'.mem {base p} {base r} → IsStr s'.mem r bs room' → Q r s') :
    wp E (sdscpylen L p t w) Q s := by
  rw [sdscpylen, wp_bind]
  refine wp_sdscpyRoom hE h (by omega) fun r s' room' v hr hnull hv hle hlt => ?_
  have hlen : (splice (c ++ room') 0 bs).length = c.length + room'.length := by
    rw [splice_length (by rw [List.length_append]; omega), List.length_append]
  rw [hw] at hle
  rw [wp_bind, hw, wp_readChars (ht.update hr.update hp), wp_bind, ← base]
  refine hr.setChars ?_ fun m h => wp_bind.mpr (h.setChars ?_ fun m h => ?_)
  · rw [strBuf, List.length_append]
    omega
  · rw [strBuf, hlen, List.length_singleton]
    omega
  rw [wp_bind]
  refine h.setLen fun m h => wp_bind.mpr (h.setFree fun m h => wp_pure.mpr ?_)
  have h : Makes s.mem {base p} m r ⟨w, v - w, splice (splice (c ++ room') 0 bs) bs.length [0]⟩ := h
  have hfree : (v - w).toNat = (0 :: (c ++ room').drop (bs.length + 1)).length - 1 := by
    rw [BitVec.toNat_sub, hw, List.length_cons, List.length_drop, List.length_append]
    omega
  rw [replace_terminated (by omega), eq_ofNat hfree, eq_ofNat hw] at h
  refine hQ r _ _ h.update ⟨h.str, List.mem_cons_self, hnull, hn, ?_⟩
  rw [List.length_cons, List.length_drop, List.length_append]
  omega

theorem wp_sdsdup {Q : Addr → State Globals → Prop} (hE : E .abort) (h : IsStr s.mem p c room)
    (hQ : ∀ r s', Updates s.mem s'.mem 0 {base r} → IsStr s'.mem r c [0] → Q r s') :
    wp E (sdsdup L p) Q s := by
  have hlt := h.len_lt
  have hreads := reads_self h.str (n := c.length) (by rw [strBuf, List.length_append]; omega)
  rw [strBuf, List.take_left] at hreads
  rw [sdsdup, wp_bind, wp_sdslenSize h.str hlt]
  exact wp_sdsnewlen hE hlt (length_toNat (by omega)) (Or.inr hreads) hQ

theorem wp_sdsclear {Q : Unit → State Globals → Prop} (h : IsStr s.mem p c room)
    (hQ : ∀ s', Updates s.mem s'.mem {base p} {base p} → IsStr s'.mem p [] (c ++ room) → Q () s') :
    wp E (sdsclear p) Q s := by
  have hpos := h.room_pos
  have hlt := h.size_lt
  have hfree : ((strBuf c room).free + (strBuf c room).len).toNat = (c ++ room).length - 1 := by
    rw [strBuf, BitVec.toNat_add, length_toNat (by omega), length_toNat (by omega), List.length_append]
    omega
  rw [sdsclear, wp_bind, ← base, wp_getFree h.str, wp_bind, wp_getLen h.str, wp_bind]
  refine (Makes.refl h.str).setFree fun m hm => hm.setLen fun m hm => ?_
  rw [eq_ofNat hfree] at hm
  refine hQ _ hm.update ⟨hm.str, List.mem_append_right c h.nul, h.ne_null, by simp, ?_⟩
  rw [List.length_append, List.length_nil]
  omega

/-- One round of a loop that maps the characters. -/
theorem map_round {f : Byte → Byte} (hn : n < cs.length) :
    splice ((cs.take n).map f ++ cs.drop n) n [f ((slice ((cs.take n).map f ++ cs.drop n) n 1).headD 0)] =
      (cs.take (n + 1)).map f ++ cs.drop (n + 1) := by
  have hlen : ((cs.take n).map f).length = n := by
    rw [List.length_map, List.length_take_of_le (by omega)]
  rw [slice_append_right (by omega), splice_append_right (by omega), hlen, Nat.sub_self,
    List.drop_eq_getElem_cons hn, splice_zero, List.take_succ_eq_append_getElem hn, List.map_append,
    List.append_assoc]
  rfl

theorem wp_sdsmapLoop {Q : Unit → State Globals → Prop} {f : Byte → Byte} (h : StrAt s.mem p b)
    (hn : n ≤ b.chars.length)
    (hQ : ∀ m, Makes s.mem {base p} m p
      { b with chars := (b.chars.take n).map f ++ b.chars.drop n } → Q () { s with mem := m }) :
    wp E (sdsmapLoop f p n) Q s := by
  induction n generalizing Q with
  | zero => exact wp_pure.mpr (hQ s.mem (Makes.refl h))
  | succ n ih =>
    rw [sdsmapLoop, wp_bind]
    refine ih (by omega) fun m hm => ?_
    rw [wp_bind, getChar, wp_bind, ← base, wp_getChars hm.str (by simp; omega), wp_pure]
    refine hm.setChars (by simp; omega) fun m hm => hQ m ?_
    rwa [map_round (by omega)] at hm

/-- `sdstolower` and `sdstoupper`. -/
theorem wp_sdsmap {Q : Unit → State Globals → Prop} {f : Byte → Byte} (h : IsStr s.mem p c room)
    (hQ : ∀ s', Updates s.mem s'.mem {base p} {base p} → IsStr s'.mem p (c.map f) room → Q () s') :
    wp E (do let len ← sdslenSize p; sdsmapLoop f p len.toNat) Q s := by
  have hlt := h.len_lt
  rw [wp_bind, wp_sdslenSize h.str hlt, length_toNat (by omega)]
  refine wp_sdsmapLoop h.str (by rw [strBuf, List.length_append]; omega) fun m hm => ?_
  have hm : Makes s.mem {base p} m p
    ⟨_, _, ((c ++ room).take c.length).map f ++ (c ++ room).drop c.length⟩ := hm
  rw [List.take_left, List.drop_left] at hm
  refine hQ _ hm.update ⟨?_, h.nul, h.ne_null, by rwa [List.length_map], by
    rw [List.length_map]
    exact h.size_lt⟩
  rw [strBuf, List.length_map]
  exact hm.str

theorem wp_sdstolower {Q : Unit → State Globals → Prop} (h : IsStr s.mem p c room)
    (hQ : ∀ s', Updates s.mem s'.mem {base p} {base p} → IsStr s'.mem p (c.map tolower) room →
      Q () s') : wp E (sdstolower p) Q s := wp_sdsmap h hQ

theorem wp_sdstoupper {Q : Unit → State Globals → Prop} (h : IsStr s.mem p c room)
    (hQ : ∀ s', Updates s.mem s'.mem {base p} {base p} → IsStr s'.mem p (c.map toupper) room →
      Q () s') : wp E (sdstoupper p) Q s := wp_sdsmap h hQ

end Functions

end Redis
