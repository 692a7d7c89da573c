import RedisPlayground.Proofs.Ranges

/-! Sizes near the top of the range of `size_t`. `zmalloc.cc` adds the size of
its header to a request, and `sds.cc` adds the sizes of a string header and a
terminator to a length, before the request reaches the allocator: when a sum
wraps around, the block is too small. -/

namespace Redis

open CMem

/-- The size header in front of `p` lies in its block and says `size`, and behind it lie `size` bytes
at least. -/
structure Backed (size : Word) (p : Addr) (s : State Globals) : Prop where
  header : zsizeof p s = .ok (size, s)
  bytes : ∃ raw, block s.mem p = some raw ∧ 8 + size.toNat ≤ raw.length

/-- The block of the string `p` has room for a header, `n` characters and a terminator. -/
def Roomy (n : ℕ) (p : Addr) (s : State Globals) : Prop :=
  ∃ raw, block s.mem (base p) = some raw ∧ 8 + (sdshdr.sizeof.toNat + n + 1) ≤ raw.length

/-- `sdsavail` gives `n` at least. -/
def Spacious (n : Word) (p : Addr) (s : State Globals) : Prop :=
  ∃ avail, sdsavail p s = .ok (avail, s) ∧ n ≤ avail

/-- The calls that ask for as much memory as a length says. -/
inductive Request where
  | sdsnewlen (init : CharPtr) (initlen : Word)
  | sdscatlen (p : Addr) (t : CharPtr) (len : Word)
  | sdscpylen (p : Addr) (t : CharPtr) (len : Word)
  | sdsMakeRoomFor (p : Addr) (addlen : Word)

def Request.call (L : Libc) : Request → M Addr
  | .sdsnewlen init initlen => Redis.sdsnewlen L init initlen
  | .sdscatlen p t len => Redis.sdscatlen L p t len
  | .sdscpylen p t len => Redis.sdscpylen L p t len
  | .sdsMakeRoomFor p addlen => Redis.sdsMakeRoomFor L p addlen

/-- The first part of a call, which ends when it has a block for the string, and a length besides. -/
def Request.alloc (L : Libc) : Request → M (Addr × Word)
  | .sdsnewlen _ initlen => do
    let sh ← zmalloc L (sdshdr.sizeof + initlen + 1)
    if sh = NULL then sdsOomAbort else return (sh + sdshdr.sizeof, initlen)
  | .sdscatlen p _ len => do
    let curlen ← sdslenSize p
    let s ← Redis.sdsMakeRoomFor L p len
    return (s, curlen)
  | .sdscpylen p _ len => sdscpyRoom L p len
  | .sdsMakeRoomFor p addlen => do
    let s ← Redis.sdsMakeRoomFor L p addlen
    return (s, addlen)

/-- The string a call is about. -/
def Request.On (s : State Globals) (b : Buf) : Request → Prop
  | .sdsnewlen _ _ => True
  | .sdscatlen p _ _ | .sdscpylen p _ _ | .sdsMakeRoomFor p _ => StrAt s.mem p b ∧ p ≠ NULL ∧ b.WellFormed

/-- What the first part has to end with. -/
def Request.Gets (b : Buf) : Request → Addr × Word → State Globals → Prop
  | .sdsnewlen _ initlen, r, s => Roomy initlen.toNat r.1 s
  | .sdscpylen _ _ len, r, s => Roomy len.toNat r.1 s
  | .sdscatlen _ _ len, r, s => Roomy (b.len.toNat + len.toNat) r.1 s ∧ Spacious len r.1 s
  | .sdsMakeRoomFor _ addlen, r, s => Roomy (b.len.toNat + addlen.toNat) r.1 s ∧ Spacious addlen r.1 s

/-- No sum or product wraps around. -/
def Request.Fits (b : Buf) : Request → Prop
  | .sdsnewlen _ initlen => initlen.toNat + 25 < 2 ^ 64
  | .sdscpylen _ _ len => len.toNat ≤ b.len.toNat + b.free.toNat ∨ len.toNat * 2 + 25 < 2 ^ 64
  | .sdscatlen _ _ len => len.toNat ≤ b.free.toNat ∨ (b.len.toNat + len.toNat) * 2 + 25 < 2 ^ 64
  | .sdsMakeRoomFor _ addlen =>
    addlen.toNat ≤ b.free.toNat ∨ (b.len.toNat + addlen.toNat) * 2 + 25 < 2 ^ 64

/-- The bytes that are asked for to make room for `addlen` more characters. -/
def roomSize (b : Buf) (addlen : Word) : Word := sdshdr.sizeof + (b.len + addlen) * 2 + 1

/-- The allocator has no block of the size that it is asked for. -/
def Request.Refused (L : Libc) (s : State Globals) (b : Buf) : Request → Prop
  | .sdsnewlen _ initlen => L.malloc s.trace s.mem (sdshdr.sizeof + initlen + 1 + PREFIX_SIZE) = none
  | .sdscatlen p _ n | .sdsMakeRoomFor p n =>
    L.realloc s.trace s.mem (base p - PREFIX_SIZE) (roomSize b n + PREFIX_SIZE) = none
  | .sdscpylen p _ n =>
    L.realloc s.trace s.mem (base p - PREFIX_SIZE) (roomSize b (n - b.len) + PREFIX_SIZE) = none

variable {L : Libc} {s s' : State Globals} {p q r : Addr} {size w : Word} {b : Buf} {bs : List Byte} {n : ℕ}
  {E : Stop → Prop} {t : CharPtr}

theorem Holds.backed (h : Holds s.mem p bs) (hlen : bs.length = size.toNat) : Backed size p s := by
  have hsize : BitVec.ofNat 64 bs.length = size := by rw [hlen, BitVec.ofNat_toNat, BitVec.setWidth_eq]
  constructor
  · apply wp.eq_ok
    rw [wp_zsizeof h, hsize]
    exact ⟨rfl, rfl⟩
  · exact ⟨_, h.block, by simp [hlen]⟩

theorem zmalloc_backed_iff : wp Safe (zmalloc L size) (Backed size) s ↔
    size.toNat + 8 < 2 ^ 64 ∨ L.malloc s.trace s.mem (size + PREFIX_SIZE) = none := by
  by_cases hfits : size.toNat + 8 < 2 ^ 64
  · refine iff_of_true ?_ (Or.inl hfits)
    refine wp_zmalloc rfl hfits fun p raw _ hlen hfresh => ?_
    have hlen' : (raw.drop 8).length = size.toNat := by
      rw [List.length_drop]
      omega
    exact Holds.backed (hfresh.put (by omega)) hlen'
  · rw [zmalloc_wraps hfits]
    exact (or_iff_right hfits).symm

theorem zremalloc_backed_iff (h : Holds s.mem p bs) : wp Safe (zremalloc L p size) (Backed size) s ↔
    size.toNat + 8 < 2 ^ 64 ∨
      L.realloc s.trace s.mem (p - PREFIX_SIZE) (size + PREFIX_SIZE) = none := by
  by_cases hfits : size.toNat + 8 < 2 ^ 64
  · refine iff_of_true ?_ (Or.inl hfits)
    refine wp_zremalloc (fun _ => rfl) h hfits fun r cs hlen _ _ hfresh => ?_
    exact Holds.backed (hfresh.put (by omega)) hlen
  · rw [zremalloc_wraps h hfits]
    exact (or_iff_right hfits).symm

/-- Both functions give out a block as large as they say, exactly if the size of the header can be
added to the request without a wrap, or the allocator refuses the sum. -/
theorem blocks_are_backed_iff (L : Libc) (size : Word) (s : State Globals) :
    (wp Safe (zmalloc L size) (Backed size) s ↔
      size.toNat + 8 < 2 ^ 64 ∨ L.malloc s.trace s.mem (size + PREFIX_SIZE) = none) ∧
    (wp Safe (zremalloc L NULL size) (Backed size) s ↔
      size.toNat + 8 < 2 ^ 64 ∨ L.malloc s.trace s.mem (size + PREFIX_SIZE) = none) ∧
    ∀ p bs, Holds s.mem p bs → (wp Safe (zremalloc L p size) (Backed size) s ↔
      size.toNat + 8 < 2 ^ 64 ∨
        L.realloc s.trace s.mem (p - PREFIX_SIZE) (size + PREFIX_SIZE) = none) := by
  refine ⟨zmalloc_backed_iff, ?_, fun p bs h => zremalloc_backed_iff h⟩
  rw [zremalloc, if_pos rfl]
  exact zmalloc_backed_iff

theorem blocks_are_backed_iff_abc : wp Safe (zremalloc (bump 0) (base 0x1018) 40) (Backed 40) range₁ ↔
    (40 : Word).toNat + 8 < 2 ^ 64 ∨ (bump 0).realloc range₁.trace range₁.mem
      (base 0x1018 - PREFIX_SIZE) (40 + PREFIX_SIZE) = none :=
  (blocks_are_backed_iff (bump 0) 40 range₁).2.2 (base 0x1018) rangeBuf.bytes range_abc.1

/-- `zmalloc(-1)` asks for 7 bytes and stores 8 in them, and `zremalloc(NULL, -2)` for 6. -/
theorem blocks_are_not_backed : ¬ wp Safe (zmalloc (bump 0) (-1)) (Backed (-1)) zinit ∧
    ¬ wp Safe (zremalloc (bump 0) NULL (-2)) (Backed (-2)) zinit := by
  have hwrap : ∀ size : Word, ¬ size.toNat + 8 < 2 ^ 64 → (size + PREFIX_SIZE).toNat < 8 →
      ¬ wp Safe (zmalloc (bump 0) size) (Backed size) zinit := by
    intro size hsize hsum hwp
    rw [zmalloc_wraps hsize] at hwp
    change (if _ ∧ _ ∧ _ then _ else _) = _ at hwp
    rw [if_pos ⟨Finmap.notMem_empty, by decide, Nat.lt_of_lt_of_le (Nat.add_lt_add_left hsum _) (by decide)⟩] at hwp
    contradiction
  constructor
  · exact hwrap (-1) (by decide) (by decide)
  · rw [zremalloc, if_pos rfl]
    exact hwrap (-2) (by decide) (by decide)

/-- A call goes on with what its first part ends with. -/
theorem Request.call_eq (L : Libc) (r : Request) : ∃ rest, r.call L = r.alloc L >>= rest := by
  cases r with
  | sdsnewlen init initlen =>
    refine ⟨fun x => do
      setField (base x.1) sdshdr.len initlen
      setField (base x.1) sdshdr.free 0
      (if initlen = 0 then return () else sdsfill x.1 init initlen)
      setChars x.1 initlen.toNat [0]
      return x.1, ?_⟩
    rw [call, alloc, Redis.sdsnewlen, bind_assoc]
    refine congrArg _ (funext fun sh => ?_)
    by_cases hsh : sh = NULL
    · rw [if_pos hsh, if_pos hsh]
      rfl
    · rw [if_neg hsh, if_neg hsh, pure_bind, base_add]
  | sdscatlen p t len =>
    refine ⟨fun x => if x.1 = NULL then return NULL else do
      let bs ← readChars t len.toNat
      setChars x.1 x.2.toNat bs
      setField (x.1 - sdshdr.sizeof) sdshdr.len (x.2 + len)
      let free ← getField (x.1 - sdshdr.sizeof) sdshdr.free
      setField (x.1 - sdshdr.sizeof) sdshdr.free (free - len)
      setChars x.1 (x.2 + len).toNat [0]
      return x.1, ?_⟩
    rw [call, alloc, Redis.sdscatlen, bind_assoc]
    refine congrArg _ (funext fun curlen => ?_)
    rw [bind_assoc]
    rfl
  | sdscpylen p t len => exact ⟨_, rfl⟩
  | sdsMakeRoomFor p addlen =>
    refine ⟨fun x => return x.1, ?_⟩
    rw [call, alloc, bind_assoc]
    exact (bind_pure _).symm

theorem roomSize_toNat : (roomSize b w).toNat = (17 + (b.len.toNat + w.toNat) * 2) % 2 ^ 64 := by
  rw [roomSize, BitVec.toNat_add, BitVec.toNat_add, BitVec.toNat_mul, BitVec.toNat_add]
  change ((16 + (_ % _ * 2) % _) % _ + 1) % _ = _
  omega

/-- What is not refused gets a block of the size it asks for, if the header of `zmalloc.cc` fits. -/
theorem zmalloc_size (hne : L.malloc s.trace s.mem (size + PREFIX_SIZE) ≠ none) :
    wp (· ≠ .abort) (zmalloc L size) (fun r s' => size.toNat + 8 < 2 ^ 64 ∧ r ≠ NULL ∧
      ∃ raw, block s'.mem r = some raw ∧ raw.length = 8 + size.toNat) s := by
  by_cases hfits : size.toNat + 8 < 2 ^ 64
  · refine wp_zmalloc_refuse (fun heq => absurd heq hne) hfits fun p raw _ hlen hfresh => ?_
    exact ⟨hfits, hfresh.ne_null, _, block_put_self, by simp [hlen]⟩
  · exact wp.of_not_safe fun h => hne ((zmalloc_wraps hfits).mp h)

theorem zremalloc_size (h : Holds s.mem p bs)
    (hne : L.realloc s.trace s.mem (p - PREFIX_SIZE) (size + PREFIX_SIZE) ≠ none) :
    wp (· ≠ .abort) (zremalloc L p size) (fun r s' => size.toNat + 8 < 2 ^ 64 ∧
      (r - PREFIX_SIZE).toNat + (8 + size.toNat) < 2 ^ 64 ∧ ∃ cs, Holds s'.mem r cs ∧ cs.length = size.toNat) s := by
  by_cases hfits : size.toNat + 8 < 2 ^ 64
  · refine wp_zremalloc (fun heq => absurd heq hne) h hfits fun r cs hlen _ hplaced hfresh => ?_
    exact ⟨hfits, hplaced.lt, cs, hfresh.put (by omega), hlen⟩
  · exact wp.of_not_safe fun hsafe => hne ((zremalloc_wraps h hfits).mp hsafe)

theorem zmalloc_refused {Q : Addr → State Globals → Prop}
    (hr : L.malloc s.trace s.mem (size + PREFIX_SIZE) = none) : wp Safe (zmalloc L size) Q s := by
  rw [zmalloc, wp_bind]
  refine wp_malloc (fun _ => ?_) fun p raw heq => ?_
  · rw [if_pos rfl]
    rfl
  · rw [hr] at heq
    contradiction

theorem zremalloc_refused {Q : Addr → State Globals → Prop} (h : Holds s.mem p bs)
    (hr : L.realloc s.trace s.mem (p - PREFIX_SIZE) (size + PREFIX_SIZE) = none) :
    wp Safe (zremalloc L p size) Q s := by
  rw [zremalloc, if_neg h.ne_null, wp_bind, readWord, wp_bind, wp_readAt h.base_ne_null h.block (by simp), wp_pure,
    wp_bind]
  refine wp_realloc h.base_ne_null (mem_of_block h.block) (fun _ => ?_) fun q raw heq => ?_
  · rw [if_pos rfl]
    rfl
  · rw [hr] at heq
    contradiction

theorem wp_getField_of {Q : Word → State Globals → Prop} {i : ℕ} (hE : E .ub) (hQ : ∀ v, Q v s) :
    wp E (getField p i) Q s := by
  rw [getField, wp_bind, getBytes, wp_ite]
  exact ⟨fun _ => hE, fun _ => wp_readAt_of hE fun _ _ _ _ => wp_pure.mpr (hQ _)⟩

/-- A string in a block of a known size. -/
theorem makeRoom_size (h : StrAt s.mem p b) (hw : ¬ w.toNat ≤ b.free.toNat)
    (hne : L.realloc s.trace s.mem (base p - PREFIX_SIZE) (roomSize b w + PREFIX_SIZE) ≠ none) :
    wp (· ≠ .abort) (sdsMakeRoomFor L p w) (fun r s' => r ≠ NULL ∧ (roomSize b w).toNat + 8 < 2 ^ 64 ∧
      ∃ raw, block s'.mem (base r) = some raw ∧ raw.length = 8 + (roomSize b w).toNat) s := by
  have hub : (Stop.ub ≠ .abort) := by decide
  rw [sdsMakeRoomFor, wp_bind, sdsavail, ← base, wp_getFree h, if_neg (by rwa [BitVec.le_def]), wp_bind,
    wp_getLen h, wp_bind]
  refine (zremalloc_size h hne).mono fun q s₁ hpost => ?_
  obtain ⟨hfits, hplaced, cs, hcs, hlen⟩ := hpost
  rw [if_neg hcs.ne_null, wp_bind]
  apply wp_getField_of hub
  intro v
  rw [wp_bind, setField]
  apply wp_setBytes_of hub hcs
  intro hroom
  have hlong : 8 * 1 + 8 ≤ cs.length := hroom
  rw [wp_pure, base_add]
  refine ⟨sds_ne_null hplaced (by omega), hfits, _, block_put_self, ?_⟩
  rw [List.length_append, wordBytes_length, splice_length hroom, hlen]

/-- A block for which the sum wrapped around is too small for the string. -/
theorem not_roomy {raw : List Byte} (hwrap : ¬ (b.len.toNat + w.toNat) * 2 + 25 < 2 ^ 64)
    (hlen : b.len.toNat < 2 ^ 63) (hfits : (roomSize b w).toNat + 8 < 2 ^ 64)
    (hraw : block s.mem (base p) = some raw) (hsize : raw.length = 8 + (roomSize b w).toNat) :
    ¬ Roomy (b.len.toNat + w.toNat) p s := by
  rintro ⟨raw', hraw', hle⟩
  obtain rfl := Option.some.inj (hraw.symm.trans hraw')
  have hw := w.isLt
  rw [roomSize_toNat] at hsize hfits
  change 8 + (16 + (b.len.toNat + w.toNat) + 1) ≤ raw.length at hle
  omega

theorem Makes.roomy {m₀ : Mem} {S : Multiset Addr} (h : Makes m₀ S s.mem p b) (hn : n < b.chars.length) :
    Roomy n p s := by
  refine ⟨_, h.str.block, ?_⟩
  rw [List.length_append, wordBytes_length, Buf.bytes_length]
  change 8 + (16 + n + 1) ≤ _
  omega

theorem makeRoom_refused {Q : Addr → State Globals → Prop} (h : StrAt s.mem p b) (hw : ¬ w.toNat ≤ b.free.toNat)
    (hr : L.realloc s.trace s.mem (base p - PREFIX_SIZE) (roomSize b w + PREFIX_SIZE) = none) :
    wp Safe (sdsMakeRoomFor L p w) Q s := by
  rw [sdsMakeRoomFor, wp_bind, sdsavail, ← base, wp_getFree h, if_neg (by rwa [BitVec.le_def]), wp_bind, wp_getLen h,
    wp_bind]
  exact zremalloc_refused h hr

theorem makeRoom_gets_iff (h : StrAt s.mem p b) (hp : p ≠ NULL) (hb : b.WellFormed) :
    wp Safe (sdsMakeRoomFor L p w) (fun r s' => Roomy (b.len.toNat + w.toNat) r s' ∧ Spacious w r s') s ↔
      (w.toNat ≤ b.free.toNat ∨ (b.len.toNat + w.toNat) * 2 + 25 < 2 ^ 64) ∨
        L.realloc s.trace s.mem (base p - PREFIX_SIZE) (roomSize b w + PREFIX_SIZE) = none := by
  constructor
  · intro hsafe
    by_contra hno
    simp only [not_or] at hno
    obtain ⟨⟨hw, hwrap⟩, hne⟩ := hno
    obtain ⟨r, s', ⟨hroomy, -⟩, -, hfits, raw, hraw, hsize⟩ := hsafe.clash (makeRoom_size h hw hne)
    exact not_roomy hwrap hb.len_lt hfits hraw hsize hroomy
  · intro hcond
    by_cases hfits : w.toNat ≤ b.free.toNat ∨ (b.len.toNat + w.toNat) * 2 + 25 < 2 ^ 64
    · refine wp_sdsMakeRoomFor_buf h hp hb.size (fun hlt => hfits.resolve_left (by omega)) (fun _ _ => rfl) ?_
      intro r s' free extra hm _ hfree hle _
      have hsize := hb.size
      refine ⟨hm.roomy ?_, free, ?_, BitVec.le_def.mpr hle⟩
      · rw [List.length_append]
        omega
      · apply wp.eq_ok
        rw [sdsavail, ← base, wp_getFree hm.str]
        exact ⟨rfl, rfl⟩
    · exact makeRoom_refused h (not_or.mp hfits).1 (hcond.resolve_left hfits)

theorem newlen_gets_iff : wp Safe ((Request.sdsnewlen t w).alloc L) (fun r s' => Roomy w.toNat r.1 s') s ↔
    w.toNat + 25 < 2 ^ 64 ∨ L.malloc s.trace s.mem (sdshdr.sizeof + w + 1 + PREFIX_SIZE) = none := by
  have hsize : (sdshdr.sizeof + w + 1).toNat = (17 + w.toNat) % 2 ^ 64 := by
    rw [BitVec.toNat_add, BitVec.toNat_add]
    change ((16 + _) % _ + 1) % _ = _
    omega
  have hlt := w.isLt
  rw [Request.alloc, wp_bind]
  constructor
  · intro hsafe
    by_contra hno
    rw [not_or] at hno
    obtain ⟨sh, s', hrest, hfits, hsh, raw, hraw, hlen⟩ := hsafe.clash (zmalloc_size hno.2)
    rw [if_neg hsh, wp_pure] at hrest
    obtain ⟨raw', hraw', hle⟩ := hrest
    rw [base_add] at hraw'
    obtain rfl := Option.some.inj (hraw.symm.trans hraw')
    change 8 + (16 + w.toNat + 1) ≤ raw.length at hle
    omega
  · intro hcond
    by_cases hfits : w.toNat + 25 < 2 ^ 64
    · refine wp_zmalloc rfl (by omega) fun sh raw _ hlen hfresh => ?_
      rw [if_neg hfresh.ne_null, wp_pure]
      refine ⟨wordBytes (BitVec.ofNat 64 (raw.drop 8).length) ++ raw.drop 8, ?_, ?_⟩
      · rw [base_add]
        exact block_put_self
      · rw [List.length_append, wordBytes_length, List.length_drop]
        change 8 + (16 + w.toNat + 1) ≤ _
        omega
    · exact zmalloc_refused (hcond.resolve_left hfits)

theorem cpyRoom_gets_iff (h : StrAt s.mem p b) (hp : p ≠ NULL) (hb : b.WellFormed) :
    wp Safe (sdscpyRoom L p w) (fun r s' => Roomy w.toNat r.1 s') s ↔
      (w.toNat ≤ b.len.toNat + b.free.toNat ∨ w.toNat * 2 + 25 < 2 ^ 64) ∨
        L.realloc s.trace s.mem (base p - PREFIX_SIZE) (roomSize b (w - b.len) + PREFIX_SIZE) = none := by
  have hub : (Stop.ub ≠ .abort) := by decide
  have hlt := w.isLt
  have hlen := hb.len_lt
  have hfree := hb.free_lt
  have htot : (b.free + b.len).toNat = b.len.toNat + b.free.toNat := by
    rw [BitVec.toNat_add]
    omega
  rw [sdscpyRoom, wp_bind, ← base, wp_getFree h, wp_bind, wp_getLen h]
  by_cases hle : w.toNat ≤ b.len.toNat + b.free.toNat
  · refine iff_of_true ?_ (Or.inl (Or.inl hle))
    rw [if_neg (by rw [BitVec.lt_def]; omega), wp_pure]
    exact (Makes.refl h).roomy (by have := hb.size; omega)
  · have hadd : (w - b.len).toNat = w.toNat - b.len.toNat := by
      rw [BitVec.toNat_sub]
      omega
    have hsum : b.len.toNat + (w - b.len).toNat = w.toNat := by omega
    rw [if_pos (by rw [BitVec.lt_def]; omega), wp_bind, or_iff_right hle]
    constructor
    · intro hsafe
      by_contra hno
      rw [not_or] at hno
      have hsize := makeRoom_size h (w := w - b.len) (by omega) hno.2
      obtain ⟨r, s', hrest, hr, hfits, raw, hraw, hlen⟩ := hsafe.clash hsize
      rw [if_neg hr] at hrest
      have hread : wp (· ≠ .abort) (do
          let free ← getField (r - sdshdr.sizeof) sdshdr.free
          let curlen ← getField (r - sdshdr.sizeof) sdshdr.len
          return (r, free + curlen)) (fun a s'' => ¬ Roomy w.toNat a.1 s'') s' := by
        have hshort := not_roomy (w := w - b.len) (by omega) hb.len_lt hfits hraw hlen
        rw [hsum] at hshort
        rw [wp_bind]
        apply wp_getField_of hub
        intro free
        rw [wp_bind]
        apply wp_getField_of hub
        intro curlen
        exact wp_pure.mpr hshort
      obtain ⟨_, _, hroomy, hshort⟩ := hrest.clash hread
      exact hshort hroomy
    · intro hcond
      by_cases hfits : w.toNat * 2 + 25 < 2 ^ 64
      · refine wp_sdsMakeRoomFor_buf h hp hb.size (fun _ => by omega) (fun _ _ => rfl) ?_
        intro r s' free extra hm hr hfree _ _
        have hsize := hb.size
        rw [if_neg hr, ← base, wp_bind, wp_getFree hm.str, wp_bind, wp_getLen hm.str, wp_pure]
        apply hm.roomy
        rw [List.length_append]
        omega
      · exact makeRoom_refused h (by omega) (hcond.resolve_left hfits)

theorem catlen_gets_iff (h : StrAt s.mem p b) (hp : p ≠ NULL) (hb : b.WellFormed) :
    wp Safe ((Request.sdscatlen p t w).alloc L) (fun r s' =>
        Roomy (b.len.toNat + w.toNat) r.1 s' ∧ Spacious w r.1 s') s ↔
      (w.toNat ≤ b.free.toNat ∨ (b.len.toNat + w.toNat) * 2 + 25 < 2 ^ 64) ∨
        L.realloc s.trace s.mem (base p - PREFIX_SIZE) (roomSize b w + PREFIX_SIZE) = none := by
  rw [Request.alloc, wp_bind, wp_sdslenSize_any h, wp_bind]
  exact makeRoom_gets_iff h hp hb

/-- A call gets a block with room for all that it is to write, and as much spare room as was asked
for, or it aborts, exactly if no sum wraps around or the allocator refuses the wrong one. -/
theorem string_gets_room_iff (L : Libc) (r : Request) (s : State Globals) (b : Buf) (h : r.On s b) :
    wp Safe (r.alloc L) (r.Gets b) s ↔ r.Fits b ∨ r.Refused L s b := by
  cases r with
  | sdsnewlen init initlen => exact newlen_gets_iff (t := init)
  | sdscatlen p t len =>
    obtain ⟨hstr, hp, hb⟩ := h
    exact catlen_gets_iff (t := t) hstr hp hb
  | sdscpylen p t len =>
    obtain ⟨hstr, hp, hb⟩ := h
    exact cpyRoom_gets_iff hstr hp hb
  | sdsMakeRoomFor p addlen =>
    obtain ⟨hstr, hp, hb⟩ := h
    rw [Request.alloc, wp_bind]
    exact makeRoom_gets_iff hstr hp hb

theorem string_gets_room_iff_abc : wp Safe ((Request.sdscatlen 0x1018 (.ext [100]) 1).alloc (bump 0))
      ((Request.sdscatlen 0x1018 (.ext [100]) 1).Gets rangeBuf) range₁ ↔
    (Request.sdscatlen 0x1018 (.ext [100]) 1).Fits rangeBuf ∨
      (Request.sdscatlen 0x1018 (.ext [100]) 1).Refused (bump 0) range₁ rangeBuf :=
  string_gets_room_iff (bump 0) (.sdscatlen 0x1018 (.ext [100]) 1) range₁ rangeBuf
    ⟨range_abc.1, by decide, range_abc.2⟩

/-- To make room for 2^63 more characters the block of `"abc"` is cut to 31 bytes, and
`sdsnewlen(NULL, -1)` gets one of 24 bytes. -/
theorem string_gets_no_room :
    ¬ wp Safe ((Request.sdsMakeRoomFor 0x1018 0x8000000000000000).alloc (bump 0))
      ((Request.sdsMakeRoomFor 0x1018 0x8000000000000000).Gets rangeBuf) range₁ ∧
    ¬ wp Safe ((Request.sdsnewlen .null (-1)).alloc (bump 0)) ((Request.sdsnewlen .null (-1)).Gets rangeBuf) zinit := by
  constructor
  · rw [Request.alloc, wp_bind]
    intro hsafe
    have hcond := (makeRoom_gets_iff range_abc.1 (by decide) range_abc.2).mp hsafe
    have hserved : (bump 0).realloc range₁.trace range₁.mem (base 0x1018 - PREFIX_SIZE)
        (roomSize rangeBuf 0x8000000000000000 + PREFIX_SIZE) ≠ none := by decide +kernel
    exact hserved (hcond.resolve_left (by decide))
  · intro hsafe
    have hcond := newlen_gets_iff.mp hsafe
    have hserved : (bump 0).malloc zinit.trace zinit.mem (sdshdr.sizeof + -1 + 1 + PREFIX_SIZE) ≠ none := by
      decide +kernel
    exact hserved (hcond.resolve_left (by decide))

end Redis
