import RedisPlayground.Memory.Runs
import RedisPlayground.Proofs.Strings

/-! Runs of the string functions refine byte strings. The abstract state gives
each live string its content; the label of a step names the bytes the caller
passed and the pointer it got back. -/

namespace Redis

open CMem

inductive SOp where
  | sdsnewlen (init : CharPtr) (initlen : Word)
  | sdsnew (init : CharPtr)
  | sdsempty
  | sdsdup (p : Addr)
  | sdscat (p : Addr) (t : CharPtr)
  | sdscatlen (p : Addr) (t : CharPtr) (len : Word)
  | sdscpy (p : Addr) (t : CharPtr)
  | sdscpylen (p : Addr) (t : CharPtr) (len : Word)
  | sdsclear (p : Addr)
  | sdstrim (p : Addr) (cset : CharPtr)
  | sdsrange (p : Addr) (start last : Word)
  | sdstolower (p : Addr)
  | sdstoupper (p : Addr)

/-- The call, and the string it leaves with the client. -/
def SOp.exec (L : Libc) : SOp → M Addr
  | .sdsnewlen init initlen => Redis.sdsnewlen L init initlen
  | .sdsnew init => Redis.sdsnew L init
  | .sdsempty => Redis.sdsempty L
  | .sdsdup p => Redis.sdsdup L p
  | .sdscat p t => Redis.sdscat L p t
  | .sdscatlen p t len => Redis.sdscatlen L p t len
  | .sdscpy p t => Redis.sdscpy L p t
  | .sdscpylen p t len => Redis.sdscpylen L p t len
  | .sdsclear p => do
    Redis.sdsclear p
    return p
  | .sdstrim p cset => Redis.sdstrim p cset
  | .sdsrange p start last => Redis.sdsrange p start last
  | .sdstolower p => do
    Redis.sdstolower p
    return p
  | .sdstoupper p => do
    Redis.sdstoupper p
    return p

/-- The string a call works on, if it does not make a new one. -/
def SOp.dest : SOp → Option Addr
  | .sdsnewlen _ _ | .sdsnew _ | .sdsempty | .sdsdup _ => none
  | .sdscat p _ | .sdscatlen p _ _ | .sdscpy p _ | .sdscpylen p _ _ | .sdsclear p | .sdstrim p _
  | .sdsrange p _ _ | .sdstolower p | .sdstoupper p => some p

/-- The strings a client has after an operation that left `r` with it. -/
def SOp.live (ls : Finset Addr) (r : Addr) (op : SOp) : Finset Addr :=
  match op.dest with
  | none => insert r ls
  | some p => insert r (ls.erase p)

/-- A call, the bytes found behind its source argument, and what it returned. -/
structure SCall where
  op : SOp
  given : List Byte
  result : Addr

/-- Memory of the caller, or a place in one of the strings `ls`. -/
def CharPtr.From (ls : Finset Addr) : CharPtr → Prop
  | .null => False
  | .ext _ => True
  | .heap q _ => ∃ p ∈ ls, base p = q

/-- `bs` are the `n` bytes, `cs` is the C string behind a pointer. -/
def Gives (s : State Globals) (ls : Finset Addr) (t : CharPtr) (n : ℕ) (bs : List Byte) : Prop :=
  t.From ls ∧ readChars t n s = .ok (bs, s)

def GivesStr (s : State Globals) (ls : Finset Addr) (t : CharPtr) (cs : List Byte) : Prop :=
  t.From ls ∧ cstring t s = .ok (cs, s)

/-- The length of `p` after `n` more bytes is in the range of `sdslen`. -/
def Room (s : State Globals) (p : Addr) (n : ℕ) : Prop :=
  ∃ len, sdslen p s = .ok (len, s) ∧ len.toNat + n < 2 ^ 31

def SOp.Legal (s : State Globals) (ls : Finset Addr) (bs : List Byte) : SOp → Prop
  | .sdsnewlen init initlen => bs.length = initlen.toNat ∧ bs.length < 2 ^ 31 ∧
      (init = .null ∧ bs = List.replicate initlen.toNat 0 ∨ Gives s ls init initlen.toNat bs)
  | .sdsnew init => bs.length < 2 ^ 31 ∧ (init = .null ∧ bs = [] ∨ GivesStr s ls init bs)
  | .sdsempty => True
  | .sdscat p t => p ∈ ls ∧ GivesStr s (ls.erase p) t bs ∧ Room s p bs.length
  | .sdscatlen p t len => p ∈ ls ∧ Gives s (ls.erase p) t len.toNat bs ∧ Room s p len.toNat
  | .sdscpy p t => p ∈ ls ∧ GivesStr s (ls.erase p) t bs ∧ bs.length < 2 ^ 31
  | .sdscpylen p t len => p ∈ ls ∧ Gives s (ls.erase p) t len.toNat bs ∧ len.toNat < 2 ^ 31
  | .sdsdup p | .sdsclear p | .sdstolower p | .sdstoupper p => p ∈ ls
  | .sdstrim _ _ | .sdsrange _ _ _ => False

def sstep (L : Libc) (x : State Globals × Finset Addr) (e : SCall)
    (x' : State Globals × Finset Addr) : Prop :=
  e.op.Legal x.1 x.2 e.given ∧ e.op.exec L x.1 = .ok (e.result, x'.1) ∧ x'.2 = e.op.live x.2 e.result

/-- The contents of the live strings. -/
abbrev Strings := Addr → Option (List Byte)

def Strings.put (A : Strings) (r : Addr) (c : List Byte) : Strings := Function.update A r (some c)

/-- The string `p` is now `r` and has another content. -/
def Strings.move (A : Strings) (p r : Addr) (c : List Byte) : Strings :=
  Strings.put (Function.update A p none) r c

/-- The same operations on byte strings. -/
inductive StrStep : Strings → SCall → Strings → Prop where
  | newlen {A init n bs r} : A r = none → StrStep A ⟨.sdsnewlen init n, bs, r⟩ (A.put r bs)
  | new {A init cs r} : A r = none → StrStep A ⟨.sdsnew init, cs, r⟩ (A.put r cs)
  | empty {A bs r} : A r = none → StrStep A ⟨.sdsempty, bs, r⟩ (A.put r [])
  | dup {A p bs r c} : A p = some c → A r = none → StrStep A ⟨.sdsdup p, bs, r⟩ (A.put r c)
  | cat {A p t cs r c} : A p = some c → (r = p ∨ A r = none) →
      StrStep A ⟨.sdscat p t, cs, r⟩ (A.move p r (c ++ cs))
  | catlen {A p t n bs r c} : A p = some c → (r = p ∨ A r = none) →
      StrStep A ⟨.sdscatlen p t n, bs, r⟩ (A.move p r (c ++ bs))
  | cpy {A p t cs r c} : A p = some c → (r = p ∨ A r = none) →
      StrStep A ⟨.sdscpy p t, cs, r⟩ (A.move p r cs)
  | cpylen {A p t n bs r c} : A p = some c → (r = p ∨ A r = none) →
      StrStep A ⟨.sdscpylen p t n, bs, r⟩ (A.move p r bs)
  | clear {A p bs c} : A p = some c → StrStep A ⟨.sdsclear p, bs, p⟩ (A.move p p [])
  | lower {A p bs c} : A p = some c → StrStep A ⟨.sdstolower p, bs, p⟩ (A.move p p (c.map tolower))
  | upper {A p bs c} : A p = some c → StrStep A ⟨.sdstoupper p, bs, p⟩ (A.move p p (c.map toupper))

/-- What the fields of the header of `p` say, and what its block is. -/
structure Header (s : State Globals) (p : Addr) (len free size : Word) : Prop where
  getLen : getField (base p) sdshdr.len s = .ok (len, s)
  getFree : getField (base p) sdshdr.free s = .ok (free, s)
  zsizeof : zsizeof (base p) s = .ok (size, s)
  len_nonneg : 0 ≤ len.toInt
  free_nonneg : 0 ≤ free.toInt
  size_eq : size.toInt = sdshdr.sizeof.toInt + len.toInt + free.toInt + 1

/-- A string with content `c`. Its C string agrees with the content up to the end of the content. -/
structure HasContent (s : State Globals) (p : Addr) (c : List Byte) : Prop where
  short : c.length < 2 ^ 31
  sdslen : sdslen p s = .ok (BitVec.ofNat 32 c.length, s)
  header : ∃ free size, Header s p (BitVec.ofNat 64 c.length) free size
  chars : getBytes (base p) sdshdr.buf c.length s = .ok (c, s)
  cstring : ∃ cs, cstring (sdsPtr p) s = .ok (cs, s) ∧ c.takeWhile (· ≠ 0) <+: cs

/-- The invariant: the live strings have the contents of the abstract state. -/
structure Keeping (x : State Globals × Finset Addr) (A : Strings) : Prop where
  live : ∀ p, p ∈ x.2 ↔ A p ≠ none
  str : ∀ p c, A p = some c → ∃ room, IsStr x.1.mem p c room

variable {L : Libc} {s s' s₀ : State Globals} {ls : Finset Addr} {A : Strings} {p r : Addr}
  {c c' room bs cs : List Byte} {t : CharPtr} {n : ℕ}

theorem Keeping.init : Keeping (s₀, ∅) fun _ => none := ⟨by simp, by simp⟩

theorem Keeping.find (h : Keeping (s, ls) A) (hp : p ∈ ls) :
    ∃ c room, A p = some c ∧ IsStr s.mem p c room := by
  obtain ⟨c, hc⟩ := Option.ne_none_iff_exists'.mp ((h.live p).mp hp)
  obtain ⟨room, hroom⟩ := h.str p c hc
  exact ⟨c, room, hc, hroom⟩

/-- A string is not touched by an operation that does not own it. -/
theorem IsStr.other {S : Multiset Addr} (h : IsStr s.mem p c room)
    (hu : Updates s.mem s'.mem S {base r}) (hp : base p ∉ S) : IsStr s'.mem p c room ∧ p ≠ r := by
  have hr : base p ∉ ({base r} : Multiset Addr) := fun hmem => h.str.live (hu.fresh _ hmem hp)
  refine ⟨h.congr (hu.frame _ hp hr), ?_⟩
  rintro rfl
  exact hr (Multiset.mem_singleton_self _)

/-- An operation that owns none of the live strings leaves one more. -/
theorem Keeping.put {S : Multiset Addr} (h : Keeping (s, ls) A) (hS : ∀ q ∈ ls, base q ∉ S)
    (hu : Updates s.mem s'.mem S {base r}) (hr : IsStr s'.mem r c room) :
    A r = none ∧ Keeping (s', insert r ls) (A.put r c) := by
  have hother : ∀ q d, A q = some d → (∃ room, IsStr s'.mem q d room) ∧ q ≠ r := by
    intro q d hd
    obtain ⟨room', hq⟩ := h.str q d hd
    have hq' := hq.other hu (hS q ((h.live q).mpr (hd ▸ Option.some_ne_none d)))
    exact ⟨⟨room', hq'.1⟩, hq'.2⟩
  refine ⟨?_, fun q => ?_, fun q d hq => ?_⟩
  · by_contra hne
    obtain ⟨d, hd⟩ := Option.ne_none_iff_exists'.mp hne
    exact (hother r d hd).2 rfl
  · rw [Finset.mem_insert, h.live, Strings.put]
    by_cases hqr : q = r
    · simp [hqr]
    · rw [Function.update_of_ne hqr, or_iff_right hqr]
  · rw [Strings.put] at hq
    by_cases hqr : q = r
    · subst hqr
      rw [Function.update_self, Option.some.injEq] at hq
      exact ⟨room, hq ▸ hr⟩
    · rw [Function.update_of_ne hqr] at hq
      exact (hother q d hq).1

theorem Keeping.drop (h : Keeping (s, ls) A) :
    Keeping (s, ls.erase p) (Function.update A p none) := by
  refine ⟨fun q => ?_, fun q d hq => ?_⟩
  · rw [Finset.mem_erase, h.live]
    by_cases hqp : q = p
    · simp [hqp]
    · rw [Function.update_of_ne hqp, and_iff_right hqp]
  · by_cases hqp : q = p
    · simp [hqp] at hq
    · rw [Function.update_of_ne hqp] at hq
      exact h.str q d hq

theorem Keeping.create (h : Keeping (s, ls) A) (hu : Updates s.mem s'.mem 0 {base r})
    (hr : IsStr s'.mem r c room) : A r = none ∧ Keeping (s', insert r ls) (A.put r c) :=
  h.put (fun _ _ => Multiset.notMem_zero _) hu hr

theorem Keeping.move (h : Keeping (s, ls) A) (hu : Updates s.mem s'.mem {base p} {base r})
    (hr : IsStr s'.mem r c room) :
    (r = p ∨ A r = none) ∧ Keeping (s', insert r (ls.erase p)) (A.move p r c) := by
  have hS : ∀ q ∈ ls.erase p, base q ∉ ({base p} : Multiset Addr) := by
    intro q hq hmem
    exact Finset.ne_of_mem_erase hq (base_sds_inj.mp (Multiset.mem_singleton.mp hmem))
  obtain ⟨hnew, hk⟩ := h.drop.put hS hu hr
  refine ⟨?_, hk⟩
  by_cases hrp : r = p
  · exact Or.inl hrp
  · rw [Function.update_of_ne hrp] at hnew
    exact Or.inr hnew

/-- Where a caller may read from: the live strings are blocks. -/
theorem Keeping.known (h : Keeping (s, ls) A) (ht : t.From ls) : t.Known s.mem := by
  cases t with
  | heap q off =>
    obtain ⟨p, hp, rfl⟩ := ht
    obtain ⟨c, room, -, hstr⟩ := h.find hp
    exact ⟨_, hstr.str⟩
  | _ => trivial

theorem Keeping.reads (h : Keeping (s, ls) A) (ht : Gives s ls t n bs) : Reads s.mem t n bs := by
  have hwp : wp Any (readChars t n) (fun bs s' => Reads s'.mem t n bs) s :=
    wp_readChars_of trivial (h.known ht.1) fun _ hr => hr
  exact hwp.of_ok ht.2

theorem Keeping.reads_str (h : Keeping (s, ls) A) (ht : GivesStr s ls t cs) :
    Reads s.mem t cs.length cs := reads_of_cstring (h.known ht.1) ht.2

theorem avoids_of_from (ht : t.From (ls.erase p)) : t.Avoids {base p} := by
  cases t with
  | heap q off =>
    obtain ⟨r, hr, rfl⟩ := ht
    intro hmem
    exact Finset.ne_of_mem_erase hr (base_sds_inj.mp (Multiset.mem_singleton.mp hmem))
  | _ => trivial

theorem CharPtr.From.mono {ls' : Finset Addr} (ht : t.From ls) (hsub : ls ⊆ ls') : t.From ls' := by
  cases t with
  | heap q off =>
    obtain ⟨p, hp, hq⟩ := ht
    exact ⟨p, hsub hp, hq⟩
  | _ => exact ht

theorem IsStr.sdslen_eq (h : IsStr s.mem p c room) :
    sdslen p s = .ok (BitVec.ofNat 32 c.length, s) := by
  refine wp.eq_ok ?_
  rw [sdslen, wp_bind, ← base, wp_getLen h.str, wp_pure, strBuf, BitVec.setWidth_ofNat_of_le (by decide)]
  exact ⟨rfl, rfl⟩

theorem IsStr.room_lt (h : IsStr s.mem p c room) (hr : Room s p n) : c.length + n < 2 ^ 31 := by
  obtain ⟨len, hlen, hlt⟩ := hr
  have hc := h.len_lt
  rw [h.sdslen_eq, Except.ok.injEq, Prod.mk.injEq] at hlen
  rwa [← hlen.1, BitVec.toNat_ofNat, Nat.mod_eq_of_lt (by omega)] at hlt

theorem toInt_ofNat (hn : n < 2 ^ 32) : (BitVec.ofNat 64 n).toInt = n := by
  rw [BitVec.toInt_eq_toNat_of_lt (by rw [length_toNat hn]; omega), length_toNat hn]

theorem IsStr.header (h : IsStr s.mem p c room) :
    Header s p (BitVec.ofNat 64 c.length) (BitVec.ofNat 64 (room.length - 1))
      (BitVec.ofNat 64 (16 + (c.length + room.length))) := by
  have hpos := h.room_pos
  have hlt := h.size_lt
  have hlen := toInt_ofNat (n := c.length) (by omega)
  have hfree := toInt_ofNat (n := room.length - 1) (by omega)
  have hsize : (BitVec.ofNat 64 (16 + (c.length + room.length))).toInt =
      (16 + (c.length + room.length) : ℕ) := by
    rw [BitVec.toInt_eq_toNat_of_lt] <;> rw [BitVec.toNat_ofNat] <;> omega
  refine ⟨wp.eq_ok ((wp_getLen h.str).mpr ⟨rfl, rfl⟩), wp.eq_ok ((wp_getFree h.str).mpr ⟨rfl, rfl⟩),
    wp.eq_ok ((wp_zsizeof h.str).mpr ⟨?_, rfl⟩), by omega, by omega, ?_⟩
  · rw [Buf.bytes_length, strBuf, List.length_append]
  · rw [hsize, hlen, hfree, show sdshdr.sizeof.toInt = 16 from rfl]
    omega

theorem IsStr.hasContent (h : IsStr s.mem p c room) : HasContent s p c := by
  refine ⟨h.len_lt, h.sdslen_eq, ⟨_, _, h.header⟩, ?_, ?_⟩
  · refine wp.eq_ok ((wp_getChars (i := 0) h.str ?_).mpr ⟨?_, rfl⟩)
    · rw [strBuf, List.length_append]
      omega
    · rw [slice_zero, strBuf, List.take_left]
  · have hdrop : (strBuf c room).bytes.drop sdshdr.buf = c ++ room := Buf.bytes_drop
    have hz : 0 ∈ (strBuf c room).bytes.drop sdshdr.buf := by
      rw [hdrop]
      exact List.mem_append_right c h.nul
    refine ⟨_, wp.eq_ok ((wp_cstring_heap h.str hz).mpr ⟨rfl, rfl⟩), ?_⟩
    rw [hdrop, List.takeWhile_append]
    split
    · exact (List.takeWhile_prefix _).trans (List.prefix_append _ _)
    · exact List.prefix_rfl

theorem sop_step {op : SOp} (h : Keeping (s, ls) A) (hlegal : op.Legal s ls bs) :
    wp Safe (op.exec L) (fun r s' => ∃ A', StrStep A ⟨op, bs, r⟩ A' ∧ Keeping (s', op.live ls r) A')
      s := by
  cases op with
  | sdsnewlen init n =>
    obtain ⟨hlen, hlt, hinit⟩ := hlegal
    rw [← hlen] at hinit
    refine wp_sdsnewlen rfl hlt hlen.symm (hinit.imp_right h.reads) fun r s' hu hr => ?_
    obtain ⟨hnew, hk⟩ := h.create hu hr
    exact ⟨_, StrStep.newlen hnew, hk⟩
  | sdsnew init =>
    obtain ⟨hlt, ⟨rfl, rfl⟩ | hinit⟩ := hlegal
    · refine wp_sdsnewlen rfl hlt rfl (Or.inl ⟨rfl, rfl⟩) fun r s' hu hr => ?_
      obtain ⟨hnew, hk⟩ := h.create hu hr
      exact ⟨_, StrStep.new hnew, hk⟩
    · have hexec : (SOp.sdsnew init).exec L = strlen init >>= fun n => sdsnewlen L init n := by
        cases init with
        | null => exact hinit.1.elim
        | _ => rfl
      rw [hexec, wp_bind]
      refine wp_strlen hinit.2 (wp_sdsnewlen rfl hlt (length_toNat (by omega))
        (Or.inr (h.reads_str hinit)) fun r s' hu hr => ?_)
      obtain ⟨hnew, hk⟩ := h.create hu hr
      exact ⟨_, StrStep.new hnew, hk⟩
  | sdsempty =>
    refine wp_sdsnewlen rfl (show ([] : List Byte).length < _ by decide) rfl (Or.inr ⟨by decide, rfl⟩)
      fun r s' hu hr => ?_
    obtain ⟨hnew, hk⟩ := h.create hu hr
    exact ⟨_, StrStep.empty hnew, hk⟩
  | sdsdup p =>
    obtain ⟨c, room, hA, hp⟩ := h.find hlegal
    refine wp_sdsdup rfl hp fun r s' hu hr => ?_
    obtain ⟨hnew, hk⟩ := h.create hu hr
    exact ⟨_, StrStep.dup hA hnew, hk⟩
  | sdscat p t =>
    obtain ⟨hp, ht, hroom⟩ := hlegal
    obtain ⟨c, room, hA, hp⟩ := h.find hp
    have hlt := hp.room_lt hroom
    have hreads := h.drop.reads_str ht
    rw [SOp.exec, sdscat, wp_bind]
    refine wp_strlen ht.2 (wp_sdscatlen rfl hp (length_toNat (by omega)) hlt hreads
      (avoids_of_from ht.1) fun r s' room' hu hr => ?_)
    obtain ⟨hnew, hk⟩ := h.move hu hr
    exact ⟨_, StrStep.cat hA hnew, hk⟩
  | sdscatlen p t n =>
    obtain ⟨hp, ht, hroom⟩ := hlegal
    obtain ⟨c, room, hA, hp⟩ := h.find hp
    have hlt := hp.room_lt hroom
    have hreads := h.drop.reads ht
    have hlen := hreads.length
    rw [← hlen] at hlt hreads
    refine wp_sdscatlen rfl hp hlen.symm hlt hreads (avoids_of_from ht.1) fun r s' room' hu hr => ?_
    obtain ⟨hnew, hk⟩ := h.move hu hr
    exact ⟨_, StrStep.catlen hA hnew, hk⟩
  | sdscpy p t =>
    obtain ⟨hp, ht, hlt⟩ := hlegal
    obtain ⟨c, room, hA, hp⟩ := h.find hp
    have hreads := h.drop.reads_str ht
    rw [SOp.exec, sdscpy, wp_bind]
    refine wp_strlen ht.2 (wp_sdscpylen rfl hp (length_toNat (by omega)) hlt hreads
      (avoids_of_from ht.1) fun r s' room' hu hr => ?_)
    obtain ⟨hnew, hk⟩ := h.move hu hr
    exact ⟨_, StrStep.cpy hA hnew, hk⟩
  | sdscpylen p t n =>
    obtain ⟨hp, ht, hlt⟩ := hlegal
    obtain ⟨c, room, hA, hp⟩ := h.find hp
    have hreads := h.drop.reads ht
    have hlen := hreads.length
    rw [← hlen] at hlt hreads
    refine wp_sdscpylen rfl hp hlen.symm hlt hreads (avoids_of_from ht.1) fun r s' room' hu hr => ?_
    obtain ⟨hnew, hk⟩ := h.move hu hr
    exact ⟨_, StrStep.cpylen hA hnew, hk⟩
  | sdsclear p =>
    obtain ⟨c, room, hA, hp⟩ := h.find hlegal
    rw [SOp.exec, wp_bind]
    refine wp_sdsclear hp fun s' hu hp => wp_pure.mpr ?_
    exact ⟨_, StrStep.clear hA, (h.move hu hp).2⟩
  | sdstrim p cset => exact hlegal.elim
  | sdsrange p start last => exact hlegal.elim
  | sdstolower p =>
    obtain ⟨c, room, hA, hp⟩ := h.find hlegal
    rw [SOp.exec, wp_bind]
    refine wp_sdstolower hp fun s' hu hp => wp_pure.mpr ?_
    exact ⟨_, StrStep.lower hA, (h.move hu hp).2⟩
  | sdstoupper p =>
    obtain ⟨c, room, hA, hp⟩ := h.find hlegal
    rw [SOp.exec, wp_bind]
    refine wp_sdstoupper hp fun s' hu hp => wp_pure.mpr ?_
    exact ⟨_, StrStep.upper hA, (h.move hu hp).2⟩

/-- Every run of the string functions is a run on byte strings, the heap holds
their contents at its end, and no call has undefined behaviour. -/
theorem strings_refine (L : Libc) (s₀ s : State Globals) (ls : Finset Addr)
    (tr : List ((State Globals × Finset Addr) × SCall)) (h : Run (sstep L) (s₀, ∅) tr (s, ls)) :
    (∃ atr A, Run StrStep (fun _ => none) atr A ∧ labels atr = labels tr ∧
      (∀ p, p ∈ ls ↔ A p ≠ none) ∧ ∀ p c, A p = some c → HasContent s p c) ∧
    ∀ (op : SOp) (bs : List Byte), op.Legal s ls bs → wp Safe (op.exec L) (fun _ _ => True) s := by
  have hstep : ∀ x e x' A, Keeping x A → sstep L x e x' → ∃ A', StrStep A e A' ∧ Keeping x' A' := by
    rintro ⟨s, ls⟩ ⟨op, bs, r⟩ ⟨s', ls'⟩ A hK ⟨hlegal, hok, rfl⟩
    exact (sop_step hK hlegal).of_ok hok
  obtain ⟨atr, A, hrun, hlab, hK⟩ := h.simulates Keeping.init hstep
  refine ⟨⟨atr, A, hrun, hlab, hK.live, fun p c hp => ?_⟩, fun op bs hlegal => ?_⟩
  · obtain ⟨room, hstr⟩ := hK.str p c hp
    exact hstr.hasContent
  · exact (sop_step hK hlegal).mono fun _ _ _ => trivial

/-- A string is made, copied, extended by its copy and cleared. -/
def str₁ : State Globals := after (sdsnew (bump 0) (.ext [97, 0])) zinit
def str₂ : State Globals := after (sdsdup (bump 0) 0x1018) str₁
def str₃ : State Globals := after (sdscat (bump 0) 0x1018 (sdsPtr 0x2018)) str₂
def str₄ : State Globals := after (sdsclear 0x3018) str₃

def strRun : List ((State Globals × Finset Addr) × SCall) :=
  [((zinit, ∅), ⟨.sdsnew (.ext [97, 0]), [97], 0x1018⟩),
    ((str₁, {0x1018}), ⟨.sdsdup 0x1018, [], 0x2018⟩),
    ((str₂, {0x1018, 0x2018}), ⟨.sdscat 0x1018 (sdsPtr 0x2018), [97], 0x3018⟩),
    ((str₃, {0x2018, 0x3018}), ⟨.sdsclear 0x3018, [], 0x3018⟩)]

theorem sstep_ok {L : Libc} {s s' : State Globals} {ls ls' : Finset Addr} {e : SCall}
    (hlegal : e.op.Legal s ls e.given) (hok : e.op.exec L s = .ok (e.result, s'))
    (hls : ls' = e.op.live ls e.result) : sstep L (s, ls) e (s', ls') := ⟨hlegal, hok, hls⟩

theorem run_str : Run (sstep (bump 0)) (zinit, ∅) strRun (str₄, {0x2018, 0x3018}) := by
  have hok₁ : result (SOp.exec (bump 0) (.sdsnew (.ext [97, 0]))) zinit = some 0x1018 := by decide +kernel
  have hok₂ : result (SOp.exec (bump 0) (.sdsdup 0x1018)) str₁ = some 0x2018 := by decide +kernel
  have hok₃ : result (SOp.exec (bump 0) (.sdscat 0x1018 (sdsPtr 0x2018))) str₂ = some 0x3018 := by decide +kernel
  have hok₄ : result (SOp.exec (bump 0) (.sdsclear 0x3018)) str₃ = some 0x3018 := by decide +kernel
  have h₁ : sstep (bump 0) (zinit, ∅) ⟨.sdsnew (.ext [97, 0]), [97], 0x1018⟩ (str₁, {0x1018}) :=
    sstep_ok ⟨by decide, Or.inr ⟨trivial, rfl⟩⟩ (ok_after hok₁) rfl
  have h₂ : sstep (bump 0) (str₁, {0x1018}) ⟨.sdsdup 0x1018, [], 0x2018⟩
      (str₂, {0x1018, 0x2018}) := sstep_ok (Finset.mem_singleton_self _) (ok_after hok₂) (by decide)
  have h₃ : sstep (bump 0) (str₂, {0x1018, 0x2018}) ⟨.sdscat 0x1018 (sdsPtr 0x2018), [97], 0x3018⟩
      (str₃, {0x2018, 0x3018}) :=
    sstep_ok ⟨by decide, ⟨⟨0x2018, by decide, rfl⟩, rfl⟩, 1, rfl, by decide⟩ (ok_after hok₃) (by decide)
  have hmem : (0x3018 : Addr) ∈ ({0x2018, 0x3018} : Finset Addr) := by decide
  have h₄ : sstep (bump 0) (str₃, {0x2018, 0x3018}) ⟨.sdsclear 0x3018, [], 0x3018⟩
      (str₄, {0x2018, 0x3018}) := sstep_ok hmem (ok_after hok₄) (by decide)
  exact (((Run.nil.snoc h₁).snoc h₂).snoc h₃).snoc h₄

theorem strings_refine_copy : (∃ atr A, Run StrStep (fun _ => none) atr A ∧ labels atr = labels strRun ∧
      (∀ p, p ∈ ({0x2018, 0x3018} : Finset Addr) ↔ A p ≠ none) ∧
      ∀ p c, A p = some c → HasContent str₄ p c) ∧
    ∀ (op : SOp) (bs : List Byte), op.Legal str₄ {0x2018, 0x3018} bs →
      wp Safe (op.exec (bump 0)) (fun _ _ => True) str₄ :=
  strings_refine (bump 0) zinit str₄ {0x2018, 0x3018} strRun run_str

end Redis
