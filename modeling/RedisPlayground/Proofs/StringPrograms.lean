import RedisPlayground.Memory.Callers
import RedisPlayground.Proofs.Compare
import RedisPlayground.Proofs.StringCuts

/-! Programs that keep strings in variables and choose their calls by the answers of
earlier ones. What they mean is said without a heap. -/

namespace Redis

open CMem

/-- The characters of a string, and what a C function reads behind them up to the
NUL. An `sdsclear` leaves the old characters there, every other call nothing. -/
structure Phrase where
  chars : List Byte
  tail : List Byte
  clean : 0 ∉ tail

namespace Phrase

def of (cs : List Byte) : Phrase := ⟨cs, [], List.not_mem_nil⟩

/-- What is known to stand in the buffer. -/
def bytes (t : Phrase) : List Byte := t.chars ++ t.tail ++ [0]

theorem notMem_takeWhile {bs : List Byte} : 0 ∉ bs.takeWhile (· ≠ 0) :=
  fun h => by simpa using List.mem_takeWhile_imp h

def clear (t : Phrase) : Phrase := ⟨[], (t.chars ++ t.tail).takeWhile (· ≠ 0), notMem_takeWhile⟩

def map (f : Byte → Byte) (t : Phrase) : Phrase := { t with chars := t.chars.map f }

end Phrase

/-- The strings in the variables of a program, and where they are. -/
abbrev Phrases := ℕ → Option Phrase
abbrev Vars := ℕ → Addr

def Phrases.drop (a : Phrases) (x : ℕ) : Phrases := Function.update a x none

/-- An argument of type `const char *`: no memory, bytes of the program, or a place in a string. -/
inductive Source where
  | null
  | bytes (bs : List Byte)
  | var (y off : ℕ)

namespace Source

def ptr (v : Vars) : Source → CharPtr
  | .null => .null
  | .bytes bs => .ext bs
  | .var y off => .heap (base (v y)) (sdshdr.buf + off)

/-- What is known to stand at the argument. -/
def known (a : Phrases) : Source → Option (List Byte)
  | .null => none
  | .bytes bs => some bs
  | .var y off => (a y).bind fun t => if off ≤ t.bytes.length then some (t.bytes.drop off) else none

def give (a : Phrases) (n : ℕ) (t : Source) : Option (List Byte) :=
  (t.known a).bind fun bs => if n ≤ bs.length then some (bs.take n) else none

def str (a : Phrases) (t : Source) : Option (List Byte) :=
  (t.known a).bind fun bs => if 0 ∈ bs then some (bs.takeWhile (· ≠ 0)) else none

/-- What `sdsnewlen` and `sdsnew` store, which take NULL too. -/
def fill (a : Phrases) (n : ℕ) : Source → Option (List Byte)
  | .null => some (List.replicate n 0)
  | t => t.give a n

def initial (a : Phrases) : Source → Option (List Byte)
  | .null => some []
  | t => t.str a

end Source

/-- The calls of a program, on its variables. -/
inductive Cmd where
  | sdsnewlen (x : ℕ) (init : Source) (initlen : Word)
  | sdsnew (x : ℕ) (init : Source)
  | sdsempty (x : ℕ)
  | sdsdup (x y : ℕ)
  | sdscat (x : ℕ) (t : Source)
  | sdscatlen (x : ℕ) (t : Source) (len : Word)
  | sdscpy (x : ℕ) (t : Source)
  | sdscpylen (x : ℕ) (t : Source) (len : Word)
  | sdsclear (x : ℕ)
  | sdstrim (x : ℕ) (cset : Source)
  | sdsrange (x : ℕ) (start last : Word)
  | sdstolower (x : ℕ)
  | sdstoupper (x : ℕ)
  | sdsfree (x : ℕ)
  | sdslen (x : ℕ)
  | sdscmp (x y : ℕ)
  | char (x i : ℕ)

namespace Cmd

/-- `x = call`. -/
def assign (x : ℕ) (call : M Addr) (v : Vars) : M (ℤ × Vars) := do
  let p ← call
  return (0, Function.update v x p)

/-- The call and its answer; of `sdscmp` the answer is the sign. -/
def exec (L : Libc) (K : Memcmp) : Cmd → Vars → M (ℤ × Vars)
  | .sdsnewlen x init n, v => assign x (Redis.sdsnewlen L (init.ptr v) n) v
  | .sdsnew x init, v => assign x (Redis.sdsnew L (init.ptr v)) v
  | .sdsempty x, v => assign x (Redis.sdsempty L) v
  | .sdsdup x y, v => assign x (Redis.sdsdup L (v y)) v
  | .sdscat x t, v => assign x (Redis.sdscat L (v x) (t.ptr v)) v
  | .sdscatlen x t n, v => assign x (Redis.sdscatlen L (v x) (t.ptr v) n) v
  | .sdscpy x t, v => assign x (Redis.sdscpy L (v x) (t.ptr v)) v
  | .sdscpylen x t n, v => assign x (Redis.sdscpylen L (v x) (t.ptr v) n) v
  | .sdstrim x cset, v => assign x (Redis.sdstrim (v x) (cset.ptr v)) v
  | .sdsrange x i j, v => assign x (Redis.sdsrange (v x) i j) v
  | .sdsclear x, v => do
    Redis.sdsclear (v x)
    return (0, v)
  | .sdstolower x, v => do
    Redis.sdstolower (v x)
    return (0, v)
  | .sdstoupper x, v => do
    Redis.sdstoupper (v x)
    return (0, v)
  | .sdsfree x, v => do
    Redis.sdsfree (v x)
    return (0, v)
  | .sdslen x, v => do
    let n ← Redis.sdslen (v x)
    return (n.toInt, v)
  | .sdscmp x y, v => do
    let r ← Redis.sdscmp K (v x) (v y)
    return (r.toInt.sign, v)
  | .char x i, v => do
    let c ← getChar (v x) i
    return (c.toNat, v)

/-- The string `x` is now `t`, if `sdslen` can say its length. -/
def store (a : Phrases) (x : ℕ) (t : Phrase) : Option (ℤ × Phrases) :=
  if t.chars.length < 2 ^ 31 then some (0, Function.update a x (some t)) else none

/-- The sign of `sdscmp`. -/
def order (xs ys : List Byte) : ℤ := if xs < ys then -1 else if ys < xs then 1 else 0

/-- What a call means. Calls are left out that read the string they change, which may move
(`sdscatlen` of itself), that look behind the end of what is known, and a `sdstrim` that
finds no terminator. -/
def means : Cmd → Phrases → Option (ℤ × Phrases)
  | .sdsnewlen x init n, a => do
    let bs ← init.fill a n.toNat
    store a x (.of bs)
  | .sdsnew x init, a => do
    let cs ← init.initial a
    store a x (.of cs)
  | .sdsempty x, a => store a x (.of [])
  | .sdsdup x y, a => do
    let t ← a y
    store a x (.of t.chars)
  | .sdscat x t, a => do
    let u ← a x
    let cs ← t.str (a.drop x)
    store a x (.of (u.chars ++ cs))
  | .sdscatlen x t n, a => do
    let u ← a x
    let bs ← t.give (a.drop x) n.toNat
    store a x (.of (u.chars ++ bs))
  | .sdscpy x t, a => do
    let _ ← a x
    let cs ← t.str (a.drop x)
    store a x (.of cs)
  | .sdscpylen x t n, a => do
    let _ ← a x
    let bs ← t.give (a.drop x) n.toNat
    store a x (.of bs)
  | .sdsclear x, a => do
    let u ← a x
    store a x u.clear
  | .sdstrim x cset, a => do
    let u ← a x
    let cs ← cset.str a
    if u.tail = [] then store a x (.of (strip (matched cs) u.chars)) else none
  | .sdsrange x i j, a => do
    let u ← a x
    let start := fromEnd i.toInt u.chars.length
    let last := fromEnd j.toInt u.chars.length
    if u.chars = [] then store a x u
    else if InRange u.chars.length start last then store a x (.of (part u.chars start last)) else none
  | .sdstolower x, a => do
    let u ← a x
    store a x (u.map tolower)
  | .sdstoupper x, a => do
    let u ← a x
    store a x (u.map toupper)
  | .sdsfree x, a => do
    let _ ← a x
    return (0, a.drop x)
  | .sdslen x, a => do
    let u ← a x
    return (u.chars.length, a)
  | .sdscmp x y, a => do
    let u ← a x
    let t ← a y
    return (order u.chars t.chars, a)
  | .char x i, a => do
    let u ← a x
    let c ← u.bytes[i]?
    return (c.toNat, a)

end Cmd

/-- A string of the program on the heap. -/
def PhraseAt (m : Mem) (p : Addr) (t : Phrase) : Prop := ∃ rest, IsStr m p t.chars (t.tail ++ 0 :: rest)

/-- The variables hold the strings, no two of them the same one. -/
structure Assigned (m : Mem) (v : Vars) (a : Phrases) : Prop where
  holds : ∀ x t, a x = some t → PhraseAt m (v x) t
  apart : ∀ x y, a x ≠ none → a y ≠ none → v x = v y → x = y

variable {L : Libc} {K : Memcmp} {s s' : State Globals} {m : Mem} {v : Vars} {a : Phrases} {x y n i : ℕ} {p r : Addr}
  {t u : Phrase} {c room bs cs : List Byte} {src : Source} {S : Multiset Addr} {e : ℤ × Phrases}

section Reading

/-- The buffer of a string begins with what is known of it. -/
theorem PhraseAt.buffer (h : PhraseAt m p t) : ∃ b rest, StrAt m p b ∧ b.chars = t.bytes ++ rest := by
  obtain ⟨rest, h⟩ := h
  refine ⟨_, rest, h.str, ?_⟩
  change t.chars ++ (t.tail ++ 0 :: rest) = t.chars ++ t.tail ++ [0] ++ rest
  rw [List.append_assoc, List.append_assoc, List.singleton_append]

theorem Source.give_reads (h : Assigned m v a) (hg : src.give a n = some bs) :
    n = bs.length ∧ Reads m (src.ptr v) bs.length bs := by
  suffices hreads : Reads m (src.ptr v) n bs by
    rw [hreads.length]
    exact ⟨rfl, hreads⟩
  obtain ⟨ks, hk, hg⟩ := Option.bind_eq_some_iff.mp hg
  obtain ⟨hn, hbs⟩ := Option.ite_none_right_eq_some.mp hg
  obtain rfl := Option.some.inj hbs
  cases src with
  | null => contradiction
  | bytes ks' =>
    obtain rfl := Option.some.inj hk
    exact ⟨hn, rfl⟩
  | var y off =>
    obtain ⟨t, ht, hk⟩ := Option.bind_eq_some_iff.mp hk
    obtain ⟨hoff, hks⟩ := Option.ite_none_right_eq_some.mp hk
    obtain rfl := Option.some.inj hks
    obtain ⟨b, rest, hb, hchars⟩ := (h.holds y t ht).buffer
    rw [List.length_drop] at hn
    refine ⟨b.bytes, hb, ?_, ?_⟩
    · rw [Buf.bytes_length, hchars, List.length_append]
      change 16 + off + n ≤ _
      omega
    · rw [slice_chars, hchars, slice_append_left (by omega)]
      rfl

theorem takeWhile_left {f : Byte → Bool} {xs ys : List Byte} {z : Byte} (hz : z ∈ xs) (hf : ¬ f z) :
    (xs ++ ys).takeWhile f = xs.takeWhile f := by
  rw [List.takeWhile_append, if_neg]
  intro hlen
  have hall := List.takeWhile_eq_self_iff.mp ((List.takeWhile_prefix f (l := xs)).eq_of_length hlen)
  exact hf (hall z hz)

theorem Source.str_reads (h : Assigned s.mem v a) (hg : src.str a = some cs) :
    cstring (src.ptr v) s = .ok (cs, s) := by
  obtain ⟨ks, hk, hg⟩ := Option.bind_eq_some_iff.mp hg
  obtain ⟨hz, hcs⟩ := Option.ite_none_right_eq_some.mp hg
  obtain rfl := Option.some.inj hcs
  apply wp.eq_ok
  cases src with
  | null => contradiction
  | bytes ks' =>
    obtain rfl := Option.some.inj hk
    rw [ptr, cstring, wp_bind, restChars, wp_pure, if_pos hz, wp_pure]
    exact ⟨rfl, rfl⟩
  | var y off =>
    obtain ⟨t, ht, hk⟩ := Option.bind_eq_some_iff.mp hk
    obtain ⟨hoff, hks⟩ := Option.ite_none_right_eq_some.mp hk
    obtain rfl := Option.some.inj hks
    obtain ⟨b, rest, hb, hchars⟩ := (h.holds y t ht).buffer
    have hdrop : b.bytes.drop (sdshdr.buf + off) = t.bytes.drop off ++ rest := by
      rw [← List.drop_drop, Buf.bytes_drop, hchars, List.drop_append_of_le_length hoff]
    have hmem : 0 ∈ b.bytes.drop (sdshdr.buf + off) := hdrop ▸ List.mem_append_left _ hz
    refine (wp_cstring_heap hb hmem).mpr ⟨?_, rfl⟩
    rw [hdrop]
    exact takeWhile_left hz (by simp)

/-- A C string is the bytes up to its length. -/
theorem Source.give_str (hg : src.str a = some cs) : src.give a cs.length = some cs := by
  obtain ⟨ks, hk, hg⟩ := Option.bind_eq_some_iff.mp hg
  obtain ⟨-, hcs⟩ := Option.ite_none_right_eq_some.mp hg
  obtain rfl := Option.some.inj hcs
  have hpre : ks.takeWhile (· ≠ 0) <+: ks := List.takeWhile_prefix _
  rw [give, hk, Option.bind_some, if_pos hpre.length_le, ← List.prefix_iff_eq_take.mp hpre]

theorem Phrases.of_drop (hy : a.drop x y = some t) : y ≠ x ∧ a y = some t := by
  by_cases hyx : y = x
  · rw [drop, hyx, Function.update_self] at hy
    contradiction
  · rw [drop, Function.update_of_ne hyx] at hy
    exact ⟨hyx, hy⟩

theorem Assigned.drop (h : Assigned m v a) (x : ℕ) : Assigned m v (a.drop x) := by
  refine ⟨fun y t hy => h.holds y t (Phrases.of_drop hy).2, fun y z hy hz hyz => ?_⟩
  obtain ⟨t, ht⟩ := Option.ne_none_iff_exists'.mp hy
  obtain ⟨u, hu⟩ := Option.ne_none_iff_exists'.mp hz
  have hy := (Phrases.of_drop ht).2
  have hz := (Phrases.of_drop hu).2
  exact h.apart y z (hy ▸ Option.some_ne_none t) (hz ▸ Option.some_ne_none u) hyz

end Reading

section Writing

/-- A terminator behind the content and nothing before it. -/
theorem phraseAt_of_ends {m₀ : Mem} (h : IsStr m r c room) (hend : LeavesEnd m₀ S m r) : PhraseAt m r (.of c) := by
  obtain ⟨b, hb⟩ := hend.ends
  obtain rfl := hb.str.unique h.str
  have hnul : (c ++ room)[(strBuf c room).len.toNat]? = some 0 := hb.nul
  rw [strBuf_len h, List.getElem?_append_right (Nat.le_refl _), Nat.sub_self] at hnul
  cases room with
  | nil => contradiction
  | cons z rest =>
    obtain rfl := Option.some.inj hnul
    exact ⟨rest, h⟩

/-- What a call leaves that owns the blocks `S`. -/
def Puts (s : State Globals) (S : Multiset Addr) (t : Phrase) (r : Addr) (s' : State Globals) : Prop :=
  Updates s.mem s'.mem S {base r} ∧ PhraseAt s'.mem r t

/-- The strings in other variables than `x` are not among the blocks a call owns. -/
def Elsewhere (S : Multiset Addr) (v : Vars) (a : Phrases) (x : ℕ) : Prop := ∀ y, y ≠ x → a y ≠ none → base (v y) ∉ S

theorem elsewhere_zero : Elsewhere 0 v a x := fun _ _ _ => Multiset.notMem_zero _

theorem Assigned.elsewhere (h : Assigned m v a) (hx : a x = some t) : Elsewhere {base (v x)} v a x := by
  intro y hyx hy hmem
  exact hyx (h.apart y x hy (hx ▸ Option.some_ne_none t) (base_sds_inj.mp (Multiset.mem_singleton.mp hmem)))

/-- What is read from another string than `x` is not in the block of `x`. -/
theorem Source.give_avoids (h : Assigned m v a) (hx : a x = some u) (hg : src.give (a.drop x) n = some bs) :
    (src.ptr v).Avoids {base (v x)} := by
  cases src with
  | var y off =>
    obtain ⟨ks, hk, -⟩ := Option.bind_eq_some_iff.mp hg
    obtain ⟨t, ht, -⟩ := Option.bind_eq_some_iff.mp hk
    obtain ⟨hyx, ht⟩ := Phrases.of_drop ht
    exact h.elsewhere hx y hyx (ht ▸ Option.some_ne_none t)
  | _ => trivial

theorem Assigned.update (h : Assigned s.mem v a) (hS : Elsewhere S v a x) (hput : Puts s S t r s') :
    Assigned s'.mem (Function.update v x r) (Function.update a x (some t)) := by
  have hother : ∀ y u, y ≠ x → a y = some u → PhraseAt s'.mem (v y) u ∧ v y ≠ r := by
    intro y u hyx hy
    obtain ⟨rest, hstr⟩ := h.holds y u hy
    obtain ⟨hstr', hne⟩ := hstr.other hput.1 (hS y hyx (hy ▸ Option.some_ne_none u))
    exact ⟨⟨rest, hstr'⟩, hne⟩
  have hnew : ∀ y, y ≠ x → Function.update a x (some t) y ≠ none → v y ≠ r := by
    intro y hyx hy
    rw [Function.update_of_ne hyx] at hy
    obtain ⟨u, hyu⟩ := Option.ne_none_iff_exists'.mp hy
    exact (hother y u hyx hyu).2
  refine ⟨fun y u hy => ?_, fun y z hy hz hyz => ?_⟩
  · by_cases hyx : y = x
    · subst hyx
      rw [Function.update_self] at hy ⊢
      obtain rfl := Option.some.inj hy
      exact hput.2
    · rw [Function.update_of_ne hyx] at hy ⊢
      exact (hother y u hyx hy).1
  · by_cases hyx : y = x <;> by_cases hzx : z = x
    · rw [hyx, hzx]
    · rw [hyx, Function.update_self, Function.update_of_ne hzx] at hyz
      exact absurd hyz.symm (hnew z hzx hz)
    · rw [hzx, Function.update_self, Function.update_of_ne hyx] at hyz
      exact absurd hyz (hnew y hyx hy)
    · rw [Function.update_of_ne hyx, Function.update_of_ne hzx] at hyz
      rw [Function.update_of_ne hyx] at hy
      rw [Function.update_of_ne hzx] at hz
      exact h.apart y z hy hz hyz

/-- What a program knows after a call. -/
abbrev Answered (e : ℤ × Phrases) (z : ℤ × Vars) (s : State Globals) : Prop := z.1 = e.1 ∧ Assigned s.mem z.2 e.2

theorem Assigned.store (h : Assigned s.mem v a) (he : Cmd.store a x t = some e) (hS : Elsewhere S v a x)
    (hput : Puts s S t r s') : Answered e (0, Function.update v x r) s' := by
  obtain ⟨-, he⟩ := Option.ite_none_right_eq_some.mp he
  obtain rfl := Option.some.inj he
  exact ⟨rfl, h.update hS hput⟩

theorem wp_assign {call : M Addr} (h : Assigned s.mem v a) (he : Cmd.store a x t = some e) (hS : Elsewhere S v a x)
    (hcall : wp Safe call (Puts s S t) s) : wp Safe (Cmd.assign x call v) (Answered e) s := by
  apply wp_bind.mpr
  exact hcall.mono fun r s' hput => wp_pure.mpr (h.store he hS hput)

/-- A call that leaves the string in its place. -/
theorem wp_change {call : M Unit} (h : Assigned s.mem v a) (hx : a x = some u) (he : Cmd.store a x t = some e)
    (hcall : wp Safe call (fun _ => Puts s {base (v x)} t (v x)) s) :
    wp Safe (do call; return (0, v)) (Answered e) s := by
  apply wp_bind.mpr
  refine hcall.mono fun _ s' hput => wp_pure.mpr ?_
  have hafter := h.store he (h.elsewhere hx) hput
  rwa [Function.update_eq_self] at hafter

end Writing

section Calls

variable {w : Word} {init : CharPtr} {q : CharPtr}

theorem puts_sdsnewlen (hn : bs.length < 2 ^ 31) (hw : w.toNat = bs.length)
    (hinit : init = .null ∧ bs = List.replicate bs.length 0 ∨ Reads s.mem init bs.length bs) :
    wp Safe (sdsnewlen L init w) (Puts s 0 (.of bs)) s :=
  wp_sdsnewlen rfl hn hw hinit fun _ _ hu hr => ⟨hu, [], hr⟩

/-- A call of which it is known what it stores, and that it stores a terminator. -/
theorem puts_of_ends {call : M Addr} (hcall : ∀ Q : Addr → State Globals → Prop,
      (∀ r s' room', Updates s.mem s'.mem S {base r} → IsStr s'.mem r c room' → Q r s') → wp Safe call Q s)
    (hend : wp Any call (fun r s' => LeavesEnd s.mem S s'.mem r) s) : wp Safe call (Puts s S (.of c)) s := by
  have hstored := hcall (fun r s' => Updates s.mem s'.mem S {base r} ∧ ∃ room', IsStr s'.mem r c room')
    fun r s' room' hu hr => ⟨hu, room', hr⟩
  refine (hstored.and_any hend).mono ?_
  rintro r s' ⟨⟨hu, room', hr⟩, hend⟩
  exact ⟨hu, phraseAt_of_ends hr hend⟩

theorem puts_sdscatlen (h : IsStr s.mem p c room) (hw : w.toNat = bs.length) (hn : c.length + bs.length < 2 ^ 31)
    (hq : Reads s.mem q bs.length bs) (hav : q.Avoids {base p}) :
    wp Safe (sdscatlen L p q w) (Puts s {base p} (.of (c ++ bs))) s :=
  puts_of_ends (fun _ hQ => wp_sdscatlen rfl h hw hn hq hav hQ) (sdscatlen_ends h.str h.ne_null)

theorem puts_sdscpylen (h : IsStr s.mem p c room) (hw : w.toNat = bs.length) (hn : bs.length < 2 ^ 31)
    (hq : Reads s.mem q bs.length bs) (hav : q.Avoids {base p}) :
    wp Safe (sdscpylen L p q w) (Puts s {base p} (.of bs)) s :=
  puts_of_ends (fun _ hQ => wp_sdscpylen rfl h hw hn hq hav hQ) (sdscpylen_ends h.str h.ne_null)

/-- What stands in front of a NUL, cut at the first one. -/
theorem exists_nul_split (xs rest : List Byte) : ∃ rest', xs ++ 0 :: rest = xs.takeWhile (· ≠ 0) ++ 0 :: rest' := by
  induction xs with
  | nil => exact ⟨rest, rfl⟩
  | cons x xs ih =>
    by_cases hx : x = 0
    · refine ⟨xs ++ 0 :: rest, ?_⟩
      rw [List.takeWhile_cons_of_neg (by simpa using hx), hx]
      rfl
    · obtain ⟨rest', hrest'⟩ := ih
      refine ⟨rest', ?_⟩
      rw [List.takeWhile_cons_of_pos (by simpa using hx), List.cons_append, List.cons_append, hrest']

/-- The old characters stay in front of the first NUL. -/
theorem puts_sdsclear (h : PhraseAt s.mem p t) :
    wp Safe (sdsclear p) (fun _ => Puts s {base p} t.clear p) s := by
  obtain ⟨rest, h⟩ := h
  refine wp_sdsclear h fun s' hu hstr => ⟨hu, ?_⟩
  obtain ⟨rest', hrest'⟩ := exists_nul_split (t.chars ++ t.tail) rest
  refine ⟨rest', ?_⟩
  rw [← List.append_assoc, hrest'] at hstr
  exact hstr

theorem puts_sdstrim (h : IsStr s.mem p c room) (hnul : Terminated s p) (hq : cstring q s = .ok (cs, s)) :
    wp Safe (sdstrim p q) (Puts s {base p} (.of (strip (matched cs) c))) s :=
  wp_sdstrim_str h hnul hq fun _ rest hu hstr => ⟨hu, rest, hstr⟩

end Calls

section Steps

theorem store_lt (he : Cmd.store a x t = some e) : t.chars.length < 2 ^ 31 :=
  (Option.ite_none_right_eq_some.mp he).1

theorem IsStr.wellFormed (h : IsStr m p c room) : (strBuf c room).WellFormed := by
  have hpos := h.room_pos
  have hlt := h.size_lt
  have hlen := toInt_ofNat (n := c.length) (by omega)
  have hfree := toInt_ofNat (n := room.length - 1) (by omega)
  refine ⟨hlen ▸ Int.natCast_nonneg _, hfree ▸ Int.natCast_nonneg _, ?_⟩
  rw [strBuf_chars, strBuf_len h, strBuf, length_toNat (by omega)]
  omega

theorem Compares.sign {k : BitVec 32} {xs ys : List Byte} (h : Compares k xs ys) : k.toInt.sign = Cmd.order xs ys := by
  unfold Cmd.order
  split
  · next hlt => exact Int.sign_eq_neg_one_of_neg (h.neg.mpr hlt)
  · next hge =>
    split
    · next hgt => exact Int.sign_eq_one_of_pos (h.pos.mpr hgt)
    · next hle =>
      have hneg := mt h.neg.mp hge
      have hpos := mt h.pos.mp hle
      rw [show k.toInt = 0 by omega]
      rfl

/-- A call that only looks at strings. -/
theorem wp_look {β : Type} {call : M β} {f : β → ℤ} {z : ℤ} (h : Assigned s.mem v a)
    (hcall : wp Safe call (fun b s' => s' = s ∧ f b = z) s) :
    wp Safe (do let b ← call; return (f b, v)) (Answered (z, a)) s := by
  apply wp_bind.mpr
  refine hcall.mono fun b s' hb => wp_pure.mpr ?_
  rw [hb.1, hb.2]
  exact ⟨rfl, h⟩

theorem exists_of_bind {α β : Type} {o : Option α} {f : α → Option β} {b : β} (h : o >>= f = some b) :
    ∃ z, o = some z ∧ f z = some b := Option.bind_eq_some_iff.mp h

theorem cmd_step {op : Cmd} (h : Assigned s.mem v a) (he : op.means a = some e) :
    wp Safe (op.exec L K v) (Answered e) s := by
  cases op with
  | sdsnewlen x init n =>
    obtain ⟨bs, hbs, he⟩ := exists_of_bind he
    have hlt : bs.length < 2 ^ 31 := store_lt he
    refine wp_assign h he elsewhere_zero ?_
    cases init with
    | null =>
      obtain rfl := Option.some.inj hbs
      exact puts_sdsnewlen hlt List.length_replicate.symm (Or.inl ⟨rfl, by rw [List.length_replicate]⟩)
    | _ =>
      obtain ⟨hlen, hreads⟩ := Source.give_reads h hbs
      exact puts_sdsnewlen hlt hlen (Or.inr hreads)
  | sdsnew x init =>
    obtain ⟨cs, hcs, he⟩ := exists_of_bind he
    have hlt : cs.length < 2 ^ 31 := store_lt he
    refine wp_assign h he elsewhere_zero ?_
    cases init with
    | null =>
      obtain rfl := Option.some.inj hcs
      exact puts_sdsnewlen hlt rfl (Or.inl ⟨rfl, rfl⟩)
    | _ =>
      refine wp_bind.mpr (wp_strlen (Source.str_reads h hcs) ?_)
      exact puts_sdsnewlen hlt (length_toNat (by omega)) (Or.inr (Source.give_reads h (Source.give_str hcs)).2)
  | sdsempty x => exact wp_assign h he elsewhere_zero (puts_sdsnewlen (by decide) rfl (Or.inr ⟨by decide, rfl⟩))
  | sdsdup x y =>
    obtain ⟨t, hy, he⟩ := exists_of_bind he
    obtain ⟨rest, hstr⟩ := h.holds y t hy
    exact wp_assign h he elsewhere_zero (wp_sdsdup rfl hstr fun _ _ hu hr => ⟨hu, [], hr⟩)
  | sdscat x t =>
    obtain ⟨u, hx, he⟩ := exists_of_bind he
    obtain ⟨cs, hcs, he⟩ := exists_of_bind he
    obtain ⟨rest, hstr⟩ := h.holds x u hx
    have hlt : (u.chars ++ cs).length < 2 ^ 31 := store_lt he
    rw [List.length_append] at hlt
    refine wp_assign h he (h.elsewhere hx) ?_
    refine wp_bind.mpr (wp_strlen (Source.str_reads (h.drop x) hcs) ?_)
    have hgive := Source.give_str hcs
    exact puts_sdscatlen hstr (length_toNat (by omega)) hlt (Source.give_reads (h.drop x) hgive).2
      (Source.give_avoids h hx hgive)
  | sdscatlen x t n =>
    obtain ⟨u, hx, he⟩ := exists_of_bind he
    obtain ⟨bs, hbs, he⟩ := exists_of_bind he
    obtain ⟨rest, hstr⟩ := h.holds x u hx
    have hlt : (u.chars ++ bs).length < 2 ^ 31 := store_lt he
    rw [List.length_append] at hlt
    obtain ⟨hlen, hreads⟩ := Source.give_reads (h.drop x) hbs
    exact wp_assign h he (h.elsewhere hx) (puts_sdscatlen hstr hlen hlt hreads (Source.give_avoids h hx hbs))
  | sdscpy x t =>
    obtain ⟨u, hx, he⟩ := exists_of_bind he
    obtain ⟨cs, hcs, he⟩ := exists_of_bind he
    obtain ⟨rest, hstr⟩ := h.holds x u hx
    have hlt : cs.length < 2 ^ 31 := store_lt he
    refine wp_assign h he (h.elsewhere hx) ?_
    refine wp_bind.mpr (wp_strlen (Source.str_reads (h.drop x) hcs) ?_)
    have hgive := Source.give_str hcs
    exact puts_sdscpylen hstr (length_toNat (by omega)) hlt (Source.give_reads (h.drop x) hgive).2
      (Source.give_avoids h hx hgive)
  | sdscpylen x t n =>
    obtain ⟨u, hx, he⟩ := exists_of_bind he
    obtain ⟨bs, hbs, he⟩ := exists_of_bind he
    obtain ⟨rest, hstr⟩ := h.holds x u hx
    have hlt : bs.length < 2 ^ 31 := store_lt he
    obtain ⟨hlen, hreads⟩ := Source.give_reads (h.drop x) hbs
    exact wp_assign h he (h.elsewhere hx) (puts_sdscpylen hstr hlen hlt hreads (Source.give_avoids h hx hbs))
  | sdsclear x =>
    obtain ⟨u, hx, he⟩ := exists_of_bind he
    exact wp_change h hx he (puts_sdsclear (h.holds x u hx))
  | sdstrim x cset =>
    obtain ⟨u, hx, he⟩ := exists_of_bind he
    obtain ⟨cs, hcs, he⟩ := exists_of_bind he
    obtain ⟨htail, he⟩ := Option.ite_none_right_eq_some.mp he
    obtain ⟨rest, hstr⟩ := h.holds x u hx
    have hnul : Terminated s (v x) := by
      refine (terminated_iff hstr.str).mpr ?_
      rw [strBuf_len hstr, strBuf, List.getElem?_append_right (Nat.le_refl _), Nat.sub_self, htail]
      rfl
    exact wp_assign h he (h.elsewhere hx) (puts_sdstrim hstr hnul (Source.str_reads h hcs))
  | sdsrange x i j =>
    obtain ⟨u, hx, he⟩ := exists_of_bind he
    obtain ⟨rest, hstr⟩ := h.holds x u hx
    by_cases hnil : u.chars = []
    · rw [if_pos hnil] at he
      refine wp_assign h he (h.elsewhere hx) ?_
      rw [hnil] at hstr
      refine wp_sdsrange_nil hstr ⟨Update.refl (Multiset.nodup_singleton _), rest, ?_⟩
      rw [hnil]
      exact hstr
    · rw [if_neg hnil] at he
      obtain ⟨hin, he⟩ := Option.ite_none_right_eq_some.mp he
      refine wp_assign h he (h.elsewhere hx) ?_
      exact wp_sdsrange_cons hstr hnil hin fun _ rest hu hstr => ⟨hu, rest, hstr⟩
  | sdstolower x =>
    obtain ⟨u, hx, he⟩ := exists_of_bind he
    obtain ⟨rest, hstr⟩ := h.holds x u hx
    exact wp_change h hx he (wp_sdstolower hstr fun _ hu hstr => ⟨hu, rest, hstr⟩)
  | sdstoupper x =>
    obtain ⟨u, hx, he⟩ := exists_of_bind he
    obtain ⟨rest, hstr⟩ := h.holds x u hx
    exact wp_change h hx he (wp_sdstoupper hstr fun _ hu hstr => ⟨hu, rest, hstr⟩)
  | sdsfree x =>
    obtain ⟨u, hx, he⟩ := exists_of_bind he
    obtain rfl := Option.some.inj he
    obtain ⟨rest, hstr⟩ := h.holds x u hx
    rw [Cmd.exec, wp_bind, sdsfree, if_neg hstr.ne_null]
    refine (wp_zfree hstr.str).mpr (wp_pure.mpr ⟨rfl, ?_⟩)
    have hdrop := h.drop x
    refine ⟨fun y t hy => ?_, hdrop.apart⟩
    obtain ⟨rest', hother⟩ := hdrop.holds y t hy
    obtain ⟨hyx, hy⟩ := Phrases.of_drop hy
    have hne := h.elsewhere hx y hyx (hy ▸ Option.some_ne_none t)
    exact ⟨rest', hother.congr (block_del_ne fun heq => hne (heq ▸ Multiset.mem_singleton_self _))⟩
  | sdslen x =>
    obtain ⟨u, hx, he⟩ := exists_of_bind he
    obtain rfl := Option.some.inj he
    obtain ⟨rest, hstr⟩ := h.holds x u hx
    refine wp_look h (wp.of_eq hstr.sdslen_eq ⟨rfl, ?_⟩)
    have hlt := hstr.len_lt
    rw [BitVec.toInt_eq_toNat_of_lt] <;> rw [BitVec.toNat_ofNat] <;> omega
  | sdscmp x y =>
    obtain ⟨u, hx, he⟩ := exists_of_bind he
    obtain ⟨t, hy, he⟩ := exists_of_bind he
    obtain rfl := Option.some.inj he
    obtain ⟨rest, hu⟩ := h.holds x u hx
    obtain ⟨rest', ht⟩ := h.holds y t hy
    have hlu := hu.len_lt
    have hlt := ht.len_lt
    refine wp_look h ((wp_sdscmp hu.str ht.str hu.wellFormed ht.wellFormed ?_ ?_).mono ?_)
    · rwa [strBuf_len hu]
    · rwa [strBuf_len ht]
    · rintro k s' ⟨rfl, hk⟩
      rw [strBuf_content hu, strBuf_content ht] at hk
      exact ⟨rfl, hk.sign⟩
  | char x i =>
    obtain ⟨u, hx, he⟩ := exists_of_bind he
    obtain ⟨c, hc, he⟩ := exists_of_bind he
    obtain rfl := Option.some.inj he
    obtain ⟨b, rest, hb, hchars⟩ := (h.holds x u hx).buffer
    refine wp_look h (wp.of_eq ((getChar_iff hb).mpr ?_) ⟨rfl, rfl⟩)
    rw [hchars, List.getElem?_append_left (List.getElem?_eq_some_iff.mp hc).1, hc]

end Steps

/-- What a program finds at a string that holds `t`. -/
structure Shown (s : State Globals) (p : Addr) (t : Phrase) : Prop where
  content : HasContent s p t.chars
  buffer : ∀ i c, t.bytes[i]? = some c → getChar p i s = .ok (c, s)
  cstring : cstring (sdsPtr p) s = .ok (t.bytes.takeWhile (· ≠ 0), s)
  terminated : Terminated s p ↔ t.tail = []

theorem PhraseAt.shown (h : PhraseAt s.mem p t) : Shown s p t := by
  obtain ⟨rest, hstr⟩ := h
  have hbytes : (strBuf t.chars (t.tail ++ 0 :: rest)).chars = t.bytes ++ rest := by
    rw [strBuf, Phrase.bytes, List.append_assoc, List.append_assoc, List.singleton_append]
  have hz : 0 ∈ t.bytes := List.mem_append_right _ (List.mem_singleton_self 0)
  refine ⟨hstr.hasContent, fun i c hi => (getChar_iff hstr.str).mpr ?_, wp.eq_ok ?_, ?_⟩
  · rw [hbytes, List.getElem?_append_left (List.getElem?_eq_some_iff.mp hi).1, hi]
  · have hdrop : (strBuf t.chars (t.tail ++ 0 :: rest)).bytes.drop sdshdr.buf = t.bytes ++ rest :=
      Buf.bytes_drop.trans hbytes
    refine (wp_cstring_heap hstr.str (hdrop ▸ List.mem_append_left _ hz)).mpr ⟨?_, rfl⟩
    rw [hdrop]
    exact takeWhile_left hz (by simp)
  · rw [terminated_iff hstr.str, strBuf_len hstr, strBuf, List.getElem?_append_right (Nat.le_refl _), Nat.sub_self]
    constructor
    · intro hnul
      by_contra hne
      obtain ⟨z, zs, htail⟩ := List.exists_cons_of_ne_nil hne
      rw [htail] at hnul
      obtain rfl := Option.some.inj hnul
      exact t.clean (htail ▸ List.mem_cons_self)
    · intro htail
      rw [htail]
      rfl

/-- A program of calls on strings. -/
abbrev Program := Caller Cmd ℤ

/-- A program that has a meaning runs without undefined behaviour under every allocator and every `memcmp`.
Unless it is out of memory, it gets the answers and is left with the strings that its meaning says. -/
theorem string_programs (L : Libc) (K : Memcmp) (f : Program) (n : ℕ) (s₀ : State Globals) (v₀ : Vars)
    (as : List ℤ) (a : Phrases) (h : f.meaning Cmd.means n [] (fun _ => none) = some (as, a)) :
    f.run (Cmd.exec L K) n [] v₀ s₀ = .error .abort ∨
      ∃ v s, f.run (Cmd.exec L K) n [] v₀ s₀ = .ok ((as, v), s) ∧ ∀ x t, a x = some t → Shown s (v x) t := by
  have hstart : Assigned s₀.mem v₀ fun _ => none := ⟨nofun, fun _ _ hx => absurd rfl hx⟩
  have hwp := Caller.run_of_step (E := Safe) (R := fun s v a => Assigned s.mem v a) h hstart
    fun _ _ _ _ _ => cmd_step (L := L) (K := K)
  refine hwp.ends.imp_right ?_
  rintro ⟨⟨bs, v⟩, s, hrun, rfl, hI⟩
  exact ⟨v, s, hrun, fun x t hx => (hI.holds x t hx).shown⟩

/-- A string is compared with its copy in upper case; a part of the one that is greater is appended to the
other. Then what `sdsclear` has left of it is appended too. -/
def shout : Program
  | [] => some (.sdsnew 0 (.bytes [97, 98, 0]))
  | [_] => some (.sdsdup 1 0)
  | [_, _] => some (.sdstoupper 1)
  | [_, _, _] => some (.sdscmp 0 1)
  | [r, _, _, _] => some (if 0 < r then .sdscat 1 (.var 0 1) else .sdscat 0 (.var 1 1))
  | [_, _, _, _, _] => some (.sdsclear 0)
  | [_, _, _, _, _, _] => some (.sdscat 1 (.var 0 0))
  | [_, _, _, _, _, _, _] => some (.sdslen 1)
  | _ => none

/-- What it is left with. -/
def shoutEnd : Phrases := ((shout.meaning Cmd.means 10 [] fun _ => none).map Prod.snd).getD fun _ => none

theorem shout_means : shout.meaning Cmd.means 10 [] (fun _ => none) = some ([5, 0, 0, 0, 1, 0, 0, 0], shoutEnd) := by
  have hanswers : (shout.meaning Cmd.means 10 [] fun _ => none).map Prod.fst = some [5, 0, 0, 0, 1, 0, 0, 0] := by
    decide
  obtain ⟨r, hr, hfst⟩ := Option.map_eq_some_iff.mp hanswers
  have hsnd : shoutEnd = r.2 := by
    rw [shoutEnd, hr]
    rfl
  rw [hr, hsnd, ← hfst]

theorem string_programs_shout : (shoutEnd 1).map Phrase.chars = some [65, 66, 98, 97, 98] ∧
    (shout.run (Cmd.exec (bump 0) signCmp) 10 [] (fun _ => NULL) zinit = .error .abort ∨
      ∃ v s, shout.run (Cmd.exec (bump 0) signCmp) 10 [] (fun _ => NULL) zinit =
        .ok (([5, 0, 0, 0, 1, 0, 0, 0], v), s) ∧ ∀ x t, shoutEnd x = some t → Shown s (v x) t) :=
  ⟨by decide +kernel, string_programs (bump 0) signCmp shout 10 zinit (fun _ => NULL) [5, 0, 0, 0, 1, 0, 0, 0]
    shoutEnd shout_means⟩

end Redis
