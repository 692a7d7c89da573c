import RedisPlayground.Memory.Runs
import RedisPlayground.Proofs.Accounting

/-! Runs of the allocator. A client allocates, moves, frees and writes into its
blocks; next to the heap stands the history of sizes it asked for, by which the
counter and the size headers are judged. -/

namespace Redis

open CMem

variable {L : Libc} {s s' : State Globals} {p r : Addr} {size : Word} {bs : List Byte}

/-- The size last requested for every block not yet freed or moved. -/
abbrev Requests := Finmap (fun _ : Addr => Word)

/-- What a client does: the calls, and a store into a block it was given. -/
inductive ZOp where
  | zmalloc (size : Word)
  | zremalloc (ptr : Addr) (size : Word)
  | zfree (ptr : Addr)
  | safe_zfree (ptr : Addr)
  | store (ptr : Addr) (off : ℕ) (bytes : List Byte)

/-- The call, and the pointer it leaves with the client. -/
def ZOp.exec (L : Libc) : ZOp → M Addr
  | .zmalloc size => Redis.zmalloc L size
  | .zremalloc ptr size => Redis.zremalloc L ptr size
  | .zfree ptr => do
    Redis.zfree ptr
    return ptr
  | .safe_zfree ptr => Redis.safe_zfree ptr
  | .store ptr off bytes => do
    setBytes ptr off bytes
    return ptr

def ZOp.Legal (R : Requests) : ZOp → Prop
  | .zmalloc _ => True
  | .zremalloc ptr _ | .zfree ptr | .safe_zfree ptr => ptr = NULL ∨ ptr ∈ R
  | .store ptr off bytes => ∃ size, R.lookup ptr = some size ∧ off + bytes.length ≤ size.toNat

/-- The history after an operation that left `r` with the client. -/
def ZOp.request (R : Requests) (r : Addr) : ZOp → Requests
  | .zmalloc size => R.insert r size
  | .zremalloc ptr size => (R.erase ptr).insert r size
  | .zfree ptr | .safe_zfree ptr => R.erase ptr
  | .store _ _ _ => R

/-- The request does not wrap around when the prefix is added. -/
def ZOp.Fits : ZOp → Prop
  | .zmalloc size | .zremalloc _ size => size.toNat + 8 < 2 ^ 64
  | _ => True

/-- libc answers the request that reaches it with NULL. -/
def ZOp.Refused (L : Libc) (s : State Globals) : ZOp → Prop
  | .zmalloc size => L.malloc s.trace s.mem (size + PREFIX_SIZE) = none
  | .zremalloc ptr size =>
    if ptr = NULL then L.malloc s.trace s.mem (size + PREFIX_SIZE) = none
    else L.realloc s.trace s.mem (ptr - PREFIX_SIZE) (size + PREFIX_SIZE) = none
  | _ => False

def zstep (L : Libc) (x : State Globals × Requests) (op : ZOp) (x' : State Globals × Requests) : Prop :=
  op.Legal x.2 ∧ ∃ r, op.exec L x.1 = .ok (r, x'.1) ∧ x'.2 = op.request x.2 r

/-- All blocks but those behind the listed pointers are the same. -/
def Untouched (ps : List Addr) (m m' : Mem) : Prop := ∀ q, q ∉ ps → block m' q = block m q

def Allocates (s : State Globals) (size : Word) (r : Addr) (s' : State Globals) : Prop :=
  Fresh s.mem r ∧ (∃ bs, Holds s'.mem r bs ∧ bs.length = size.toNat) ∧ Untouched [r] s.mem s'.mem ∧
    s'.glob.used_memory = s.glob.used_memory + (size + PREFIX_SIZE)

/-- One block moves or stays, with its first bytes, and its prefix is not counted again. -/
def Moves (s : State Globals) (p : Addr) (size : Word) (r : Addr) (s' : State Globals) : Prop :=
  ∃ bs cs, Holds s.mem p bs ∧ Holds s'.mem r cs ∧ cs.length = size.toNat ∧
    cs.take (min bs.length size.toNat) = bs.take (min bs.length size.toNat) ∧
    (r = p ∨ block s.mem r = none ∧ block s'.mem p = none) ∧ Untouched [p, r] s.mem s'.mem ∧
    s'.glob.used_memory = s.glob.used_memory - BitVec.ofNat 64 bs.length + size

def Frees (s : State Globals) (p : Addr) (s' : State Globals) : Prop :=
  (p = NULL → s' = s) ∧ (p ≠ NULL → block s'.mem p = none ∧ Untouched [p] s.mem s'.mem)

/-- What the operation does to the heap. -/
def ZOp.Effect (s : State Globals) : ZOp → Addr → State Globals → Prop
  | .zmalloc size, r, s' => Allocates s size r s'
  | .zremalloc p size, r, s' =>
    (p = NULL → Allocates s size r s') ∧ (p ≠ NULL → Moves s p size r s')
  | .zfree p, _, s' => Frees s p s'
  | .safe_zfree p, r, s' => Frees s p s' ∧ r = NULL ∧ Redis.safe_zfree r s' = .ok (NULL, s')
  | .store p off xs, _, s' => ∃ bs, Holds s.mem p bs ∧ off + xs.length ≤ bs.length ∧
    Holds s'.mem p (splice bs off xs) ∧ Untouched [p] s.mem s'.mem

def ZOp.Good (L : Libc) (s : State Globals) (op : ZOp) : Prop := wp Safe (op.exec L) (op.Effect s) s

/-- The counter and the size headers are exact. -/
structure Accounted (s : State Globals) (R : Requests) : Prop where
  zsizeof : ∀ p n, R.lookup p = some n → Redis.zsizeof p s = .ok (n, s)
  used : s.glob.used_memory = ∑ p ∈ R.keys, ((R.lookup p).getD 0 + PREFIX_SIZE)
  all_freed : R = ∅ → s.glob.used_memory = 0

/-- The history lists the blocks of the heap. -/
structure Listed (m : Mem) (R : Requests) : Prop where
  keys : ∀ p, p ∈ R ↔ ∃ bs, block m p = some bs
  holds : ∀ p n, R.lookup p = some n → ∃ bs, Holds m p bs ∧ bs.length = n.toNat

/-- The invariant behind `Accounted`. -/
def Books (x : State Globals × Requests) : Prop := Listed x.1.mem x.2 ∧ debt x.1 = 0

theorem Listed.holds_of_mem {m : Mem} {R : Requests} (h : Listed m R) (hp : p ∈ R) :
    ∃ n bs, R.lookup p = some n ∧ Holds m p bs ∧ bs.length = n.toNat := by
  obtain ⟨n, hn⟩ := Finmap.mem_iff.mp hp
  obtain ⟨bs, hbs, hlen⟩ := h.holds p n hn
  exact ⟨n, bs, hn, hbs, hlen⟩

theorem Listed.null_notMem {m : Mem} {R : Requests} (h : Listed m R) : NULL ∉ R := by
  intro hmem
  obtain ⟨-, bs, -, hbs, -⟩ := h.holds_of_mem hmem
  exact hbs.ne_null rfl

/-- A block that came into being at `r`, and the history with its size. -/
theorem Listed.insert {m m' : Mem} {R : Requests} (h : Listed m R)
    (hr : ∃ bs, Holds m' r bs ∧ bs.length = size.toNat) (hun : Untouched [r] m m') :
    Listed m' (R.insert r size) where
  keys p := by
    by_cases hp : p = r
    · obtain ⟨bs, hbs, -⟩ := hr
      subst hp
      exact iff_of_true (Finmap.mem_insert.mpr (Or.inl rfl)) ⟨_, hbs.block⟩
    · rw [Finmap.mem_insert, or_iff_right hp, hun p (by simpa using hp)]
      exact h.keys p
  holds p n hn := by
    by_cases hp : p = r
    · subst hp
      rw [Finmap.lookup_insert, Option.some.injEq] at hn
      exact hn ▸ hr
    · rw [Finmap.lookup_insert_of_ne _ hp] at hn
      obtain ⟨bs, hbs, hlen⟩ := h.holds p n hn
      exact ⟨bs, hbs.congr (hun p (by simpa using hp)), hlen⟩

theorem Listed.erase {m m' : Mem} {R : Requests} (h : Listed m R) (hp : block m' p = none)
    (hun : Untouched [p] m m') : Listed m' (R.erase p) where
  keys q := by
    by_cases hq : q = p
    · subst hq
      exact iff_of_false (fun h => (Finmap.mem_erase.mp h).1 rfl) (by simp [hp])
    · rw [Finmap.mem_erase, and_iff_right hq, hun q (by simpa using hq)]
      exact h.keys q
  holds q n hn := by
    by_cases hq : q = p
    · subst hq
      simp at hn
    · rw [Finmap.lookup_erase_ne hq] at hn
      obtain ⟨bs, hbs, hlen⟩ := h.holds q n hn
      exact ⟨bs, hbs.congr (hun q (by simpa using hq)), hlen⟩

theorem books_init : Books (zinit, ∅) :=
  ⟨⟨fun p => by simp [block, zinit, Finmap.notMem_empty], fun p n hp => by simp at hp⟩,
    by simp [debt, total, zinit]⟩

theorem untouched_put : Untouched [p] s.mem (put s.mem p bs) :=
  fun _ hq => block_put_ne (by simpa using hq)

theorem untouched_del : Untouched [p] s.mem (del s.mem p) :=
  fun _ hq => block_del_ne (by simpa using hq)

theorem allocates_of_fits (hfits : size.toNat + 8 < 2 ^ 64) :
    wp Safe (zmalloc L size) (Allocates s size) s := by
  refine wp_zmalloc rfl hfits fun p raw _ hlen hfresh => ?_
  have hlen' : (raw.drop 8).length = size.toNat := by
    rw [List.length_drop, hlen, Nat.add_sub_cancel_left]
  exact ⟨hfresh, ⟨_, hfresh.put (by omega), hlen'⟩, untouched_put, rfl⟩

theorem moves_of_fits (h : Holds s.mem p bs) (hfits : size.toNat + 8 < 2 ^ 64) :
    wp Safe (zremalloc L p size) (Moves s p size) s := by
  refine wp_zremalloc (fun _ => rfl) h hfits fun r cs hlen htake _ hfresh => ?_
  have hr : Holds (put (del s.mem p) r cs) r cs := hfresh.put (by omega)
  refine ⟨bs, cs, h, hr, hlen, ?_, ?_, ?_, rfl⟩
  · have htake' := congrArg (List.take (min bs.length size.toNat)) htake
    rwa [List.take_take, List.take_take, Nat.min_eq_left (Nat.min_le_left _ _),
      Nat.min_eq_left (Nat.min_le_right _ _)] at htake'
  · by_cases hrp : r = p
    · exact Or.inl hrp
    · refine Or.inr ⟨?_, ?_⟩
      · rw [← block_del_ne hrp]
        exact hfresh.block
      · rw [block_put_ne (Ne.symm hrp), block_del_self]
  · intro q hq
    obtain ⟨hqp, hqr⟩ : q ≠ p ∧ q ≠ r := by simpa using hq
    rw [block_put_ne hqr, block_del_ne hqp]

theorem frees_of_live (h : p ≠ NULL → ∃ bs, Holds s.mem p bs) {E : Stop → Prop} :
    wp E (zfree p) (fun _ s' => Frees s p s') s := by
  by_cases hp : p = NULL
  · subst hp
    exact wp_zfree_null.mpr ⟨fun _ => rfl, fun h => absurd rfl h⟩
  · obtain ⟨bs, hbs⟩ := h hp
    exact (wp_zfree hbs).mpr ⟨fun h => absurd h hp, fun _ => ⟨block_del_self, untouched_del⟩⟩

theorem safe_zfree_null : safe_zfree NULL s = .ok (NULL, s) := by
  refine wp.eq_ok ?_
  rw [safe_zfree, wp_bind, wp_zfree_null, wp_pure]
  exact ⟨rfl, rfl⟩

/-- Every legal operation that fits does what it should. -/
theorem good_of_fits {R : Requests} {op : ZOp} (hI : Books (s, R)) (hlegal : op.Legal R)
    (hfits : op.Fits) : op.Good L s := by
  have hlive : ∀ q, q = NULL ∨ q ∈ R → q ≠ NULL → ∃ bs, Holds s.mem q bs := by
    rintro q (hq | hq) hnull
    · exact absurd hq hnull
    · obtain ⟨n, bs, -, hbs, -⟩ := hI.1.holds_of_mem hq
      exact ⟨bs, hbs⟩
  cases op with
  | zmalloc size => exact allocates_of_fits hfits
  | zremalloc p size =>
    by_cases hp : p = NULL
    · rw [ZOp.Good, ZOp.exec, zremalloc, if_pos hp]
      exact (allocates_of_fits hfits).mono fun r s' h => ⟨fun _ => h, fun h' => absurd hp h'⟩
    · obtain ⟨bs, hbs⟩ := hlive p hlegal hp
      exact (moves_of_fits hbs hfits).mono fun r s' h => ⟨fun h' => absurd h' hp, fun _ => h⟩
  | zfree p =>
    rw [ZOp.Good, ZOp.exec, wp_bind]
    exact (frees_of_live (hlive p hlegal)).mono fun _ s' h => wp_pure.mpr h
  | safe_zfree p =>
    rw [ZOp.Good, ZOp.exec, safe_zfree, wp_bind]
    exact (frees_of_live (hlive p hlegal)).mono fun _ s' h => wp_pure.mpr ⟨h, rfl, safe_zfree_null⟩
  | store p off xs =>
    obtain ⟨n, hn, hle⟩ := hlegal
    obtain ⟨bs, hbs, hlen⟩ := hI.1.holds p n hn
    have hfit : off + xs.length ≤ bs.length := by omega
    rw [ZOp.Good, ZOp.exec, wp_bind, wp_setBytes hbs hfit, wp_pure]
    exact ⟨bs, hbs, hfit, hbs.put (splice_length hfit), untouched_put⟩

/-- Whatever is asked of a request that wraps around, the program does it only
by ending, when libc refuses. -/
theorem wraps_iff {R : Requests} {op : ZOp} (hI : Books (s, R)) (hlegal : op.Legal R)
    (hwrap : ¬ op.Fits) {Q : Addr → State Globals → Prop} :
    wp Safe (op.exec L) Q s ↔ op.Refused L s := by
  cases op with
  | zmalloc size => exact zmalloc_wraps hwrap
  | zremalloc p size =>
    by_cases hp : p = NULL
    · rw [ZOp.exec, zremalloc, if_pos hp, ZOp.Refused, if_pos hp]
      exact zmalloc_wraps hwrap
    · obtain ⟨n, bs, -, hbs, -⟩ := hI.1.holds_of_mem (hlegal.resolve_left hp)
      rw [ZOp.exec, ZOp.Refused, if_neg hp]
      exact zremalloc_wraps hbs hwrap
  | zfree | safe_zfree | store => exact absurd trivial hwrap

/-- A legal operation does what it should exactly when its request does not wrap
around, or libc refuses it. -/
theorem good_iff {R : Requests} {op : ZOp} (hI : Books (s, R)) (hlegal : op.Legal R) :
    op.Good L s ↔ op.Fits ∨ op.Refused L s := by
  by_cases hfits : op.Fits
  · exact ⟨fun _ => Or.inl hfits, fun _ => good_of_fits hI hlegal hfits⟩
  · rw [or_iff_right hfits]
    exact wraps_iff hI hlegal hfits

theorem fits_of_ok {R : Requests} {op : ZOp} (hI : Books (s, R)) (hlegal : op.Legal R)
    (hok : op.exec L s = .ok (r, s')) : op.Fits := by
  by_contra hwrap
  have hrefused : op.Refused L s := by
    rw [← wraps_iff hI hlegal hwrap (L := L) (Q := fun _ _ => True), wp, hok]
    trivial
  have hend : wp Safe (op.exec L) (fun _ _ => False) s := (wraps_iff hI hlegal hwrap).mpr hrefused
  exact hend.of_ok hok

theorem keeps_exec (op : ZOp) : Keeps (op.exec L) := by
  cases op with
  | zmalloc size => exact keeps_zmalloc L size
  | zremalloc p size => exact keeps_zremalloc L p size
  | zfree p => exact (keeps_zfree p).bind fun _ => keeps_pure _
  | safe_zfree p => exact (keeps_zfree p).bind fun _ => keeps_pure _
  | store p off xs => exact (keeps_setBytes p off xs).bind fun _ => keeps_pure _

theorem Listed.frees {R : Requests} (h : Listed s.mem R) (hf : Frees s p s') :
    Listed s'.mem (R.erase p) := by
  by_cases hp : p = NULL
  · have hnone : block s.mem p = none := by
      by_contra hne
      exact h.null_notMem (hp ▸ (h.keys p).mpr (Option.ne_none_iff_exists'.mp hne))
    rw [hf.1 hp]
    exact h.erase hnone fun _ _ => rfl
  · exact h.erase (hf.2 hp).1 (hf.2 hp).2

theorem Listed.moves {R : Requests} (h : Listed s.mem R) (hm : Moves s p size r s') :
    Listed s'.mem ((R.erase p).insert r size) := by
  obtain ⟨bs, cs, -, hcs, hlen, -, hpr, hun, -⟩ := hm
  have hdel : Listed (del s.mem p) (R.erase p) := h.erase block_del_self untouched_del
  refine hdel.insert ⟨cs, hcs, hlen⟩ fun q hq => ?_
  have hqr : q ≠ r := by simpa using hq
  by_cases hqp : q = p
  · subst hqp
    rw [block_del_self]
    exact (hpr.resolve_left (Ne.symm hqr)).2
  · rw [block_del_ne hqp]
    exact hun q (by simp [hqp, hqr])

theorem books_step {x x' : State Globals × Requests} {op : ZOp} (hI : Books x)
    (hstep : zstep L x op x') : Books x' := by
  obtain ⟨hlegal, r, hok, hR⟩ := hstep
  have heff : op.Effect x.1 r x'.1 :=
    (good_of_fits hI hlegal (fits_of_ok hI hlegal hok)).of_ok hok
  refine ⟨?_, ((keeps_exec op).of_ok hok).debt.trans hI.2⟩
  rw [hR]
  cases op with
  | zmalloc size =>
    obtain ⟨-, hr, hun, -⟩ := heff
    exact hI.1.insert hr hun
  | zremalloc p size =>
    by_cases hp : p = NULL
    · obtain ⟨-, hr, hun, -⟩ := heff.1 hp
      have herase : x.2.erase p = x.2 := by
        refine Finmap.ext_lookup fun q => ?_
        by_cases hq : q = p
        · rw [hq, Finmap.lookup_erase, hp]
          exact (Finmap.lookup_eq_none.mpr hI.1.null_notMem).symm
        · exact Finmap.lookup_erase_ne hq
      rw [ZOp.request, herase]
      exact hI.1.insert hr hun
    · exact hI.1.moves (heff.2 hp)
  | zfree p => exact hI.1.frees heff
  | safe_zfree p => exact hI.1.frees heff.1
  | store p off xs =>
    obtain ⟨bs, hbs, hfit, hbs', hun⟩ := heff
    obtain ⟨n, hn, -⟩ := hlegal
    obtain ⟨cs, hcs, hlen⟩ := hI.1.holds p n hn
    have hsame : x.2.insert p n = x.2 := by
      refine Finmap.ext_lookup fun q => ?_
      by_cases hq : q = p
      · rw [hq, Finmap.lookup_insert, hn]
      · exact Finmap.lookup_insert_of_ne _ hq
    rw [ZOp.request, ← hsame]
    refine hI.1.insert ⟨_, hbs', ?_⟩ hun
    rw [splice_length hfit, hbs.unique hcs, hlen]

/-- What the headers of the live blocks add up to is what was asked for. -/
theorem Listed.total_eq {m : Mem} {R : Requests} (h : Listed m R) :
    total m = ∑ p ∈ R.keys, ((R.lookup p).getD 0 + PREFIX_SIZE) := by
  have hkeys : m.keys = R.keys.image fun p => p - PREFIX_SIZE := by
    ext b
    have hb : b + PREFIX_SIZE ∈ R ↔ b ∈ m := by
      rw [h.keys, block, add_sub_cancel_right]
      exact (@Finmap.mem_iff _ _ _ b m).symm
    simp only [Finmap.mem_keys, Finset.mem_image, ← hb]
    constructor
    · exact fun hmem => ⟨_, hmem, add_sub_cancel_right _ _⟩
    · rintro ⟨p, hp, rfl⟩
      rwa [sub_add_cancel]
  rw [total, hkeys, Finset.sum_image fun p _ q _ heq => base_inj.mp heq]
  refine Finset.sum_congr rfl fun p hp => ?_
  obtain ⟨n, bs, hn, hbs, hlen⟩ := h.holds_of_mem (Finmap.mem_keys.mp hp)
  rw [header_of_lookup hbs.block, List.take_left' (by simp), bytesWord_wordBytes, hn, Option.getD_some,
    hlen, BitVec.ofNat_toNat, BitVec.setWidth_eq]

theorem Books.accounted {R : Requests} (h : Books (s, R)) : Accounted s R := by
  have hused : s.glob.used_memory = ∑ p ∈ R.keys, ((R.lookup p).getD 0 + PREFIX_SIZE) := by
    rw [← h.1.total_eq]
    exact sub_eq_zero.mp h.2
  refine ⟨fun p n hn => ?_, hused, fun hR => by rw [hused, hR]; simp⟩
  obtain ⟨bs, hbs, hlen⟩ := h.1.holds p n hn
  refine wp.eq_ok ((wp_zsizeof hbs).mpr ⟨?_, rfl⟩)
  rw [hlen, BitVec.ofNat_toNat, BitVec.setWidth_eq]

/-- In every reachable state the counter and the size headers are exact, and a
legal operation does what it should exactly when its request does not wrap
around `size_t`, or libc refuses it. -/
theorem zmalloc_accounts (L : Libc) (tr : List ((State Globals × Requests) × ZOp)) (s : State Globals)
    (R : Requests) (h : Run (zstep L) (zinit, ∅) tr (s, R)) :
    Accounted s R ∧ ∀ op : ZOp, op.Legal R → (op.Good L s ↔ op.Fits ∨ op.Refused L s) := by
  have hI : Books (s, R) := h.invariant (P := fun _ x => Books x) books_init
    fun _ _ _ _ hx hs => books_step hx hs
  exact ⟨hI.accounted, fun op hlegal => good_iff hI hlegal⟩

set_option maxRecDepth 4000

/-- A block of four bytes, as `zmalloc` leaves it. -/
def four : State Globals :=
  { mem := put ∅ 0x1008 (List.replicate 4 0), glob := { used_memory := 12 },
    trace := [.malloc 12 0x1000] }

def fourRequests : Requests := Finmap.insert (0x1008 : Addr) 4 ∅

theorem run_four : Run (zstep (bump 0)) (zinit, ∅) [((zinit, ∅), .zmalloc 4)] (four, fourRequests) :=
  (Run.nil : Run _ _ [] _).snoc ⟨trivial, 0x1008, rfl, rfl⟩

/-- The block grows to ten bytes, as in the test of `zremalloc`. -/
def ten : State Globals := after (zremalloc (bump 0) 0x1008 10) four

def tenRequests : Requests := Finmap.insert (0x2008 : Addr) 10 (fourRequests.erase 0x1008)

def tenRun : List ((State Globals × Requests) × ZOp) :=
  [((zinit, ∅), .zmalloc 4), ((four, fourRequests), .zremalloc 0x1008 10)]

theorem run_ten : Run (zstep (bump 0)) (zinit, ∅) tenRun (ten, tenRequests) := by
  have hgrown : result (zremalloc (bump 0) 0x1008 10) four = some 0x2008 := by decide +kernel
  exact run_four.snoc ⟨Or.inr (Finmap.mem_insert.mpr (Or.inl rfl)), 0x2008, ok_after hgrown, rfl⟩

theorem zmalloc_accounts_realloc : Accounted ten tenRequests ∧
    ∀ op : ZOp, op.Legal tenRequests → (op.Good (bump 0) ten ↔ op.Fits ∨ op.Refused (bump 0) ten) :=
  zmalloc_accounts (bump 0) tenRun ten tenRequests run_ten

/-- A block of four bytes asked to grow to `2 ^ 64 - 4`: libc is asked for four
bytes, and the size header alone takes eight. -/
theorem zremalloc_overflows : ¬ ∀ (L : Libc) (tr : List ((State Globals × Requests) × ZOp))
    (s : State Globals) (R : Requests), Run (zstep L) (zinit, ∅) tr (s, R) →
      Accounted s R ∧ ∀ op : ZOp, op.Legal R → op.Good L s := by
  intro h
  have hlegal : (ZOp.zremalloc 0x1008 (-4)).Legal fourRequests :=
    Or.inr (Finmap.mem_insert.mpr (Or.inl rfl))
  have hgood := (h _ _ _ _ run_four).2 _ hlegal
  have hub : (ZOp.zremalloc 0x1008 (-4)).exec (bump 0) four = .error .ub := rfl
  rw [ZOp.Good, wp, hub] at hgood
  exact absurd hgood (by decide)

end Redis
