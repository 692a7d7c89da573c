import RedisPlayground.Proofs.Growth

/-! What the strings of a program cost: all that is ever asked for is at most four
times the bytes the strings were given, and what is in use at most twice as much. -/

namespace Redis

open CMem

/-- A call with any arguments on a live string, or its end. -/
def gstep (L : Libc) (x : State Globals × Finset Addr) (op : SOp ⊕ Addr) (x' : State Globals × Finset Addr) : Prop :=
  match op with
  | .inl op => tstep L x op x' ∧ op.Cuts x.1
  | .inr p => p ∈ x.2 ∧ sdsfree p x.1 = .ok ((), x'.1) ∧ x'.2 = x.2.erase p

/-- All lengths are in the range of `sdslen`. -/
def AllShort (x : State Globals × Finset Addr) : Prop :=
  ∀ p ∈ x.2, ∃ len, getField (base p) sdshdr.len x.1 = .ok (len, x.1) ∧ len.toNat < 2 ^ 31

/-- The bytes that the calls of a run stored. -/
def copied (tr : List ((State Globals × Finset Addr) × (SOp ⊕ Addr))) : ℕ :=
  (tr.map fun e => e.2.elim (fun op => op.copies e.1.1) fun _ => 0).sum

/-- The size of the block of a string. -/
def blockSize (m : Mem) (p : Addr) : ℕ := ((block m (base p)).getD []).length

variable {L : Libc} {s s' : State Globals} {ls : Finset Addr} {p r : Addr} {b : Buf} {len n : ℕ}

section Books

variable {W : Multiset (Buffer Addr)} {y : Buffer Addr} {m m' : Mem} {S : Multiset Addr} {es es' : List Event}
  {x x' : State Globals × Finset Addr} {given : ℕ}

/-- A string is as the books say. -/
structure Tracked (m : Mem) (es : List Event) (y : Buffer Addr) : Prop where
  ne_null : y.name ≠ NULL
  str : ∃ b, StrAt m y.name b ∧ b.Sized y.len y.cap
  moves : moves es (base y.name - PREFIX_SIZE) = y.moves

/-- The books of a run that began with the events `es`: `given` bytes, and one allocation a call at most. -/
structure Booked (es : List Event) (x : State Globals × Finset Addr) (given steps : ℕ)
    (W : Multiset (Buffer Addr)) : Prop where
  names : x.2.val = W.map Buffer.name
  tracked : ∀ y ∈ W, Tracked x.1.mem es y
  paid : ∃ asked k, Charged W given asked ∧ requested es = asked + 25 * k ∧ k ≤ steps

/-- A call on another string. -/
theorem Tracked.other (h : Tracked m es y) (hu : Updates m m' S {base r}) (hS : base y.name ∉ S)
    (hes : ∀ a, a ≠ base r - PREFIX_SIZE → CMem.moves es' a = CMem.moves es a) :
    Tracked m' es' y ∧ y.name ≠ r := by
  obtain ⟨b, hstr, hb⟩ := h.str
  have hr : base y.name ∉ ({base r} : Multiset Addr) := fun hmem => hstr.live (hu.fresh _ hmem hS)
  have hne : base y.name ≠ base r := fun heq => hr (Multiset.mem_singleton.mpr heq)
  refine ⟨⟨h.ne_null, ⟨b, hstr.congr (hu.frame _ hS hr), hb⟩, ?_⟩, fun heq => hne (congrArg base heq)⟩
  rw [hes _ fun heq => hne (base_inj.mp heq)]
  exact h.moves

theorem short_len (hx : AllShort (s, ls)) (hp : p ∈ ls) (h : StrAt s.mem p b) : b.len.toNat < 2 ^ 31 := by
  obtain ⟨len, hlen, hlt⟩ := hx p hp
  have hget : getField (base p) sdshdr.len s = .ok (b.len, s) := wp.eq_ok ((wp_getLen h).mpr ⟨rfl, rfl⟩)
  obtain rfl := (Prod.mk.inj (Except.ok.inj (hlen.symm.trans hget))).1
  exact hlt

/-- The entry of a live string, and the others. -/
theorem Booked.find (h : Booked es (s, ls) given n W) (hp : p ∈ ls) :
    ∃ y W', W = y ::ₘ W' ∧ y.name = p ∧ (ls.erase p).val = W'.map Buffer.name ∧ ∀ z ∈ W', z.name ≠ p := by
  have hnames : ls.val = W.map Buffer.name := h.names
  obtain ⟨y, hy, rfl⟩ := Multiset.mem_map.mp (hnames ▸ Finset.mem_val.mpr hp)
  obtain ⟨W', rfl⟩ := Multiset.exists_cons_of_mem hy
  rw [Multiset.map_cons] at hnames
  have hnodup : (y.name ::ₘ W'.map Buffer.name).Nodup := hnames ▸ ls.nodup
  refine ⟨y, W', rfl, rfl, ?_, fun z hz heq => ?_⟩
  · rw [Finset.erase_val, hnames, Multiset.erase_cons_head]
  · exact (Multiset.nodup_cons.mp hnodup).1 (heq ▸ Multiset.mem_map_of_mem _ hz)

theorem Booked.begin (h : Booked es (s, ls) given n W) (hb : Begins len s r s') (hshort : AllShort (s', insert r ls)) :
    ∃ e W', s'.trace = e ++ s.trace ∧ Booked (e ++ es) (s', insert r ls) (given + len) (n + 1) W' := by
  obtain ⟨b, hm, hr, hnew⟩ := hb
  obtain ⟨hlen, hsized, w, hw, htrace⟩ := hnew (short_len hshort (Finset.mem_insert_self r ls) hm.str)
  obtain ⟨asked, k, hcharged, hreq, hk⟩ := h.paid
  have hold : ∀ y ∈ W, Tracked s'.mem (.malloc w (base r - PREFIX_SIZE) :: es) y ∧ y.name ≠ r := fun y hy =>
    (h.tracked y hy).other hm.update (Multiset.notMem_zero _) fun a ha => by rw [moves, if_neg ha]
  have hfresh : r ∉ ls := fun hmem => by
    obtain ⟨y, hy, heq⟩ := Multiset.mem_map.mp (h.names ▸ Finset.mem_val.mpr hmem)
    exact (hold y hy).2 heq
  refine ⟨[.malloc w (base r - PREFIX_SIZE)], ⟨r, len, len, 0, len⟩ ::ₘ W, htrace, ?_, ?_, asked + len, k + 1,
    hcharged.make, ?_, by omega⟩
  · rw [Finset.insert_val_of_notMem hfresh, Multiset.map_cons]
    exact congrArg _ h.names
  · refine Charged.forall_cons ⟨hr, ⟨b, hm.str, hsized⟩, ?_⟩ fun y hy => (hold y hy).1
    exact if_pos rfl
  · change w.toNat + requested es = _
    omega

theorem Booked.regrow (h : Booked es (s, ls) given n (y ::ₘ W)) (hrest : (ls.erase y.name).val = W.map Buffer.name)
    (hne : ∀ z ∈ W, z.name ≠ y.name) (hb : Regrows y.name y.len y.cap len s r s')
    (hshort : AllShort (s', insert r (ls.erase y.name))) : ∃ e W', s'.trace = e ++ s.trace ∧
      Booked (e ++ es) (s', insert r (ls.erase y.name)) (given + len) (n + 1) W' := by
  obtain ⟨b, hm, hr, hnew⟩ := hb
  obtain ⟨hlen, cap', hsized, hchange⟩ := hnew (short_len hshort (Finset.mem_insert_self r _) hm.str)
  obtain ⟨asked, k, hcharged, hreq, hk⟩ := h.paid
  have hy := h.tracked y (Multiset.mem_cons_self y W)
  have hold : ∀ es', (∀ a, a ≠ base r - PREFIX_SIZE → moves es' a = moves es a) →
      ∀ z ∈ W, Tracked s'.mem es' z ∧ z.name ≠ r := by
    intro es' hes z hz
    refine (h.tracked z (Multiset.mem_cons_of_mem hz)).other hm.update (fun hmem => ?_) hes
    exact hne z hz (base_sds_inj.mp (Multiset.mem_singleton.mp hmem))
  have hnames : (insert r (ls.erase y.name)).val = r ::ₘ W.map Buffer.name := by
    rw [Finset.insert_val_of_notMem, hrest]
    intro hmem
    obtain ⟨z, hz, heq⟩ := Multiset.mem_map.mp (hrest ▸ Finset.mem_val.mpr hmem)
    exact (hold es (fun _ _ => rfl) z hz).2 heq
  generalize s'.trace = tr' at hchange ⊢
  cases hchange with
  | kept =>
    refine ⟨[], _, rfl, ?_, ?_, asked, k, hcharged.keep hlen, hreq, by omega⟩
    · rw [Multiset.map_cons]
      exact hnames
    · exact Charged.forall_cons ⟨hr, ⟨b, hm.str, hsized⟩, hy.moves⟩ fun z hz => (hold es (fun _ _ => rfl) z hz).1
  | @moved _ w hfull hw =>
    refine ⟨[.realloc (base y.name - PREFIX_SIZE) w (base r - PREFIX_SIZE)],
      ⟨r, b.len.toNat, 2 * b.len.toNat, y.moves + 1, y.given + len⟩ ::ₘ W, rfl, ?_, ?_,
      asked + 2 * b.len.toNat, k + 1, hcharged.move hfull hlen, ?_, by omega⟩
    · rw [Multiset.map_cons]
      exact hnames
    · refine Charged.forall_cons ⟨hr, ⟨b, hm.str, hsized⟩, ?_⟩ fun z hz => (hold _ (fun a ha => ?_) z hz).1
      · exact (if_pos rfl).trans (congrArg (· + 1) hy.moves)
      · exact if_neg ha
    · change w.toNat + requested es = _
      omega

theorem Booked.free (h : Booked es (s, ls) given n (y ::ₘ W)) (hrest : (ls.erase y.name).val = W.map Buffer.name)
    (hne : ∀ z ∈ W, z.name ≠ y.name) (hok : sdsfree y.name s = .ok ((), s')) :
    ∃ e W', s'.trace = e ++ s.trace ∧ Booked (e ++ es) (s', ls.erase y.name) given (n + 1) W' := by
  have hy := h.tracked y (Multiset.mem_cons_self y W)
  obtain ⟨b, hstr, hb⟩ := hy.str
  obtain ⟨asked, k, hcharged, hreq, hk⟩ := h.paid
  have hfree : wp Any (sdsfree y.name) (fun _ s' => s'.mem = del s.mem (base y.name) ∧
      s'.trace = .free (base y.name - PREFIX_SIZE) :: s.trace) s := by
    rw [sdsfree, if_neg hy.ne_null, ← base, wp_zfree hstr]
    exact ⟨rfl, rfl⟩
  obtain ⟨hmem, htrace⟩ := hfree.of_ok hok
  refine ⟨[.free (base y.name - PREFIX_SIZE)], W, htrace, hrest, fun z hz => ?_, asked, k, hcharged.drop, ?_, by omega⟩
  · obtain ⟨hnull, ⟨c, hc, hsized⟩, hmoves⟩ := h.tracked z (Multiset.mem_cons_of_mem hz)
    refine ⟨hnull, ⟨c, ?_, hsized⟩, hmoves⟩
    rw [hmem]
    exact hc.del_ne fun heq => hne z hz (base_sds_inj.mp heq)
  · change 0 + requested es = _
    omega

theorem gstep_booked {op : SOp ⊕ Addr} (h : Booked es x given n W) (hx : AllShort x) (hstep : gstep L x op x')
    (hx' : AllShort x') : ∃ e W', x'.1.trace = e ++ x.1.trace ∧
      Booked (e ++ es) x' (given + op.elim (fun op => op.copies x.1) fun _ => 0) (n + 1) W' := by
  obtain ⟨s, ls⟩ := x
  obtain ⟨s', ls'⟩ := x'
  cases op with
  | inl op =>
    obtain ⟨⟨hdest, r, hok, hls⟩, hcut⟩ := hstep
    obtain rfl : ls' = op.live ls r := hls
    rw [SOp.live] at hx' ⊢
    cases hop : op.dest with
    | none =>
      rw [hop] at hx'
      exact h.begin ((sop_begins hop).of_ok hok) hx'
    | some p =>
      rw [hop] at hx'
      obtain ⟨y, W', rfl, rfl, hrest, hne⟩ := h.find (hdest p hop)
      have hy := h.tracked y (Multiset.mem_cons_self y W')
      obtain ⟨b, hstr, hb⟩ := hy.str
      have hlen : y.len < 2 ^ 31 := hb.len ▸ short_len hx (hdest _ hop) hstr
      exact h.regrow hrest hne ((sop_regrows hstr hy.ne_null hb hlen hop hcut).of_ok hok) hx'
  | inr p =>
    obtain ⟨hp, hok, hls⟩ := hstep
    obtain rfl : ls' = ls.erase p := hls
    obtain ⟨y, W', rfl, rfl, hrest, hne⟩ := h.find hp
    exact h.free hrest hne hok

theorem Tracked.blockSize_eq (h : Tracked m es y) : blockSize m y.name = y.cap + 25 := by
  obtain ⟨b, hstr, hb⟩ := h.str
  rw [blockSize, hstr.block, Option.getD_some, List.length_append, wordBytes_length, Buf.bytes_length, hb.chars]
  omega

theorem Booked.blocks (h : Booked es (s, ls) given n W) :
    ∑ p ∈ ls, blockSize s.mem p = (W.map Buffer.cap).sum + 25 * ls.card := by
  have hnames : ls.val = W.map Buffer.name := h.names
  have hcard : ls.card = W.card := by rw [Finset.card_def, hnames, Multiset.card_map]
  have hsizes : W.map (blockSize s.mem ∘ Buffer.name) = W.map fun y => y.cap + 25 :=
    Multiset.map_congr rfl fun y hy => (h.tracked y hy).blockSize_eq
  calc ∑ p ∈ ls, blockSize s.mem p = ((W.map Buffer.name).map (blockSize s.mem)).sum := by rw [← hnames]; rfl
    _ = (W.map fun y => y.cap + 25).sum := by rw [Multiset.map_map, hsizes]
    _ = (W.map Buffer.cap).sum + 25 * ls.card := by
      rw [Multiset.sum_map_add, Multiset.map_const', Multiset.sum_replicate, hcard, smul_eq_mul, mul_comm]

/-- The books of a whole run. -/
theorem gstep_books {s₀ : State Globals} {tr : List ((State Globals × Finset Addr) × (SOp ⊕ Addr))}
    (hrun : Run (gstep L) (s₀, ∅) tr (s, ls)) (hshort : Always AllShort tr (s, ls)) :
    ∃ es W, s.trace = es ++ s₀.trace ∧ Booked es (s, ls) (copied tr) tr.length W := by
  revert hshort
  refine hrun.invariant (P := fun tr x => Always AllShort tr x → ∃ es W, x.1.trace = es ++ s₀.trace ∧
    Booked es x (copied tr) tr.length W) (fun _ => ?_) ?_
  · exact ⟨[], 0, rfl, rfl, by simp, 0, 0, Charged.nil, rfl, le_rfl⟩
  · intro tr x op x' ih hstep hall
    obtain ⟨hall, hx'⟩ := always_snoc.mp hall
    obtain ⟨es, W, htrace, hbook⟩ := ih hall
    obtain ⟨e, W', htrace', hbook'⟩ := gstep_booked hbook hall.last hstep hx'
    refine ⟨e ++ es, W', by rw [htrace', htrace, List.append_assoc], ?_⟩
    rw [copied, List.map_append, List.sum_append, List.length_append]
    simpa [copied] using hbook'

/-- All that the calls of a run ask the allocator for is at most four times what they store, and 25 bytes
for each call; the blocks of the strings are at most twice as large as that, and each string has moved
only as often as the size of its block has doubled. -/
theorem growth_is_amortized (L : Libc) (s₀ s : State Globals) (ls : Finset Addr)
    (tr : List ((State Globals × Finset Addr) × (SOp ⊕ Addr))) (hrun : Run (gstep L) (s₀, ∅) tr (s, ls))
    (hshort : Always AllShort tr (s, ls)) : ∃ es, s.trace = es ++ s₀.trace ∧
      requested es ≤ 4 * copied tr + 25 * tr.length ∧
      ∑ p ∈ ls, blockSize s.mem p ≤ 2 * copied tr + 25 * ls.card ∧
      ∀ p ∈ ls, 2 ^ (moves es (base p - PREFIX_SIZE) + 1) + 23 ≤ blockSize s.mem p := by
  obtain ⟨es, W, htrace, hbook⟩ := gstep_books hrun hshort
  obtain ⟨asked, k, hcharged, hreq, hk⟩ := hbook.paid
  refine ⟨es, htrace, ?_, ?_, fun p hp => ?_⟩
  · have hcost := hcharged.asked_le
    omega
  · have hroom := hcharged.cap_le
    rw [hbook.blocks]
    omega
  · obtain ⟨y, W', rfl, rfl, -, -⟩ := hbook.find hp
    have hy := hbook.tracked y (Multiset.mem_cons_self y W')
    have hdoubled := (hcharged.sound y (Multiset.mem_cons_self y W')).moves
    rw [hy.moves, hy.blockSize_eq]
    omega

/-- A string gets a second character, moves, and is cut to the first one. -/
def grow₁ : State Globals := after (sdsnew (bump 0) (.ext [97, 0])) zinit
def grow₂ : State Globals := after (sdscat (bump 0) 0x1018 (.ext [98, 0])) grow₁
def grow₃ : State Globals := after (sdsrange 0x2018 0 0) grow₂

def growRun : List ((State Globals × Finset Addr) × (SOp ⊕ Addr)) :=
  [((zinit, ∅), .inl (.sdsnew (.ext [97, 0]))), ((grow₁, {0x1018}), .inl (.sdscat 0x1018 (.ext [98, 0]))),
    ((grow₂, {0x2018}), .inl (.sdsrange 0x2018 0 0))]

theorem run_grow : Run (gstep (bump 0)) (zinit, ∅) growRun (grow₃, {0x2018}) := by
  have hok₁ : result (SOp.exec (bump 0) (.sdsnew (.ext [97, 0]))) zinit = some 0x1018 := by decide +kernel
  have hok₂ : result (SOp.exec (bump 0) (.sdscat 0x1018 (.ext [98, 0]))) grow₁ = some 0x2018 := by decide +kernel
  have hok₃ : result (SOp.exec (bump 0) (.sdsrange 0x2018 0 0)) grow₂ = some 0x2018 := by decide +kernel
  have hlen : result (sdslenSize 0x2018) grow₂ = some 2 := by decide +kernel
  have h₁ : gstep (bump 0) (zinit, ∅) (.inl (.sdsnew (.ext [97, 0]))) (grow₁, {0x1018}) :=
    ⟨tstep_ok (fun p hp => absurd hp (Option.some_ne_none p).symm) (ok_after hok₁) rfl, trivial⟩
  have h₂ : gstep (bump 0) (grow₁, {0x1018}) (.inl (.sdscat 0x1018 (.ext [98, 0]))) (grow₂, {0x2018}) :=
    ⟨tstep_ok (fun p hp => Finset.mem_singleton.mpr (Option.some.inj hp).symm) (ok_after hok₂) (by decide), trivial⟩
  have h₃ : gstep (bump 0) (grow₂, {0x2018}) (.inl (.sdsrange 0x2018 0 0)) (grow₃, {0x2018}) := by
    refine ⟨tstep_ok (fun p hp => Finset.mem_singleton.mpr (Option.some.inj hp).symm) (ok_after hok₃) (by decide), ?_⟩
    intro len hsize _
    rw [result_of_ok hsize] at hlen
    obtain rfl := Option.some.inj hlen
    decide
  exact ((Run.nil.snoc h₁).snoc h₂).snoc h₃

theorem short_grow : Always AllShort growRun (grow₃, {0x2018}) := by
  have hshort : ∀ s q (len : Word), result (getField (base q) sdshdr.len) s = some len → len.toNat < 2 ^ 31 →
      AllShort (s, {q}) := by
    intro s q len hlen hlt p hp
    obtain rfl := Finset.mem_singleton.mp hp
    exact ⟨len, readOnly_getField.ok_of_result hlen, hlt⟩
  refine ⟨fun x hx => ?_, hshort grow₃ 0x2018 1 (by decide +kernel) (by decide)⟩
  rcases List.mem_cons.mp hx with rfl | hx
  · exact fun p hp => absurd hp (Finset.notMem_empty p)
  rcases List.mem_cons.mp hx with rfl | hx
  · exact hshort grow₁ 0x1018 1 (by decide +kernel) (by decide)
  · obtain rfl := List.mem_singleton.mp hx
    exact hshort grow₂ 0x2018 2 (by decide +kernel) (by decide)

theorem growth_is_amortized_moved : ∃ es, grow₃.trace = es ++ zinit.trace ∧
    requested es ≤ 4 * copied growRun + 25 * growRun.length ∧
    ∑ p ∈ {0x2018}, blockSize grow₃.mem p ≤ 2 * copied growRun + 25 * ({0x2018} : Finset Addr).card ∧
    ∀ p ∈ ({0x2018} : Finset Addr), 2 ^ (moves es (base p - PREFIX_SIZE) + 1) + 23 ≤ blockSize grow₃.mem p :=
  growth_is_amortized (bump 0) zinit grow₃ {0x2018} growRun run_grow short_grow

end Books

end Redis
