import RedisPlayground.Proofs.DictLookups

/-! The second table of a dict along a run. `dictExpand` installs it as the
allocator left it, and neither it nor `dictAdd` ever writes to one of its slots. -/

namespace Redis

open CMem

/-- The second table, with the words `ws` of its block. -/
structure Second (m : Mem) (x : DDict) (ws : List Word) : Prop where
  used : x.ht1.used = 0
  table : (x.ht1.table = NULL ∧ x.ht1.size = 0 ∧ ws = []) ∨
    (Holds m x.ht1.table (words ws) ∧ x.ht1.table ∉ x.foot ∧ x.ht1.sizemask = x.ht1.size - 1 ∧
      x.ht1.size ≠ 0)

/-- The invariant of a run with both tables. -/
structure Kept (hash : Addr → Word) (x : DDict) (ws : List Word) (y : State Globals × History) : Prop where
  tabled : Tabled hash x y
  second : Second y.1.mem x ws

/-- The hash function of a type that has one. -/
def hashOf (T : Addr → Option dictType) (type : Addr) : Addr → Word :=
  match T type with
  | some ⟨some hash⟩ => hash
  | _ => fun _ => 0

/-- Each slot of the second table is a word of its block that satisfies `good`. -/
def Filled (x : DDict) (ws : List Word) (good : Addr → Prop) : Prop :=
  ∀ i < x.ht1.size.toNat, ∃ w, ws[i]? = some w ∧ good w

/-- If `dictExpand` installs a table, then the block for it has all the slots, and
as the allocator left them they satisfy `good`. -/
def ExpandsTo (L : Libc) (good : Addr → Prop) (size : Word) (s : State Globals) : Prop :=
  ∀ n p raw, _dictNextPower size s = .ok (n, s) → n ≠ DICT_HT_INITIAL_SIZE →
    L.malloc s.trace s.mem (n * 8 + PREFIX_SIZE) = some (p, raw) →
    ∀ i < n.toNat, ∃ w, slice raw (8 + 8 * i) 8 = wordBytes w ∧ good w

variable {L : Libc} {T : Addr → Option dictType} {hash : Addr → Word} {s s' s₀ s₁ : State Globals}
  {x : DDict} {p d key val type privdata table rehash : Addr} {i k : ℕ} {size n w : Word}
  {ws vs : List Word} {ns : List (Addr × Addr × Addr)} {H : History} {good : Addr → Prop}
  {raw : List Byte} {y : State Globals × History} {tr : List ((State Globals × History) × DOp)}

theorem hashes_hashOf : Hashes Any T type (hashOf T type) := by
  right
  refine ⟨trivial, fun f hf => ?_⟩
  rw [hashOf, hf]

/-- A slot of the second table. -/
theorem Second.slot_iff (h : Second s.mem x ws) :
    getField x.ht1.table i s = .ok (w, s) ↔ ws[i]? = some w := by
  rcases h.table with ⟨hnull, -, rfl⟩ | ⟨hws, -⟩
  · have hub : getField NULL i s = .error .ub := wp.eq_error (wp_getField_null.mpr rfl)
    rw [hnull, hub]
    simp
  · exact getField_iff hws

theorem Kept.init (h : dictCreate L type privdata s₀ = .ok (d, s₁)) (hash : Addr → Word) :
    ∃ table w, Updates s₀.mem s₁.mem 0 (DDict.new d type privdata table w).foot ∧
      Kept hash (DDict.new d type privdata table w) [] (s₁, []) := by
  obtain ⟨table, w, hok, hu⟩ := wp_dictCreate.of_ok h
  exact ⟨table, w, hu, ⟨hok hash, hu.nodup, rfl⟩, rfl, Or.inl ⟨rfl, rfl, rfl⟩⟩

/-- An addition does not reach the second table. -/
theorem kept_add (h : Kept (hashOf T x.type) x ws (s, H)) :
    wp Any ((DOp.dictAdd key val).exec L T x.addr) (fun _ s' => ∃ p, block s.mem p = none ∧
      Updates s.mem s'.mem x.foot (x.add p key val).foot ∧
      Kept (hashOf T x.type) (x.add p key val) ws (s', (key, val) :: H)) s := by
  have hok : x.Ok (hashOf T x.type) s.mem := h.tabled.ok
  rw [DOp.exec, wp_bind]
  refine (wp_dictAdd (E := Any) trivial hashes_hashOf hok h.tabled.nodup).mono fun r s' hpost => ?_
  obtain ⟨-, p, hp, hu, hok'⟩ := hpost
  refine wp_pure.mpr ⟨p, hp, hu, ⟨hok', hu.nodup, congrArg _ h.tabled.history⟩, h.second.used, ?_⟩
  rcases h.second.table with hnull | ⟨hws, hfoot, hmask⟩
  · exact Or.inl hnull
  · have hfoot' : x.ht1.table ∉ (x.add p key val).foot := by
      rw [foot_add, Multiset.mem_cons, not_or]
      exact ⟨ne_of_live hp ⟨_, hws⟩, hfoot⟩
    exact Or.inr ⟨hws.congr (hu.frame _ hfoot hfoot'), hfoot', hmask⟩

/-- An expansion does nothing, or it installs a block as it comes from the allocator. -/
theorem kept_expand (h : Kept hash x ws (s, H)) :
    wp Any ((DOp.dictExpand size).exec L T x.addr) (fun _ s' =>
      (_dictNextPower size s = .ok (DICT_HT_INITIAL_SIZE, s) ∧ s' = s) ∨
      ∃ n table raw vs rehash, _dictNextPower size s = .ok (n, s) ∧ n ≠ DICT_HT_INITIAL_SIZE ∧
        L.malloc s.trace s.mem (n * 8 + PREFIX_SIZE) = some (table - PREFIX_SIZE, raw) ∧
        raw.drop 8 = words vs ∧ Updates s.mem s'.mem x.foot (table ::ₘ x.foot) ∧
        Holds s'.mem table (words vs) ∧ table ∉ x.foot ∧ Kept hash (x.expand table n rehash) vs (s', H)) s := by
  have hok : x.Ok hash s.mem := h.tabled.ok
  rw [DOp.exec, wp_bind]
  refine wp_dictExpand (E := Any) (fun _ _ _ => trivial) hok (fun heq => wp_pure.mpr (Or.inl ⟨heq, rfl⟩)) ?_
  intro n table raw vs rehash s' hn hne hraw hvs _ hnew hc
  obtain ⟨htable, hu, hok'⟩ := hok.expand h.tabled.nodup hnew hc
  refine wp_pure.mpr (Or.inr ⟨n, table, raw, vs, rehash, hn, hne, hraw, hvs, hu, hc.get_holds 0 rfl, htable, ?_⟩)
  refine ⟨⟨hok', h.tabled.nodup, h.tabled.history⟩, rfl, Or.inr ⟨hc.get_holds 0 rfl, htable, rfl, ?_⟩⟩
  exact dictNextPower_ne_zero hn

/-- What one call does: it adds an entry, or an expansion is refused, or it installs a block as it
comes from the allocator. -/
inductive DMoves (L : Libc) (x : DDict) (ws : List Word) (y : State Globals × History) :
    DOp → DDict → List Word → State Globals × History → Prop where
  | added {key val p : Addr} {s' : State Globals} (fresh : block y.1.mem p = none)
      (update : Updates y.1.mem s'.mem x.foot (x.add p key val).foot) :
      DMoves L x ws y (.dictAdd key val) (x.add p key val) ws (s', (key, val) :: y.2)
  | refused {size : Word} (power : _dictNextPower size y.1 = .ok (DICT_HT_INITIAL_SIZE, y.1)) :
      DMoves L x ws y (.dictExpand size) x ws y
  | installed {size n rehash : Word} {table : Addr} {raw : List Byte} {vs : List Word} {s' : State Globals}
      (power : _dictNextPower size y.1 = .ok (n, y.1)) (larger : n ≠ DICT_HT_INITIAL_SIZE)
      (got : L.malloc y.1.trace y.1.mem (n * 8 + PREFIX_SIZE) = some (table - PREFIX_SIZE, raw))
      (slots : raw.drop 8 = words vs) (update : Updates y.1.mem s'.mem x.foot (table ::ₘ x.foot))
      (holds : Holds s'.mem table (words vs)) (apart : table ∉ x.foot) :
      DMoves L x ws y (.dictExpand size) (x.expand table n rehash) vs (s', y.2)

theorem DMoves.same {x' : DDict} {op : DOp} {y' : State Globals × History} (h : DMoves L x ws y op x' vs y') :
    x'.addr = x.addr ∧ x'.type = x.type := by
  cases h with
  | added | refused | installed => exact ⟨rfl, rfl⟩

theorem Kept.step {op : DOp} {y' : State Globals × History} (h : Kept (hashOf T x.type) x ws y)
    (hstep : dstep L T x.addr y op y') :
    ∃ x' vs, DMoves L x ws y op x' vs y' ∧ Kept (hashOf T x.type) x' vs y' := by
  obtain ⟨s, H⟩ := y
  obtain ⟨s', H'⟩ := y'
  obtain ⟨hok, rfl⟩ := hstep
  change op.exec L T x.addr s = .ok ((), s') at hok
  cases op with
  | dictAdd key val =>
    obtain ⟨p, hp, hu, hx⟩ := (kept_add h).of_ok hok
    exact ⟨x.add p key val, ws, DMoves.added hp hu, hx⟩
  | dictExpand size =>
    rcases (kept_expand h).of_ok hok with
      ⟨hsize, rfl⟩ | ⟨n, table, raw, vs, rehash, hn, hne, hraw, hvs, hu, hholds, htable, hx⟩
    · exact ⟨x, ws, DMoves.refused hsize, h⟩
    · exact ⟨x.expand table n rehash, vs, DMoves.installed hn hne hraw hvs hu hholds htable, hx⟩

theorem Kept.run (hnew : dictCreate L type privdata s₀ = .ok (d, s₁)) (h : Run (dstep L T d) (s₁, []) tr y) :
    ∃ x : DDict, x.addr = d ∧ x.type = type ∧ ∃ ws, Kept (hashOf T type) x ws y := by
  obtain ⟨table, w, -, hI⟩ := Kept.init hnew (hashOf T type)
  refine h.invariant (P := fun _ y => ∃ x : DDict, x.addr = d ∧ x.type = type ∧ ∃ ws, Kept (hashOf T type) x ws y)
    ⟨_, rfl, rfl, [], hI⟩ ?_
  rintro - y op y' ⟨x, rfl, rfl, ws, hx⟩ hstep
  obtain ⟨x', vs, hmoves, hx'⟩ := hx.step hstep
  exact ⟨x', hmoves.same.1, hmoves.same.2, vs, hx'⟩

theorem expandsTo_of_refused (h : _dictNextPower size s = .ok (DICT_HT_INITIAL_SIZE, s)) :
    ExpandsTo L good size s := by
  intro n p raw hn hne
  exact absurd (Prod.mk.inj (Except.ok.inj (h.symm.trans hn))).1.symm hne

/-- What the allocator left in the block is what stands in the slots. -/
theorem expandsTo_iff (hn : _dictNextPower size s = .ok (n, s)) (hne : n ≠ DICT_HT_INITIAL_SIZE)
    (hraw : L.malloc s.trace s.mem (n * 8 + PREFIX_SIZE) = some (p, raw)) (hvs : raw.drop 8 = words vs) :
    ExpandsTo L good size s ↔ Filled (x.expand table n rehash) vs good := by
  have hslot : ∀ i w, slice raw (8 + 8 * i) 8 = wordBytes w ↔ vs[i]? = some w := by
    intro i w
    rw [← slice_words_iff, ← hvs, slice, slice, List.drop_drop]
  constructor
  · intro h i hi
    simpa only [hslot] using h n p raw hn hne hraw i hi
  · intro h n' p' raw' hn' _ hraw'
    obtain rfl : n = n' := (Prod.mk.inj (Except.ok.inj (hn.symm.trans hn'))).1
    obtain ⟨rfl, rfl⟩ := Prod.mk.inj (Option.some.inj (hraw.symm.trans hraw'))
    simp only [hslot]
    exact h

theorem getHt_zero (h : x.Ok hash s.mem) : getHt x.addr 0 s =
    .ok (⟨x.table, DICT_HT_INITIAL_SIZE, DICT_HT_INITIAL_SIZE - 1, 0⟩, s) :=
  wp.eq_ok ((wp_getHt h.header).mpr ⟨rfl, rfl⟩)

theorem getHt_one (h : x.Ok hash s.mem) : getHt x.addr 1 s = .ok (x.ht1, s) := by
  apply wp.eq_ok
  rw [getHt, wp_bind, wp_getField h.header rfl, wp_bind, wp_getField h.header rfl, wp_bind,
    wp_getField h.header rfl, wp_bind, wp_getField h.header rfl, wp_pure]
  exact ⟨rfl, rfl⟩

/-- A live entry of `d`, one that a `dictAdd` created. -/
def IsEntry (hash : Addr → Word) (d : Addr) (y : State Globals × History) (p : Addr) : Prop :=
  ∃ ht ns, TableAt y.1 d hash ht ns ∧ ns.map Prod.snd = y.2 ∧ p ∈ ns.map Prod.fst

def NullOrEntry (hash : Addr → Word) (d : Addr) (y : State Globals × History) (p : Addr) : Prop :=
  p = NULL ∨ IsEntry hash d y p

/-- Every slot of both tables is NULL or points to an entry, and so does what
`getDictEntry` finds in one. -/
structure Initialised (T : Addr → Option dictType) (hash : Addr → Word) (d : Addr)
    (y : State Globals × History) : Prop where
  slots : ∀ j < 2, ∃ ht, getHt d j y.1 = .ok (ht, y.1) ∧
    ∀ i < ht.size.toNat, ∃ p, getField ht.table i y.1 = .ok (p, y.1) ∧ NullOrEntry hash d y p
  probe : ∀ key p s', getDictEntry T d key y.1 = .ok (p, s') → NullOrEntry hash d y p

theorem Initialised.slot {j : ℕ} (h : Initialised T hash d (s, H)) (hj : j < 2) :
    ∃ ht, getHt d j s = .ok (ht, s) ∧ ∀ i < ht.size.toNat, ∃ p, getField ht.table i s = .ok (p, s) ∧
      NullOrEntry hash d (s, H) p := h.slots j hj

/-- An expansion is refused, or the allocator had the new slots initialised already. -/
def Initialises (L : Libc) (hash : Addr → Word) (d : Addr) (y : State Globals × History) :
    DOp → Prop
  | .dictAdd _ _ => True
  | .dictExpand size => ExpandsTo L (NullOrEntry hash d y) size y.1

/-- The chains of a table determine its entries. -/
theorem TableAt.mem {ht : dictht} (h : TableAt s x.addr hash ht ns) (hok : x.Ok hash s.mem)
    (hn : x.foot.Nodup) (hp : p ∈ ns.map Prod.fst) : p ∈ x.addrs := by
  have h' := hok.tableAt hn
  obtain rfl := (Prod.mk.inj (Except.ok.inj (h.header.symm.trans h'.header))).1
  obtain ⟨c, hc, rfl⟩ := List.mem_map.mp hp
  obtain ⟨q, hq, hchain⟩ := h.chains (ix hash c.2) ix_lt
  obtain ⟨q', hq', hchain'⟩ := h'.chains (ix hash c.2) ix_lt
  obtain rfl := (Prod.mk.inj (Except.ok.inj (hq.symm.trans hq'))).1
  have heq := (Prod.mk.inj (Except.ok.inj (hchain.symm.trans hchain'))).1
  have hmem : c ∈ ns.filter fun n => (hash n.2.1 &&& (DICT_HT_INITIAL_SIZE - 1)).toNat = ix hash c.2 := by
    rw [List.mem_filter, decide_eq_true_eq]
    exact ⟨hc, rfl⟩
  rw [heq] at hmem
  exact List.mem_map.mpr ⟨c, (List.mem_filter.mp hmem).1, rfl⟩

theorem isEntry_iff (h : Tabled hash x y) : IsEntry hash x.addr y p ↔ p ∈ x.addrs := by
  constructor
  · rintro ⟨ht, ns, hat, -, hp⟩
    exact hat.mem h.ok h.nodup hp
  · exact fun hp => ⟨_, x.entries, h.ok.tableAt h.nodup, h.history, hp⟩

theorem nullOrEntry_iff (h : Tabled hash x y) :
    NullOrEntry hash x.addr y = fun p => p = NULL ∨ p ∈ x.addrs := by
  funext p
  rw [NullOrEntry, isEntry_iff h]

/-- The slots of the first table. -/
theorem slots_mem : first (bucket (ix hash) x.entries i) NULL = NULL ∨
    first (bucket (ix hash) x.entries i) NULL ∈ x.addrs := by
  rcases hb : bucket (ix hash) x.entries i with - | ⟨n, ns⟩
  · exact Or.inl rfl
  · right
    have hn : n ∈ x.entries := bucket_sublist.subset (hb ▸ List.mem_cons_self)
    exact List.mem_map.mpr ⟨n, hn, rfl⟩

/-- The index of the second probe is below the size of the second table. -/
theorem mask_lt {w : Word} (hn : n ≠ 0) : (w &&& (n - 1)).toNat < n.toNat := by
  have hle := Nat.and_le_right (n := w.toNat) (m := (n - 1).toNat)
  have hpos : 0 < n.toNat := Nat.pos_of_ne_zero fun h0 => hn (BitVec.eq_of_toNat_eq h0)
  have hsub : (n - 1).toNat = n.toNat - 1 := by
    rw [BitVec.toNat_sub_of_le (by rw [BitVec.le_def]; exact hpos)]
    rfl
  rw [BitVec.toNat_and]
  omega

theorem probe_entry (h : Kept (hashOf T x.type) x ws (s, H))
    (hf : Filled x ws fun p => p = NULL ∨ p ∈ x.addrs) :
    wp Any (getDictEntry T x.addr key) (fun p _ => p = NULL ∨ p ∈ x.addrs) s := by
  have hok : x.Ok (hashOf T x.type) s.mem := h.tabled.ok
  apply wp_getDictEntry hashes_hashOf hok
  · intro p v ns hb _
    have hn : (p, v) ∈ x.entries := bucket_sublist.subset (hb ▸ List.mem_cons_self)
    exact Or.inr (List.mem_map.mpr ⟨_, hn, rfl⟩)
  · intro _
    rcases h.second.table with ⟨hnull, -⟩ | ⟨hws, -, hmask, hsize⟩
    · rw [hnull, wp_getField_null]
      trivial
    · obtain ⟨w, hw, hgood⟩ := hf _ (mask_lt (w := hashOf T x.type key &&& (DICT_HT_INITIAL_SIZE - 1)) hsize)
      rw [hmask]
      exact (wp_getField hws hw).mpr hgood

/-- All that can be wrong is a slot of the second table. -/
theorem initialised_iff (h : Kept (hashOf T x.type) x ws y) :
    Initialised T (hashOf T x.type) x.addr y ↔ Filled x ws fun p => p = NULL ∨ p ∈ x.addrs := by
  constructor
  · intro hI i hi
    obtain ⟨ht, hht, hslots⟩ := hI.slots 1 (by norm_num)
    obtain rfl := (Prod.mk.inj (Except.ok.inj ((getHt_one h.tabled.ok).symm.trans hht))).1
    obtain ⟨p, hp, hentry⟩ := hslots i hi
    rw [nullOrEntry_iff h.tabled] at hentry
    exact ⟨p, h.second.slot_iff.mp hp, hentry⟩
  · intro hf
    refine ⟨fun j hj => ?_, fun key p s' hfound => ?_⟩
    · rw [nullOrEntry_iff h.tabled]
      interval_cases j
      · exact ⟨_, getHt_zero h.tabled.ok, fun i hi =>
          ⟨_, getField_ok h.tabled.ok.slots (slots_get hi), slots_mem⟩⟩
      · refine ⟨_, getHt_one h.tabled.ok, fun i hi => ?_⟩
        obtain ⟨w, hw, hgood⟩ := hf i hi
        exact ⟨w, h.second.slot_iff.mpr hw, hgood⟩
    · rw [nullOrEntry_iff h.tabled]
      exact (probe_entry h hf).of_ok hfound

theorem dstep_initialised {y y' : State Globals × History} {op : DOp}
    (hI : ∃ x : DDict, x.addr = d ∧ x.type = type ∧ ∃ ws, Kept (hashOf T type) x ws y)
    (hP : Initialised T (hashOf T type) d y) (hstep : dstep L T d y op y') :
    (∃ x : DDict, x.addr = d ∧ x.type = type ∧ ∃ ws, Kept (hashOf T type) x ws y') ∧
      (Initialised T (hashOf T type) d y' ↔ Initialises L (hashOf T type) d y op) := by
  obtain ⟨x, rfl, rfl, ws, hx⟩ := hI
  obtain ⟨x', vs, hmoves, hx'⟩ := hx.step hstep
  refine ⟨⟨x', hmoves.same.1, hmoves.same.2, vs, hx'⟩, ?_⟩
  cases hmoves with
  | @added key val p s' fresh update =>
    refine iff_of_true ?_ trivial
    apply (initialised_iff (x := x.add p key val) hx').mpr
    intro i hi
    obtain ⟨w, hw, hgood⟩ := (initialised_iff hx).mp hP i hi
    exact ⟨w, hw, hgood.imp_right (List.mem_cons_of_mem _)⟩
  | refused power => exact iff_of_true hP (expandsTo_of_refused power)
  | @installed size n rehash table raw vs s' power larger got slots =>
    rw [Initialises, nullOrEntry_iff hx.tabled, expandsTo_iff power larger got slots]
    exact initialised_iff (x := x.expand table n rehash) hx'

/-- No slot is uninitialised all along a run exactly if each expansion that
installs a table gets it from the allocator with all its slots, and in each NULL
or a pointer to an entry. -/
theorem dict_slots (L : Libc) (T : Addr → Option dictType) (type privdata : Addr)
    (s₀ s₁ s : State Globals) (d : Addr) (hnew : dictCreate L type privdata s₀ = .ok (d, s₁))
    (H : History) (tr : List ((State Globals × History) × DOp))
    (h : Run (dstep L T d) (s₁, []) tr (s, H)) :
    Always (Initialised T (hashOf T type) d) tr (s, H) ↔
      ∀ y ∈ tr, Initialises L (hashOf T type) d y.1 y.2 := by
  obtain ⟨table, w, -, hI⟩ := Kept.init hnew (hashOf T type)
  have hP : Initialised T (hashOf T type) d (s₁, []) :=
    (initialised_iff (x := DDict.new d type privdata table w) hI).mpr fun i hi => absurd hi (Nat.not_lt_zero i)
  exact h.always_iff ⟨DDict.new d type privdata table w, rfl, rfl, [], hI⟩ hP
    fun _ _ _ hI hP hstep => dstep_initialised hI hP hstep

theorem dict_slots_zeroed : Always (Initialised plainType (hashOf plainType 1) 0x1008) expandRun
      (dict₃, [(9, 90), (5, 50)]) ↔
    ∀ y ∈ expandRun, Initialises (bump 0) (hashOf plainType 1) 0x1008 y.1 y.2 :=
  dict_slots (bump 0) plainType 1 NULL zinit dict₀ dict₃ 0x1008 dictCreate_dict₀
    [(9, 90), (5, 50)] expandRun run_expand

/-- An allocator that fills its blocks with ones leaves such pointers in the
second table. -/
def dirty₀ : State Globals := after (dictCreate (bump 1) 1 NULL) zinit
def dirty₁ : State Globals := after (DOp.exec (bump 1) plainType 0x1008 (.dictExpand 7)) dirty₀

theorem dictExpand_dirty : dictCreate (bump 1) 1 NULL zinit = .ok (0x1008, dirty₀) ∧
    Run (dstep (bump 1) plainType 0x1008) (dirty₀, []) [((dirty₀, []), .dictExpand 7)] (dirty₁, []) ∧
    ¬ Initialised plainType (hashOf plainType 1) 0x1008 (dirty₁, []) := by
  have h₁ : DOp.exec (bump 1) plainType 0x1008 (.dictExpand 7) dirty₀ = .ok ((), dirty₁) :=
    ok_after (by decide +kernel)
  have hht : result (getHt 0x1008 1) dirty₁ = some ⟨0x3008, 8, 7, 0⟩ := by decide +kernel
  have hslot : result (getField 0x3008 0) dirty₁ = some 0x0101010101010101 := by decide +kernel
  refine ⟨ok_after (by decide +kernel), Run.nil.snoc (dstep_of h₁), fun hI => ?_⟩
  obtain ⟨ht, hget, hslots⟩ := hI.slot (j := 1) (by norm_num)
  obtain rfl := Option.some.inj (hht.symm.trans (result_of_ok hget))
  obtain ⟨p, hp, hentry⟩ := hslots 0 (by decide)
  obtain rfl := Option.some.inj (hslot.symm.trans (result_of_ok hp))
  rcases hentry with hnull | ⟨ht, ns, -, hnil, hmem⟩
  · exact absurd hnull (by decide)
  · rw [List.map_eq_nil_iff.mp hnil] at hmem
    simp at hmem

end Redis
