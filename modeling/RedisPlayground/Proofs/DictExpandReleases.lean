import RedisPlayground.Proofs.DictReleases

/-! The release of a dict that was expanded. The walk over the second table takes
whatever the allocator left in its slots for entries, and tables that a later
expansion has replaced are not found any more. -/

namespace Redis

open CMem

/-- An expansion that is not refused. -/
def installs (e : (State Globals × History) × DOp) : Bool :=
  match e.2 with
  | .dictAdd _ _ => false
  | .dictExpand size => result (_dictNextPower size) e.1.1 ≠ some DICT_HT_INITIAL_SIZE

/-- The table that an expansion installs, with the bytes that the allocator left in its block. -/
def installedTable (L : Libc) (e : (State Globals × History) × DOp) : Option (Addr × List Byte) :=
  match e.2 with
  | .dictAdd _ _ => none
  | .dictExpand size =>
    (result (_dictNextPower size) e.1.1).bind fun n =>
      if n = DICT_HT_INITIAL_SIZE then none
      else (L.malloc e.1.1.trace e.1.1.mem (n * 8 + PREFIX_SIZE)).map fun b => (b.1 + PREFIX_SIZE, b.2.drop 8)

/-- The tables that the expansions of a run install, one after the other. -/
def installedTables (L : Libc) (tr : List ((State Globals × History) × DOp)) : List (Addr × List Byte) :=
  tr.filterMap (installedTable L)

/-- The tables that a later expansion has replaced. -/
def replacedTables (ts : List (Addr × List Byte)) : Multiset Addr := ↑(ts.dropLast.map Prod.fst)

/-- What is known of a dict after some additions and expansions, of which the latter installed `ts`: its
blocks, the second table and those before it are all that is new since `s₀`. -/
structure Spread (s₀ : State Globals) (hash : Addr → Word) (privdata : Addr) (x : DDict) (ws : List Word)
    (ts : List (Addr × List Byte)) (y : State Globals × History) : Prop where
  kept : Kept hash x ws y
  privdata : x.privdata = privdata
  updates : Updates s₀.mem y.1.mem 0 (x.foot + (dataBlock x.ht1.table + replacedTables ts))
  live : ∀ q ∈ replacedTables ts, block y.1.mem q ≠ none
  last : ts.getLast? = if x.ht1.table = NULL then none else some (x.ht1.table, words ws)

/-- The blocks of a dict with both its tables. -/
def dictBlocks (d privdata : Addr) (ht ht1 : dictht) (ns : List (Addr × Addr × Addr)) : Multiset Addr :=
  dataBlock privdata + (↑(ns.map Prod.fst) + {ht.table} + dataBlock ht1.table) + {d}

/-- The end of a dict with the history `H` and `n` expansions that installed `ts`: what a release frees, and
when it may not be called. -/
structure Ending (s₀ s : State Globals) (d privdata : Addr) (hash : Addr → Word) (H : History) (n : ℕ)
    (ts : List (Addr × List Byte)) (ht ht1 : dictht) (ns : List (Addr × Addr × Addr)) (lost : Multiset Addr) :
    Prop where
  table : TableAt s d hash ht ns
  history : ns.map Prod.snd = H
  second : getHt d 1 s = .ok (ht1, s)
  nodup : (dictBlocks d privdata ht ht1 ns + lost).Nodup
  installed : ht1.table = (ts.getLast?.map Prod.fst).getD NULL
  tables : lost = replacedTables ts
  replaced : lost.card = n - 1
  live : ∀ q ∈ lost, block s₀.mem q = none ∧ block s.mem q ≠ none
  frees : (∀ i < ht1.size.toNat, getField ht1.table i s = .ok (NULL, s)) →
    wp Never (dictRelease d) (fun _ s' => FreesBlocks (dictBlocks d privdata ht ht1 ns) s s' ∧ ∀ q, block s'.mem q =
      if q ∈ lost then block s.mem q else if q ∈ dataBlock privdata then none else block s₀.mem q) s
  wild : ∀ i < ht1.size.toNat, ∀ q, (∀ j < i, getField ht1.table j s = .ok (NULL, s)) →
    getField ht1.table i s = .ok (q, s) → q ≠ NULL →
    (block s.mem q = none ∨ q ∈ dataBlock privdata + (↑(ns.map Prod.fst) + {ht.table})) →
    dictRelease d s = .error .ub

variable {L : Libc} {T : Addr → Option dictType} {E : Stop → Prop} {hash : Addr → Word}
  {s s' s₀ s₁ : State Globals} {x : DDict} {p q d type privdata table : Addr} {n i : ℕ} {ws : List Word}
  {ts : List (Addr × List Byte)} {H : History} {y y' : State Globals × History} {op : DOp}
  {tr : List ((State Globals × History) × DOp)}

section Runs

theorem dataBlock_of_ne (h : p ≠ NULL) : dataBlock p = {p} := if_neg h

/-- The second table is live, if there is one. -/
theorem Second.live {m : Mem} (h : Second m x ws) (hq : q ∈ dataBlock x.ht1.table) : ∃ bs, Holds m q bs := by
  obtain ⟨hne, rfl⟩ := mem_dataBlock hq
  rcases h.table with ⟨hnull, -, -⟩ | ⟨hws, -⟩
  · exact absurd hnull hne
  · exact ⟨_, hws⟩

theorem Second.congr {m m' : Mem} (h : Second m x ws) (hm : ∀ q ∈ dataBlock x.ht1.table, block m' q = block m q) :
    Second m' x ws := by
  refine ⟨h.used, h.table.imp_right fun ⟨hws, hrest⟩ => ⟨hws.congr (hm _ ?_), hrest⟩⟩
  rw [dataBlock_of_ne hws.ne_null]
  exact Multiset.mem_singleton_self _

/-- The last table is the second one of the dict, and all before it are replaced. -/
theorem Spread.tables (h : Spread s₀ hash privdata x ws ts y) :
    (↑(ts.map Prod.fst) : Multiset Addr) = dataBlock x.ht1.table + replacedTables ts := by
  have hlast := h.last
  rw [dataBlock]
  split_ifs at hlast ⊢ with hnull
  · rw [List.getLast?_eq_none_iff.mp hlast]
    rfl
  · obtain ⟨us, rfl⟩ := List.getLast?_eq_some_iff.mp hlast
    rw [replacedTables, List.dropLast_concat, List.map_append, ← Multiset.coe_add, add_comm]
    rfl

theorem Spread.live_rest (h : Spread s₀ hash privdata x ws ts y) :
    ∀ q ∈ dataBlock x.ht1.table + replacedTables ts, block y.1.mem q ≠ none := by
  intro q hq
  rcases Multiset.mem_add.mp hq with hq | hq
  · obtain ⟨bs, hbs⟩ := h.kept.second.live hq
    exact hbs.live
  · exact h.live q hq

/-- A call that leaves the other tables where they are. -/
theorem Spread.frame {S : Multiset Addr} (h : Spread s₀ hash privdata x ws ts y)
    (hu : Updates y.1.mem s'.mem x.foot S) :
    Updates s₀.mem s'.mem 0 (S + (dataBlock x.ht1.table + replacedTables ts)) ∧
      ∀ q ∈ dataBlock x.ht1.table + replacedTables ts, block s'.mem q ≠ none := by
  have hn := h.updates.nodup
  refine ⟨Update.trans h.updates (hu.add hn h.live_rest), fun q hq => ?_⟩
  rw [show block s'.mem q = block y.1.mem q from hu.same hn h.live_rest q hq]
  exact h.live_rest q hq

theorem installedTable_of_refused {size : Word} (power : _dictNextPower size y.1 = .ok (DICT_HT_INITIAL_SIZE, y.1)) :
    installedTable L (y, .dictExpand size) = none ∧ installs (y, .dictExpand size) = false := by
  simp [installedTable, installs, result_of_ok power]

theorem installedTable_of_got {size n : Word} {raw : List Byte} (power : _dictNextPower size y.1 = .ok (n, y.1))
    (larger : n ≠ DICT_HT_INITIAL_SIZE)
    (got : L.malloc y.1.trace y.1.mem (n * 8 + PREFIX_SIZE) = some (table - PREFIX_SIZE, raw)) :
    installedTable L (y, .dictExpand size) = some (table, raw.drop 8) ∧ installs (y, .dictExpand size) = true := by
  constructor
  · change (result (_dictNextPower size) y.1).bind _ = _
    rw [result_of_ok power, Option.bind_some, if_neg larger, got, Option.map_some, sub_add_cancel]
  · simpa [installs, result_of_ok power] using larger

/-- A step keeps the books: an expansion that is not refused adds a table. -/
theorem Spread.step (h : Spread s₀ (hashOf T x.type) privdata x ws ts y) (hstep : dstep L T x.addr y op y') :
    ∃ x' vs, x'.addr = x.addr ∧ x'.type = x.type ∧
      Spread s₀ (hashOf T x.type) privdata x' vs (ts ++ (installedTable L (y, op)).toList) y' ∧
      (installedTable L (y, op)).toList.length = if installs (y, op) then 1 else 0 := by
  obtain ⟨x', vs, hmoves, hkept⟩ := h.kept.step hstep
  cases hmoves with
  | @added key val p s' fresh update =>
    obtain ⟨hu, hlive⟩ := h.frame update
    refine ⟨x.add p key val, ws, rfl, rfl, ?_, rfl⟩
    rw [installedTable, Option.toList_none, List.append_nil]
    exact ⟨hkept, h.privdata, hu, fun q hq => hlive q (Multiset.mem_add.mpr (Or.inr hq)), h.last⟩
  | refused power =>
    obtain ⟨hnone, hfalse⟩ := installedTable_of_refused (L := L) power
    refine ⟨x, ws, rfl, rfl, ?_, by rw [hnone, hfalse]; rfl⟩
    rw [hnone, Option.toList_none, List.append_nil]
    exact ⟨hkept, h.privdata, h.updates, h.live, h.last⟩
  | @installed size n rehash table raw vs s' power larger got slots update holds apart =>
    obtain ⟨hu, hlive⟩ := h.frame update
    obtain ⟨hsome, htrue⟩ := installedTable_of_got power larger got
    have htable : dataBlock table = {table} := dataBlock_of_ne holds.ne_null
    have hreplaced : replacedTables (ts ++ [(table, words vs)]) = dataBlock x.ht1.table + replacedTables ts := by
      rw [replacedTables, List.dropLast_concat, h.tables]
    refine ⟨x.expand table n rehash, vs, rfl, rfl, ?_, by rw [hsome, htrue]; rfl⟩
    rw [hsome, Option.toList_some, slots]
    refine ⟨hkept, h.privdata, ?_, hreplaced ▸ hlive, ?_⟩
    · rw [hreplaced]
      change Updates s₀.mem s'.mem 0 (x.foot + (dataBlock table + (dataBlock x.ht1.table + replacedTables ts)))
      rwa [htable, ← add_assoc x.foot, add_comm x.foot, Multiset.singleton_add]
    · rw [List.getLast?_concat]
      exact (if_neg holds.ne_null).symm

theorem Spread.run (hnew : dictCreate L type privdata s₀ = .ok (d, s₁)) (h : Run (dstep L T d) (s₁, []) tr y) :
    ∃ (x : DDict) (ws : List Word), x.addr = d ∧ x.type = type ∧
      Spread s₀ (hashOf T type) privdata x ws (installedTables L tr) y ∧
      (installedTables L tr).length = tr.countP installs := by
  obtain ⟨table, w, hu, hI⟩ := Kept.init hnew (hashOf T type)
  refine h.invariant (P := fun tr y => ∃ (x : DDict) (ws : List Word), x.addr = d ∧ x.type = type ∧
    Spread s₀ (hashOf T type) privdata x ws (installedTables L tr) y ∧
    (installedTables L tr).length = tr.countP installs) ?_ ?_
  · refine ⟨_, [], rfl, rfl, ⟨hI, rfl, ?_, fun q hq => absurd hq (Multiset.notMem_zero q), rfl⟩, rfl⟩
    simpa [dataBlock, DDict.new, installedTables, replacedTables] using hu
  · rintro tr y op y' ⟨x, ws, rfl, rfl, hx, hcount⟩ hstep
    obtain ⟨x', vs, haddr, htype, hx', hone⟩ := hx.step hstep
    have htables : installedTables L (tr ++ [(y, op)]) = installedTables L tr ++ (installedTable L (y, op)).toList := by
      rw [installedTables, List.filterMap_append]
      cases htable : installedTable L (y, op) <;> simp [installedTables, htable]
    refine ⟨x', vs, haddr, htype, htables ▸ hx', ?_⟩
    rw [htables, List.length_append, hcount, hone, List.countP_append, List.countP_singleton]

end Runs

section Releases

theorem wp_chain_null {Q : Unit → State Globals → Prop} (hQ : Q () s) (hn : 0 < n) :
    wp E (_dictEntryReleaseChain n NULL) Q s := by
  obtain ⟨n, rfl⟩ := Nat.exists_eq_succ_of_ne_zero (Nat.ne_of_gt hn)
  rw [_dictEntryReleaseChain, if_pos rfl]
  exact wp_pure.mpr hQ

theorem fuel_pos {bs : List Byte} (h : Holds s.mem p bs) : 0 < s.mem.keys.card :=
  Finset.card_pos.mpr ⟨_, Finmap.mem_keys.mpr (mem_of_block h.block)⟩

theorem wp_getField_dead {Q : Word → State Globals → Prop} (hE : E .ub) (h : block s.mem p = none) :
    wp E (getField p i) Q s := by
  rw [getField, wp_bind]
  exact wp_getBytes_dead hE h

/-- Slots that are NULL have no chains. -/
theorem wp_releaseLoop_null (h : Holds s.mem table (words ws)) (hnull : ∀ i < n, ws[i]? = some NULL) :
    wp E (_dictEntryReleaseLoop table n) (fun _ s' => s' = s) s := by
  induction n with
  | zero => exact wp_pure.mpr rfl
  | succ n ih =>
    rw [_dictEntryReleaseLoop, wp_bind]
    refine (ih fun i hi => hnull i (by omega)).mono ?_
    rintro _ s' rfl
    rw [wp_bind, wp_getField h (hnull n (Nat.lt_succ_self n)), wp_bind, fuel, wp_bind, wp_get, wp_pure]
    exact wp_chain_null rfl (fuel_pos h)

/-- The first slot that is not NULL is followed, wherever it leads. -/
theorem wp_releaseLoop_wild (h : Holds s.mem table (words ws)) (hnull : ∀ j < i, ws[j]? = some NULL)
    (hslot : ws[i]? = some q) (hq : q ≠ NULL) (hdead : block s.mem q = none) (hi : i < n) :
    wp (· = .ub) (_dictEntryReleaseLoop table n) (fun _ _ => False) s := by
  induction n with
  | zero => exact absurd hi (Nat.not_lt_zero i)
  | succ n ih =>
    rw [_dictEntryReleaseLoop, wp_bind]
    rcases Nat.lt_or_ge i n with hlt | hge
    · exact (ih hlt).mono fun _ _ hfalse => hfalse.elim
    · obtain rfl : i = n := by omega
      refine (wp_releaseLoop_null h hnull).mono ?_
      rintro _ s' rfl
      rw [wp_bind, wp_getField h hslot, wp_bind, fuel, wp_bind, wp_get, wp_pure]
      obtain ⟨k, hk⟩ := Nat.exists_eq_succ_of_ne_zero (Nat.ne_of_gt (fuel_pos h))
      rw [hk, _dictEntryReleaseChain, if_neg hq, wp_bind]
      exact wp_getField_dead rfl hdead

/-- Both tables, the second one without entries. -/
theorem wp_dictHtRelease_both (h : x.Ok hash s.mem) (hx : x.foot.Nodup) (h2 : Second s.mem x ws)
    (hnull : Filled x ws (· = NULL)) :
    wp E (_dictHtRelease x.addr) (fun _ s' => FreesBlocks (↑x.addrs + {x.table} + dataBlock x.ht1.table) s s') s := by
  have hslots : ∀ i < x.ht1.size.toNat, ws[i]? = some NULL := fun i hi => by
    obtain ⟨w, hw, rfl⟩ := hnull i hi
    exact hw
  rw [_dictHtRelease, wp_bind]
  refine (wp_dictHtRelease_first h hx).mono fun _ s₁ hfreed => ?_
  have hd : Holds s₁.mem x.addr (words x.header) := h.header.congr (hfreed.frame _ (DDict.notMem_first hx))
  rw [_dictHtRelease_ht, wp_bind, _dictEntryRelease_ht, wp_bind, wp_getField hd rfl, wp_bind, wp_getField hd rfl]
  rcases h2.table with ⟨htable, hsize, -⟩ | ⟨hws, hfoot, -⟩
  · have hzero : (0 : Word).toNat = 0 := rfl
    rw [hsize, hzero, _dictEntryReleaseLoop, wp_pure, wp_bind, wp_getField hd rfl, htable, wp_zfree_null, dataBlock,
      if_pos rfl, add_zero]
    exact hfreed
  · have hws₁ : Holds s₁.mem x.ht1.table (words ws) := by
      refine hws.congr (hfreed.frame _ fun hmem => hfoot (DDict.mem_foot.mpr ?_))
      rcases Multiset.mem_add.mp hmem with hmem | hmem
      · exact Or.inr (Or.inr hmem)
      · exact Or.inr (Or.inl (Multiset.mem_singleton.mp hmem))
    refine (wp_releaseLoop_null hws₁ hslots).mono ?_
    rintro _ s' rfl
    rw [wp_bind, wp_getField hd rfl, dataBlock_of_ne hws.ne_null]
    exact (FreesBlocks.zfree hws₁ fun _ _ => rfl).mono fun _ s₂ hfreed' => hfreed.trans hfreed'

/-- A slot that leads nowhere, or to what has been freed before. -/
theorem wp_dictRelease_wild {bs : List Byte} (h : x.Ok hash s.mem) (hx : x.foot.Nodup) (h2 : Second s.mem x ws)
    (hpriv : x.privdata ≠ NULL → Holds s.mem x.privdata bs ∧ x.privdata ∉ x.foot ∧ x.privdata ∉ dataBlock x.ht1.table)
    (hnull : ∀ j < i, ws[j]? = some NULL) (hslot : ws[i]? = some q) (hq : q ≠ NULL) (hi : i < x.ht1.size.toNat)
    (hdead : block s.mem q = none ∨ q ∈ dataBlock x.privdata + (↑x.addrs + {x.table})) :
    wp (· = .ub) (dictRelease x.addr) (fun _ _ => False) s := by
  obtain ⟨hws, hfoot⟩ : Holds s.mem x.ht1.table (words ws) ∧ x.ht1.table ∉ x.foot := by
    rcases h2.table with ⟨-, hsize, -⟩ | ⟨hws, hfoot, -⟩
    · rw [hsize] at hi
      exact absurd hi (Nat.not_lt_zero i)
    · exact ⟨hws, hfoot⟩
  rw [dictRelease, wp_bind]
  refine (wp_privDataRelease h fun hne => (hpriv hne).1).mono fun _ s₁ hfreed => ?_
  have h₁ : x.Ok hash s₁.mem := by
    refine h.congr fun q hq => hfreed.frame q fun hmem => ?_
    obtain ⟨hne, rfl⟩ := mem_dataBlock hmem
    exact (hpriv hne).2.1 hq
  rw [wp_bind, _dictHtRelease, wp_bind]
  refine (wp_dictHtRelease_first h₁ hx).mono fun _ s₂ hfreed' => ?_
  have hall := hfreed.trans hfreed'
  have hd : Holds s₂.mem x.addr (words x.header) := h₁.header.congr (hfreed'.frame _ (DDict.notMem_first hx))
  have hws₂ : Holds s₂.mem x.ht1.table (words ws) := by
    refine hws.congr (hall.frame _ fun hmem => ?_)
    rcases Multiset.mem_add.mp hmem with hmem | hmem
    · obtain ⟨hne, heq⟩ := mem_dataBlock hmem
      exact (hpriv hne).2.2 (heq ▸ dataBlock_of_ne hws.ne_null ▸ Multiset.mem_singleton_self _)
    · rcases Multiset.mem_add.mp hmem with hmem | hmem
      · exact hfoot (DDict.mem_foot.mpr (Or.inr (Or.inr hmem)))
      · exact hfoot (DDict.mem_foot.mpr (Or.inr (Or.inl (Multiset.mem_singleton.mp hmem))))
  have hdead₂ : block s₂.mem q = none := by
    by_cases hmem : q ∈ dataBlock x.privdata + (↑x.addrs + {x.table})
    · exact hall.gone q hmem
    · rw [hall.frame q hmem]
      exact hdead.resolve_right hmem
  rw [_dictHtRelease_ht, wp_bind, _dictEntryRelease_ht, wp_bind, wp_getField hd rfl, wp_bind, wp_getField hd rfl]
  exact (wp_releaseLoop_wild hws₂ hnull hslot hq hdead₂ hi).mono fun _ _ hfalse => hfalse.elim

end Releases

section After

/-- The table that is in place. -/
theorem Spread.table_eq (h : Spread s₀ hash privdata x ws ts y) :
    x.ht1.table = (ts.getLast?.map Prod.fst).getD NULL := by
  rw [h.last]
  split_ifs with hnull
  · exact hnull
  · rfl

theorem DDict.blocks_eq : dataBlock x.privdata + (↑x.addrs + {x.table} + dataBlock x.ht1.table) + {x.addr} =
    dataBlock x.privdata + (x.foot + dataBlock x.ht1.table) := by
  rw [← add_assoc _ x.foot, ← DDict.released_eq, DDict.released]
  abel

namespace Spread

variable (h : Spread s₀ hash x.privdata x ws ts (s, H))

include h

theorem fresh_of_mem (hq : q ∈ x.foot + (dataBlock x.ht1.table + replacedTables ts)) : block s₀.mem q = none :=
  h.updates.fresh q hq (Multiset.notMem_zero q)

theorem second_notMem (hq : q ∈ x.foot) : q ∉ dataBlock x.ht1.table := fun hmem =>
  Multiset.disjoint_left.mp (Multiset.nodup_add.mp h.updates.nodup).2.2 hq (Multiset.mem_add.mpr (Or.inl hmem))

theorem priv_notMem (hpriv : x.privdata = NULL ∨ ∃ bs, Holds s₀.mem x.privdata bs) (hq : q ∈ dataBlock x.privdata) :
    q ∉ x.foot + (dataBlock x.ht1.table + replacedTables ts) := by
  obtain ⟨hne, rfl⟩ := mem_dataBlock hq
  obtain ⟨bs, hbs⟩ := hpriv.resolve_left hne
  exact fun hmem => hbs.live (h.fresh_of_mem hmem)

theorem blocks_nodup (hpriv : x.privdata = NULL ∨ ∃ bs, Holds s₀.mem x.privdata bs) :
    (dataBlock x.privdata + (x.foot + dataBlock x.ht1.table) + replacedTables ts).Nodup := by
  rw [add_assoc, add_assoc x.foot, Multiset.nodup_add]
  refine ⟨?_, h.updates.nodup, Multiset.disjoint_left.mpr fun {q} => h.priv_notMem hpriv⟩
  unfold dataBlock
  split_ifs
  · exact Multiset.nodup_zero
  · exact Multiset.nodup_singleton _

/-- What a release leaves: the heap from before the creation, without the private data, and what was lost. -/
theorem after (hpriv : x.privdata = NULL ∨ ∃ bs, Holds s₀.mem x.privdata bs)
    (hfreed : FreesBlocks (dataBlock x.privdata + (x.foot + dataBlock x.ht1.table)) s s') :
    block s'.mem q =
      if q ∈ replacedTables ts then block s.mem q else if q ∈ dataBlock x.privdata then none else block s₀.mem q := by
  have hn := h.blocks_nodup hpriv
  split_ifs with hlost hdata
  · exact hfreed.frame q (Multiset.disjoint_right.mp (Multiset.nodup_add.mp hn).2.2 hlost)
  · exact hfreed.gone q (Multiset.mem_add.mpr (Or.inl hdata))
  · by_cases hmem : q ∈ x.foot + dataBlock x.ht1.table
    · rw [hfreed.gone q (Multiset.mem_add.mpr (Or.inr hmem))]
      refine (h.fresh_of_mem ?_).symm
      rw [← add_assoc]
      exact Multiset.mem_add.mpr (Or.inl hmem)
    · rw [hfreed.frame q fun hin => (Multiset.mem_add.mp hin).elim hdata hmem]
      refine h.updates.frame q (Multiset.notMem_zero q) fun hin => ?_
      rw [← add_assoc] at hin
      exact (Multiset.mem_add.mp hin).elim hmem hlost

theorem priv_holds (hpriv : x.privdata = NULL ∨ ∃ bs, Holds s₀.mem x.privdata bs) : ∃ bs, x.privdata ≠ NULL →
    Holds s.mem x.privdata bs ∧ x.privdata ∉ x.foot ∧ x.privdata ∉ dataBlock x.ht1.table := by
  rcases hpriv with hnull | ⟨bs, hbs⟩
  · exact ⟨[], fun hne => absurd hnull hne⟩
  · refine ⟨bs, fun hne => ?_⟩
    have hnot := h.priv_notMem (Or.inr ⟨bs, hbs⟩) (q := x.privdata) (by rw [dataBlock_of_ne hne]; simp)
    refine ⟨hbs.congr (h.updates.frame _ (Multiset.notMem_zero _) hnot), fun hmem => ?_, fun hmem => ?_⟩
    · exact hnot (Multiset.mem_add.mpr (Or.inl hmem))
    · exact hnot (Multiset.mem_add.mpr (Or.inr (Multiset.mem_add.mpr (Or.inl hmem))))

end Spread

/-- After a creation and any additions and expansions: if all slots of the second table are NULL, a release
gives back the dict, both its tables, every entry and the private data, each once, and leaves exactly the tables
that a later expansion has replaced; if the first slot that is not leads to no block, or to one of
those freed before, it is undefined. -/
theorem dictRelease_after_expansions (L : Libc) (T : Addr → Option dictType) (type privdata : Addr)
    (hash : Addr → Word) (hT : T type = some ⟨some hash⟩) (s₀ s₁ s : State Globals) (d : Addr)
    (hpriv : privdata = NULL ∨ ∃ bs, Holds s₀.mem privdata bs)
    (hnew : dictCreate L type privdata s₀ = .ok (d, s₁)) (H : History)
    (tr : List ((State Globals × History) × DOp)) (h : Run (dstep L T d) (s₁, []) tr (s, H)) :
    ∃ ht ht1 ns lost, Ending s₀ s d privdata hash H (tr.countP installs) (installedTables L tr) ht ht1 ns lost := by
  obtain ⟨x, ws, rfl, rfl, hx, hcount⟩ := Spread.run hnew h
  have hhash : hashOf T x.type = hash := by rw [hashOf, hT]
  rw [hhash] at hx
  obtain ⟨hok, hn, hhist⟩ := hx.kept.tabled
  have h2 := hx.kept.second
  obtain rfl := hx.privdata
  obtain ⟨bs, hbs⟩ := hx.priv_holds hpriv
  refine ⟨_, x.ht1, x.entries, replacedTables (installedTables L tr), hok.tableAt hn, hhist, getHt_one hok, ?_,
    hx.table_eq, rfl, ?_, fun q hq => ⟨hx.fresh_of_mem ?_, hx.live q hq⟩, fun hnull => ?_,
    fun i hi q hnull hslot hq hdead => ?_⟩
  · exact (congrArg (fun S => (S + replacedTables (installedTables L tr)).Nodup) DDict.blocks_eq).mpr
      (hx.blocks_nodup hpriv)
  · rw [replacedTables, Multiset.coe_card, List.length_map, List.length_dropLast, hcount]
  · exact Multiset.mem_add.mpr (Or.inr (Multiset.mem_add.mpr (Or.inr hq)))
  · have hfilled : Filled x ws (· = NULL) := fun i hi => ⟨NULL, h2.slot_iff.mp (hnull i hi), rfl⟩
    have hps : x.addr ∉ (↑x.addrs + {x.table} + dataBlock x.ht1.table : Multiset Addr) := fun hmem =>
      (Multiset.mem_add.mp hmem).elim (DDict.notMem_first hn) (hx.second_notMem (DDict.mem_foot.mpr (Or.inl rfl)))
    have hwp := wp_dictRelease_around (E := Never) hok (fun hne => ⟨(hbs hne).1, (hbs hne).2.1⟩) hps
      fun s₁ hfreed h₁ => wp_dictHtRelease_both h₁ hn (h2.congr fun q hq => hfreed.frame q fun hmem => by
        obtain ⟨hne, rfl⟩ := mem_dataBlock hmem
        exact (hbs hne).2.2 hq) hfilled
    exact hwp.mono fun _ s' hfreed => ⟨hfreed, fun q => hx.after hpriv (DDict.blocks_eq ▸ hfreed)⟩
  · exact wp.eq_error (wp_dictRelease_wild hok hn h2 hbs (fun j hj => h2.slot_iff.mp (hnull j hj))
      (h2.slot_iff.mp hslot) hq hi hdead)

theorem dictRelease_after_expansions_once :
    ∃ ht ht1 ns lost, Ending zinit dict₃ 0x1008 NULL id [(9, 90), (5, 50)] (expandRun.countP installs)
      (installedTables (bump 0) expandRun) ht ht1 ns lost :=
  dictRelease_after_expansions (bump 0) plainType 1 NULL id rfl zinit dict₀ dict₃ 0x1008 (Or.inl rfl) dictCreate_dict₀
    [(9, 90), (5, 50)] expandRun run_expand

end After

end Redis
