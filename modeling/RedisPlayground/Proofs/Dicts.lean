import RedisPlayground.Memory.Buckets
import RedisPlayground.Proofs.Cells
import RedisPlayground.Proofs.Powers

/-! Dicts as objects of the heap. A `DDict` is a dict after its creation: the first
table has the initial size, and its chains are the buckets of the entries added so
far; of the second table only the header counts. -/

namespace Redis

open CMem

structure DDict where
  addr : Addr
  type : Addr
  privdata : Addr
  table : Addr
  ht1 : dictht
  rehash : Word
  entries : List (Addr × Addr × Addr)

/-- The index of a key and its value in the first table. -/
def ix (hash : Addr → Word) (v : Addr × Addr) : ℕ := (hash v.1 &&& (DICT_HT_INITIAL_SIZE - 1)).toNat

namespace DDict

def addrs (x : DDict) : List Addr := x.entries.map Prod.fst

def foot (x : DDict) : Multiset Addr := ↑(x.addr :: x.table :: x.addrs)

def header (x : DDict) : List Word :=
  [x.type, x.privdata, x.table, DICT_HT_INITIAL_SIZE, DICT_HT_INITIAL_SIZE - 1, 0,
    x.ht1.table, x.ht1.size, x.ht1.sizemask, x.ht1.used, x.rehash]

def slots (hash : Addr → Word) (x : DDict) : List Word :=
  (List.range 4).map fun i => first (bucket (ix hash) x.entries i) NULL

def add (x : DDict) (p key val : Addr) : DDict := { x with entries := (p, key, val) :: x.entries }

end DDict

def EntryAt (m : Mem) (_a p b : Addr) (v : Addr × Addr) : Prop := Holds m p (words [v.1, v.2, b])

structure DDict.Ok (hash : Addr → Word) (m : Mem) (x : DDict) : Prop where
  header : Holds m x.addr (words x.header)
  slots : Holds m x.table (words (x.slots hash))
  chains : Chained (EntryAt m) (ix hash) NULL x.entries NULL

variable {L : Libc} {T : Addr → Option dictType} {hash : Addr → Word} {m m' : Mem}
  {s : State Globals} {x : DDict} {p key val : Addr} {i : ℕ} {size : Word} {v : Addr × Addr}
  {E : Stop → Prop}

theorem ix_lt : ix hash v < 4 := by
  have hle := Nat.and_le_right (n := (hash v.1).toNat) (m := (DICT_HT_INITIAL_SIZE - 1).toNat)
  rw [ix, BitVec.toNat_and]
  exact Nat.lt_of_le_of_lt hle (by decide)

theorem slots_get (hi : i < 4) :
    (x.slots hash)[i]? = some (first (bucket (ix hash) x.entries i) NULL) := by
  rw [DDict.slots, List.getElem?_map, List.getElem?_range hi, Option.map_some]

/-- A new entry changes the slot of its chain. -/
theorem slots_add : (x.add p key val).slots hash = (x.slots hash).set (ix hash (key, val)) p := by
  refine List.ext_getElem? fun i => ?_
  rw [List.getElem?_set]
  by_cases hi : i < 4
  · rw [slots_get hi, slots_get hi]
    by_cases heq : ix hash (key, val) = i
    · subst heq
      rw [if_pos rfl, if_pos (by simp [DDict.slots, ix_lt]), DDict.add, bucket_cons_self, first_cons]
    · rw [if_neg heq, DDict.add, bucket_cons_ne (Ne.symm heq)]
  · have hlen : ∀ y : DDict, (y.slots hash)[i]? = none := fun y =>
      List.getElem?_eq_none (by simp [DDict.slots]; omega)
    have hne : ix hash (key, val) ≠ i := fun heq => hi (heq ▸ ix_lt)
    rw [hlen, hlen, if_neg hne]

theorem DDict.mem_foot : p ∈ x.foot ↔ p = x.addr ∨ p = x.table ∨ p ∈ x.addrs := by
  rw [foot, Multiset.mem_coe, List.mem_cons, List.mem_cons]

theorem foot_add : (x.add p key val).foot = p ::ₘ x.foot := by
  rw [DDict.foot, DDict.foot, ← Multiset.cons_coe, ← Multiset.cons_coe, ← Multiset.cons_coe,
    ← Multiset.cons_coe, DDict.add, DDict.addrs, List.map_cons, ← Multiset.cons_coe]
  rw [Multiset.cons_swap x.table, Multiset.cons_swap x.addr]
  rfl

theorem DDict.Ok.live (h : x.Ok hash m) (hp : p ∈ x.foot) : ∃ bs, Holds m p bs := by
  rcases DDict.mem_foot.mp hp with rfl | rfl | hp
  · exact ⟨_, h.header⟩
  · exact ⟨_, h.slots⟩
  · obtain ⟨_, _, _, hc⟩ := h.chains.node hp
    exact ⟨_, hc⟩

theorem DDict.Ok.congr (h : x.Ok hash m) (hm : ∀ p ∈ x.foot, block m' p = block m p) : x.Ok hash m' where
  header := h.header.congr (hm _ (mem_foot.mpr (Or.inl rfl)))
  slots := h.slots.congr (hm _ (mem_foot.mpr (Or.inr (Or.inl rfl))))
  chains := h.chains.mono fun q hq _ _ _ hc =>
    Holds.congr hc (hm q (mem_foot.mpr (Or.inr (Or.inr hq))))

theorem DDict.Ok.ne_null (h : x.Ok hash m) : x.addr ≠ NULL ∧ x.table ≠ NULL :=
  ⟨h.header.ne_null, h.slots.ne_null⟩

theorem DDict.foot_nodup : x.foot.Nodup ↔
    (x.addr ≠ x.table ∧ x.addr ∉ x.addrs) ∧ x.table ∉ x.addrs ∧ x.addrs.Nodup := by
  rw [foot, Multiset.coe_nodup, List.nodup_cons, List.mem_cons, not_or, List.nodup_cons]

theorem wp_getHt {Q : dictht → State Globals → Prop} (h : Holds s.mem x.addr (words x.header)) :
    wp E (getHt x.addr 0) Q s ↔ Q ⟨x.table, DICT_HT_INITIAL_SIZE, DICT_HT_INITIAL_SIZE - 1, 0⟩ s := by
  rw [getHt, wp_bind, wp_getField h rfl, wp_bind, wp_getField h rfl, wp_bind, wp_getField h rfl,
    wp_bind, wp_getField h rfl, wp_pure]

theorem wp_dictHashKey {Q : Word → State Globals → Prop} (hT : T x.type = some ⟨some hash⟩)
    (h : Holds s.mem x.addr (words x.header)) :
    wp E (dictHashKey T x.addr key) Q s ↔ Q (hash key) s := by
  rw [dictHashKey, wp_bind, wp_getField h rfl, hT, wp_pure]

/-- As far as a reader can tell who accepts the stops `E`, the hash function of a
type is `hash`. -/
def Hashes (E : Stop → Prop) (T : Addr → Option dictType) (type : Addr) (hash : Addr → Word) : Prop :=
  T type = some ⟨some hash⟩ ∨ E .ub ∧ ∀ f, T type = some ⟨some f⟩ → f = hash

theorem wp_dictHashKey_of {Q : Word → State Globals → Prop} (hT : Hashes E T x.type hash)
    (h : Holds s.mem x.addr (words x.header)) (hQ : Q (hash key) s) :
    wp E (dictHashKey T x.addr key) Q s := by
  rcases hT with hT | ⟨hE, hT⟩
  · exact (wp_dictHashKey hT h).mpr hQ
  · rw [dictHashKey, wp_bind, wp_getField h rfl]
    split
    · next f hf => exact wp_pure.mpr (hT f hf ▸ hQ)
    · exact hE

/-- The entry that is added is new, and its slot points to it. -/
theorem wp_dictAdd (hE : E .abort) (hT : Hashes E T x.type hash) (h : x.Ok hash s.mem)
    (hn : x.foot.Nodup) :
    wp E (dictAdd L T x.addr key val) (fun r s' => r = x.addr ∧ ∃ p, block s.mem p = none ∧
      Updates s.mem s'.mem x.foot (x.add p key val).foot ∧ (x.add p key val).Ok hash s'.mem) s := by
  obtain ⟨⟨hdt, hd⟩, ht, -⟩ := DDict.foot_nodup.mp hn
  have hc₀ : Cells s.mem s.mem [(x.table, x.slots hash), (x.addr, x.header)] :=
    (Cells.one h.header).add (by simpa using hdt.symm) h.slots
  have hslot : (x.slots hash)[ix hash (key, val)]? = some _ := slots_get ix_lt
  rw [dictAdd, if_neg h.ne_null.1, wp_bind, wp_getHt h.header, wp_bind, dictEntryCreate, wp_bind,
    _dictEntryCreate, wp_bind]
  refine hc₀.zmalloc (n := 3) hE rfl (by norm_num) fun p ws m g t hlen hnew hp hc => ?_
  match ws, hlen with
  | [_, _, _], _ =>
    refine wp_bind.mpr (hc.set 0 rfl rfl fun m hc => ?_)
    refine wp_bind.mpr (hc.set 0 rfl rfl fun m hc => ?_)
    refine wp_bind.mpr (hc.set 0 rfl rfl fun m hc => wp_pure.mpr ?_)
    refine wp_bind.mpr (hc.set 0 rfl rfl fun m hc => ?_)
    refine wp_bind.mpr (hc.set 0 rfl rfl fun m hc => wp_pure.mpr ?_)
    have hc : Cells s.mem m [(p, [key, val, NULL]), (x.table, x.slots hash), (x.addr, x.header)] := hc
    refine wp_bind.mpr (wp_dictHashKey_of hT (hc.get_holds 2 rfl) (wp_bind.mpr ?_))
    refine hc.get 1 rfl hslot ?_
    refine wp_bind.mpr (hc.set 0 rfl rfl fun m hc => ?_)
    refine wp_bind.mpr (hc.set 1 rfl hslot fun m hc => wp_pure.mpr ⟨rfl, p, hnew, ?_, ?_⟩)
    · have hc : Cells s.mem m [_, (x.table, _), (x.addr, x.header)] := hc
      have hpn : p ∉ x.foot := fun hmem => (h.live hmem).elim fun _ hbs => hbs.live hnew
      rw [foot_add]
      refine hc.updates (Multiset.nodup_cons.mpr ⟨hpn, hn⟩) (fun q => Multiset.mem_cons_of_mem) ?_
        fun q hq hq' => ?_
      · simp only [List.map_cons, List.map_nil, List.mem_cons, List.not_mem_nil, or_false,
          Multiset.mem_cons, DDict.mem_foot]
        tauto
      · obtain rfl := (Multiset.mem_cons.mp hq).resolve_right hq'
        exact hnew
    · refine ⟨hc.get_holds 2 rfl, slots_add ▸ hc.get_holds 1 rfl, Chained.cons id ?_ (hc.get_holds 0 rfl)⟩
      refine h.chains.mono fun q hq _ _ _ hcell => hc.other ?_ hcell
      have hqp : q ≠ p := ne_of_live hnew ⟨_, hcell⟩
      simp [hqp, ne_of_mem_of_not_mem hq ht, ne_of_mem_of_not_mem hq hd]

theorem dictNextPower_ne_zero {n : Word} (h : _dictNextPower size s = .ok (n, s)) : n ≠ 0 := by
  obtain ⟨k, -, hk, heq⟩ := dictNextPower_eq size
  obtain rfl : BitVec.ofNat 64 (2 ^ k) = n := (Prod.mk.inj (Except.ok.inj ((heq s).symm.trans h))).1
  intro h0
  have hpow := congrArg BitVec.toNat h0
  rw [BitVec.toNat_ofNat, Nat.mod_eq_of_lt (Nat.pow_lt_pow_right (by decide) (by omega))] at hpow
  exact absurd hpow (by positivity)

theorem table_bytes {k : ℕ} (hk' : k ≤ 63) :
    ∃ n, (BitVec.ofNat 64 (2 ^ k) * 8).toNat = 8 * n ∧ 8 * n ≤ 2 ^ 63 := by
  rw [pow_bytes hk']
  split_ifs with hle
  · have hpow : 2 ^ k ≤ 2 ^ 60 := Nat.pow_le_pow_right Nat.two_pos hle
    exact ⟨_, rfl, by omega⟩
  · exact ⟨0, rfl, by norm_num⟩

/-- A second table is installed. -/
def DDict.expand (x : DDict) (table realsize rehash : Word) : DDict :=
  { x with ht1 := ⟨table, realsize, realsize - 1, 0⟩, rehash }

/-- Nothing, or a second table whose slots are what the allocator left there. -/
theorem wp_dictExpand {Q : BitVec 32 → State Globals → Prop}
    (hE : ∀ n, _dictNextPower size s = .ok (n, s) →
      L.malloc s.trace s.mem (n * 8 + PREFIX_SIZE) = none → E .abort) (h : x.Ok hash s.mem)
    (herr : _dictNextPower size s = .ok (DICT_HT_INITIAL_SIZE, s) → Q DICT_ERR s)
    (hok : ∀ n table raw ws rehash s', _dictNextPower size s = .ok (n, s) → n ≠ DICT_HT_INITIAL_SIZE →
      L.malloc s.trace s.mem (n * 8 + PREFIX_SIZE) = some (table - PREFIX_SIZE, raw) →
      raw.drop 8 = words ws → ws.length = (n * 8).toNat / 8 → block s.mem table = none →
      Cells s.mem s'.mem [(table, ws), (x.addr, (x.expand table n rehash).header)] → Q DICT_OK s') :
    wp E (dictExpand L x.addr size) Q s := by
  obtain ⟨k, hk, hk', hpow⟩ := dictNextPower_eq size
  have hc₀ : Cells s.mem s.mem [(x.addr, x.header)] := Cells.one h.header
  rw [dictExpand, wp_bind]
  refine wp.of_eq (hpow s) ?_
  rw [wp_bind]
  refine hc₀.get 0 rfl rfl (wp_ite.mpr ⟨fun heq => ?_, fun hne => ?_⟩)
  · rw [← heq] at herr
    exact wp_pure.mpr (herr (hpow s))
  · obtain ⟨n, hn, hn'⟩ := table_bytes hk'
    rw [wp_bind]
    refine wp_zmalloc_refuse (hE _ (hpow s)) (by omega) fun t raw hraw hlen hfresh => ?_
    obtain ⟨ws, hws, hwords⟩ := exists_words (k := n)
      (show (raw.drop 8).length = 8 * n by rw [List.length_drop]; omega)
    obtain ⟨-, hc⟩ := hc₀.put_new hfresh (show 8 * ws.length + 8 < _ by omega)
    rw [wp_bind, hwords]
    refine hc.get 1 rfl rfl (wp_ite.mpr ⟨fun hnull => absurd hnull h.ne_null.2, fun _ => ?_⟩)
    rw [setHt, wp_bind, wp_bind]
    refine hc.set 1 rfl rfl fun m hc => wp_bind.mpr (hc.set 1 rfl rfl fun m hc => wp_bind.mpr ?_)
    refine hc.set 1 rfl rfl fun m hc => (hc.set 1 rfl rfl fun m hc => wp_bind.mpr ?_)
    refine hc.setInt 1 rfl rfl fun m w _ hc => wp_pure.mpr ?_
    exact hok _ t raw ws w _ (hpow s) hne hraw hwords (by omega) hfresh.block hc

/-- A dict as it comes from its creation. -/
def DDict.new (d type privdata table rehash : Addr) : DDict :=
  ⟨d, type, privdata, table, ⟨NULL, 0, 0, 0⟩, rehash, []⟩

theorem wp_dictReset {Q : Unit → State Globals → Prop} {d : Addr} {ws : List Word} {m₀ : Mem}
    (h : Cells m₀ s.mem [(d, ws)]) (hlen : ws.length = 11)
    (hQ : ∀ m w, Cells m₀ m [(d, [NULL, NULL, NULL, 0, 0, 0, NULL, 0, 0, 0, w])] →
      Q () { s with mem := m }) : wp E (_dictReset d) Q s := by
  match ws, hlen with
  | [_, _, _, _, _, _, _, _, _, _, _], _ =>
    rw [_dictReset]
    refine wp_bind.mpr (h.set 0 rfl rfl fun m h => wp_bind.mpr (h.set 0 rfl rfl fun m h => ?_))
    refine wp_bind.mpr (h.setInt 0 rfl rfl fun m w _ h => ?_)
    refine wp_bind.mpr (wp_bind.mpr (h.set 0 rfl rfl fun m h => wp_bind.mpr ?_))
    refine h.set 0 rfl rfl fun m h => wp_bind.mpr (h.set 0 rfl rfl fun m h => ?_)
    refine h.set 0 rfl rfl fun m h => wp_bind.mpr (h.set 0 rfl rfl fun m h => wp_bind.mpr ?_)
    refine h.set 0 rfl rfl fun m h => wp_bind.mpr (h.set 0 rfl rfl fun m h => ?_)
    refine h.set 0 rfl rfl fun m h => ?_
    exact hQ m w h

theorem wp_dictHtInitLoop {Q : Unit → State Globals → Prop} {m₀ : Mem} {table : Addr} {k n : ℕ}
    {cs : List (Addr × List Word)} {ws : List Word} (h : Cells m₀ s.mem cs)
    (hk : cs[k]? = some (table, ws)) (hn : n ≤ ws.length)
    (hQ : ∀ m, Cells m₀ m (cs.set k (table, List.replicate n NULL ++ ws.drop n)) →
      Q () { s with mem := m }) : wp E (_dictHtInitLoop table n) Q s := by
  obtain ⟨hlt, hget⟩ := List.getElem?_eq_some_iff.mp hk
  induction n generalizing Q with
  | zero =>
    refine wp_pure.mpr (hQ s.mem ?_)
    rwa [List.replicate_zero, List.nil_append, List.drop_zero, ← hget, List.set_getElem_self]
  | succ n ih =>
    have hslot : (List.replicate n NULL ++ ws.drop n)[n]? = some ws[n] := by
      rw [List.getElem?_append_right (by simp), List.length_replicate, Nat.sub_self,
        List.getElem?_drop, Nat.add_zero, List.getElem?_eq_getElem hn]
    have hset : (List.replicate n NULL ++ ws.drop n).set n NULL =
        List.replicate (n + 1) NULL ++ ws.drop (n + 1) := by
      rw [List.set_append_right _ _ (by simp), List.length_replicate, Nat.sub_self,
        List.drop_eq_getElem_cons hn, List.set_cons_zero, List.replicate_succ', List.append_assoc]
      rfl
    rw [_dictHtInitLoop, wp_bind]
    refine ih (by omega) fun m h => h.set k (List.getElem?_set_self hlt) hslot fun m h => hQ m ?_
    rwa [List.set_set, hset] at h

/-- The first table of a new dict. -/
theorem wp_dictHtInit {Q : BitVec 32 → State Globals → Prop} {d type privdata w : Addr} {m₀ : Mem}
    (hE : E .abort)
    (h : Cells m₀ s.mem [(d, [type, privdata, NULL, 0, 0, 0, NULL, 0, 0, 0, w])])
    (hQ : ∀ table m g t, block s.mem table = none →
      Cells m₀ m [(table, [NULL, NULL, NULL, NULL]), (d, (DDict.new d type privdata table w).header)] →
      Q DICT_OK ⟨m, g, t⟩) : wp E (_dictHtInit L d) Q s := by
  have hpow : _dictNextPower DICT_HT_INITIAL_SIZE s = .ok (DICT_HT_INITIAL_SIZE, s) := rfl
  rw [_dictHtInit, wp_bind, _dictExpandIfNeeded, wp_bind]
  refine h.get 0 rfl rfl (wp_bind.mpr (h.get 0 rfl rfl ?_))
  rw [if_pos ⟨rfl, rfl⟩, dictExpand, wp_bind]
  refine wp.of_eq hpow (wp_bind.mpr (h.get 0 rfl rfl ?_))
  rw [if_neg (by decide), wp_bind]
  refine h.zmalloc (n := 4) hE rfl (by norm_num) fun table ws m g t hlen hnew _ h => ?_
  match ws, hlen with
  | [_, _, _, _], _ =>
    refine wp_bind.mpr (h.get 1 rfl rfl ?_)
    rw [if_pos rfl, setHt, wp_bind, wp_bind]
    refine h.set 1 rfl rfl fun m h => wp_bind.mpr (h.set 1 rfl rfl fun m h => wp_bind.mpr ?_)
    refine h.set 1 rfl rfl fun m h => h.set 1 rfl rfl fun m h => wp_pure.mpr ?_
    rw [if_neg (by decide), wp_bind, _dictHtInit_ht, wp_bind]
    refine h.get 1 rfl rfl (wp_bind.mpr (h.get 1 rfl rfl (wp_bind.mpr ?_)))
    refine wp_dictHtInitLoop (k := 0) h rfl (le_refl 4) fun m h => wp_pure.mpr ?_
    rw [wp_bind, _dictHtInit_ht, wp_bind]
    refine h.get 1 rfl rfl (wp_bind.mpr (h.get 1 rfl rfl (wp_bind.mpr (wp_pure.mpr ?_))))
    exact hQ table m _ _ hnew h

theorem wp_dictCreate {type privdata : Addr} : wp Safe (dictCreate L type privdata)
    (fun d s' => ∃ table w, (∀ hash, (DDict.new d type privdata table w).Ok hash s'.mem) ∧
      Updates s.mem s'.mem 0 (DDict.new d type privdata table w).foot) s := by
  have hc₀ : Cells s.mem s.mem [] := Cells.nil
  rw [dictCreate, wp_bind, _dictAlloc, wp_bind]
  refine hc₀.zmalloc (n := 11) rfl rfl (by norm_num) fun d ws m g t hlen hnew _ h => ?_
  rw [if_neg (h.get_holds 0 rfl).ne_null, wp_bind, wp_pure, wp_pure, wp_bind, _dictInit, wp_bind]
  refine wp_dictReset h hlen fun m w h => wp_bind.mpr (h.set 0 rfl rfl fun m h => wp_bind.mpr ?_)
  refine h.set 0 rfl rfl fun m h => wp_bind.mpr ?_
  refine wp_dictHtInit rfl h fun table m' g t htable h' => wp_pure.mpr (wp_pure.mpr ?_)
  refine ⟨table, w, fun hash => ⟨h'.get_holds 1 rfl, h'.get_holds 0 rfl, chained_nil⟩, ?_⟩
  have htd : table ≠ d := (List.nodup_cons.mp h'.nodup).1 ∘ fun heq => by simp [heq]
  have hold : block s.mem table = none := by
    rw [← h.frame table (by simpa using htd)]
    exact htable
  refine h'.updates ?_ (by simp) ?_ fun q hq _ => ?_
  · simpa [DDict.foot, DDict.new, DDict.addrs] using htd.symm
  · simp [DDict.foot, DDict.new, DDict.addrs, or_comm]
  · rcases DDict.mem_foot.mp hq with rfl | rfl | hq
    · exact hnew
    · exact hold
    · simp [DDict.new, DDict.addrs] at hq

end Redis
