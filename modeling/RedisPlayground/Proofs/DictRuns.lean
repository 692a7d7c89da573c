import RedisPlayground.Memory.Runs
import RedisPlayground.Proofs.Dicts

/-! Runs of `dictAdd` and `dictExpand` on a dict after its creation. The chains
of the first table are the buckets of the history of `dictAdd` calls. -/

namespace Redis

open CMem

inductive DOp where
  | dictAdd (key val : Addr)
  | dictExpand (size : Word)

def DOp.exec (L : Libc) (T : Addr → Option dictType) (d : Addr) : DOp → M Unit
  | .dictAdd key val => do
    let _ ← Redis.dictAdd L T d key val
    return ()
  | .dictExpand size => do
    let _ ← Redis.dictExpand L d size
    return ()

/-- The pairs added so far, the latest first. -/
abbrev History := List (Addr × Addr)

def DOp.adds (H : History) : DOp → History
  | .dictAdd key val => (key, val) :: H
  | .dictExpand _ => H

def dstep (L : Libc) (T : Addr → Option dictType) (d : Addr) (x : State Globals × History) (op : DOp)
    (x' : State Globals × History) : Prop :=
  op.exec L T d x.1 = .ok ((), x'.1) ∧ x'.2 = op.adds x.2

/-- `n` steps along `next`: each entry with its key and value. -/
def chainLoop : ℕ → Addr → M (List (Addr × Addr × Addr))
  | 0, _ => stop .hang
  | n + 1, p =>
    if p = NULL then return []
    else do
      let key ← getField p dictEntry.key
      let value ← getField p dictEntry.value
      let next ← getField p dictEntry.next
      let rest ← chainLoop n next
      return (p, key, value) :: rest

def chain (p : Addr) : M (List (Addr × Addr × Addr)) := do
  let n ← fuel
  chainLoop n p

/-- The first table of `d` is `ht`, its entries are `ns`, and each slot has the
chain of the entries with its index. -/
structure TableAt (s : State Globals) (d : Addr) (hash : Addr → Word) (ht : dictht)
    (ns : List (Addr × Addr × Addr)) : Prop where
  header : getHt d 0 s = .ok (ht, s)
  index : ∀ key, 0 ≤ (hash key &&& ht.sizemask).toInt ∧
    (hash key &&& ht.sizemask).toInt < ht.size.toInt
  nodup : (ns.map Prod.fst).Nodup
  chains : ∀ i < ht.size.toNat, ∃ p, getField ht.table i s = .ok (p, s) ∧
    chain p s = .ok (ns.filter fun n => (hash n.2.1 &&& ht.sizemask).toNat = i, s)

variable {L : Libc} {T : Addr → Option dictType} {hash : Addr → Word} {s s' s₀ s₁ : State Globals}
  {x : DDict} {p d key val type privdata : Addr} {n : ℕ} {size : Word} {a : Addr}
  {ns : List (Addr × Addr × Addr)} {H : History} {tr : List ((State Globals × History) × DOp)}

theorem dstep_of {op : DOp} (h : op.exec L T d s = .ok ((), s')) :
    dstep L T d (s, H) op (s', op.adds H) := ⟨h, rfl⟩

/-- The invariant: the dict is well-formed, and its entries are those of the history. -/
structure Tabled (hash : Addr → Word) (x : DDict) (y : State Globals × History) : Prop where
  ok : x.Ok hash y.1.mem
  nodup : x.foot.Nodup
  history : x.entries.map Prod.snd = y.2

theorem chainLoop_eq (h : Linked (EntryAt s.mem) a ns NULL) (hn : ns.length < n) :
    chainLoop n (first ns NULL) s = .ok (ns, s) := by
  induction ns generalizing a n with
  | nil =>
    obtain ⟨n, rfl⟩ := Nat.exists_eq_succ_of_ne_zero (Nat.ne_of_gt hn)
    rw [chainLoop, first_nil, if_pos rfl]
    rfl
  | cons c ns ih =>
    obtain ⟨n, rfl⟩ := Nat.exists_eq_succ_of_ne_zero (Nat.ne_of_gt (Nat.zero_lt_of_lt hn))
    obtain ⟨p, key, val⟩ := c
    have hp : Holds s.mem p (words [key, val, first ns NULL]) := h.1
    refine wp.eq_ok ?_
    rw [chainLoop, first_cons, if_neg hp.ne_null, wp_bind, wp_getField hp rfl, wp_bind,
      wp_getField hp rfl, wp_bind, wp_getField hp rfl, wp_bind]
    exact wp.of_eq (ih h.2 (Nat.lt_of_succ_lt_succ hn)) (wp_pure.mpr ⟨rfl, rfl⟩)

theorem DDict.Ok.length_lt (h : x.Ok hash s.mem) (hn : x.foot.Nodup) :
    x.entries.length < s.mem.keys.card := by
  have hle := length_le_card (Multiset.coe_nodup.mp hn) fun p hp =>
    (h.live (Multiset.mem_coe.mpr hp)).elim fun _ hbs => hbs.live
  simp only [List.length_cons, addrs, List.length_map] at hle
  omega

theorem DDict.Ok.tableAt (h : x.Ok hash s.mem) (hn : x.foot.Nodup) : TableAt s x.addr hash
    ⟨x.table, DICT_HT_INITIAL_SIZE, DICT_HT_INITIAL_SIZE - 1, 0⟩ x.entries where
  header := wp.eq_ok ((wp_getHt h.header).mpr ⟨rfl, rfl⟩)
  index key := by
    have hlt : (hash key &&& (DICT_HT_INITIAL_SIZE - 1)).toNat < 4 := ix_lt (v := (key, NULL))
    change 0 ≤ (hash key &&& (DICT_HT_INITIAL_SIZE - 1)).toInt ∧
      (hash key &&& (DICT_HT_INITIAL_SIZE - 1)).toInt < 4
    rw [BitVec.toInt_eq_toNat_of_lt (by omega)]
    exact ⟨Int.natCast_nonneg _, by exact_mod_cast hlt⟩
  nodup := (DDict.foot_nodup.mp hn).2.2
  chains i hi := by
    refine ⟨_, getField_ok h.slots (slots_get hi), ?_⟩
    have hlt : (bucket (ix hash) x.entries i).length < s.mem.keys.card :=
      Nat.lt_of_le_of_lt bucket_sublist.length_le (h.length_lt hn)
    exact chainLoop_eq (h.chains i) hlt

theorem Tabled.init (h : dictCreate L type privdata s₀ = .ok (d, s₁)) (hash : Addr → Word) :
    ∃ table w, Tabled hash (DDict.new d type privdata table w) (s₁, []) := by
  obtain ⟨table, w, hok, hu⟩ := wp_dictCreate.of_ok h
  exact ⟨table, w, hok hash, hu.nodup, rfl⟩

/-- A block that is installed as the second table is new to the dict. -/
theorem DDict.Ok.expand {m m' : Mem} {table n w : Word} {ws : List Word} (h : x.Ok hash m)
    (hn : x.foot.Nodup) (hnew : block m table = none)
    (hc : Cells m m' [(table, ws), (x.addr, (x.expand table n w).header)]) :
    table ∉ x.foot ∧ Updates m m' x.foot (table ::ₘ x.foot) ∧ (x.expand table n w).Ok hash m' := by
  have htable : table ∉ x.foot := fun hmem => (h.live hmem).elim fun _ hbs => hbs.live hnew
  obtain ⟨⟨hdt, hd⟩, -⟩ := DDict.foot_nodup.mp hn
  have hother : ∀ q ∈ x.foot, q ≠ x.addr → q ∉ [(table, ws), (x.addr, (x.expand table n w).header)].map Prod.fst := by
    intro q hq hqd hmem
    rcases List.mem_cons.mp hmem with rfl | hmem
    · exact htable hq
    · exact hqd (List.mem_singleton.mp hmem)
  refine ⟨htable, ?_, hc.get_holds 1 rfl, hc.other (hother _ ?_ hdt.symm) h.slots, ?_⟩
  · refine hc.updates (Multiset.nodup_cons.mpr ⟨htable, hn⟩) (fun q => Multiset.mem_cons_of_mem) ?_ ?_
    · simp [DDict.mem_foot]
    · intro q hq hq'
      rwa [(Multiset.mem_cons.mp hq).resolve_right hq']
  · exact DDict.mem_foot.mpr (Or.inr (Or.inl rfl))
  · refine h.chains.mono fun q hq _ _ _ hcell => hc.other (hother q ?_ ?_) hcell
    · exact DDict.mem_foot.mpr (Or.inr (Or.inr hq))
    · exact ne_of_mem_of_not_mem hq hd

/-- `dictExpand` keeps the first table: it returns, or installs a second one. -/
theorem wp_dictExpand_keeps (h : x.Ok hash s.mem) (hn : x.foot.Nodup) :
    wp Safe (dictExpand L x.addr size) (fun _ s' => ∃ ht1 w,
      DDict.Ok hash s'.mem { x with ht1 := ht1, rehash := w }) s := by
  refine wp_dictExpand (fun _ _ _ => rfl) h (fun _ => ⟨x.ht1, x.rehash, h⟩) ?_
  intro n table raw ws w s' _ _ _ _ _ hnew hc
  exact ⟨_, w, (h.expand hn hnew hc).2.2⟩

theorem tabled_add (hT : T x.type = some ⟨some hash⟩) (h : Tabled hash x (s, H)) :
    wp Safe ((DOp.dictAdd key val).exec L T x.addr) (fun _ s' => ∃ p,
      Tabled hash (x.add p key val) (s', (key, val) :: H)) s := by
  rw [DOp.exec, wp_bind]
  refine (wp_dictAdd (E := Safe) rfl (Or.inl hT) h.ok h.nodup).mono fun r s' hpost => wp_pure.mpr ?_
  obtain ⟨-, p, -, hu, hok⟩ := hpost
  exact ⟨p, hok, hu.nodup, congrArg _ h.history⟩

theorem tabled_step {op : DOp} (hT : T x.type = some ⟨some hash⟩) (h : Tabled hash x (s, H)) :
    wp Safe (op.exec L T x.addr) (fun _ s' => ∃ y : DDict, y.addr = x.addr ∧ y.type = x.type ∧
      Tabled hash y (s', op.adds H)) s := by
  cases op with
  | dictAdd key val =>
    exact (tabled_add hT h).mono fun _ s' ⟨p, hp⟩ => ⟨x.add p key val, rfl, rfl, hp⟩
  | dictExpand size =>
    rw [DOp.exec, wp_bind]
    refine (wp_dictExpand_keeps h.ok h.nodup).mono fun r s' hpost => wp_pure.mpr ?_
    obtain ⟨ht1, w, hok⟩ := hpost
    exact ⟨{ x with ht1 := ht1, rehash := w }, rfl, rfl, hok, h.nodup, h.history⟩

theorem Tabled.run (hT : T type = some ⟨some hash⟩) (hnew : dictCreate L type privdata s₀ = .ok (d, s₁))
    (h : Run (dstep L T d) (s₁, []) tr (s, H)) :
    ∃ x : DDict, x.addr = d ∧ x.type = type ∧ Tabled hash x (s, H) := by
  obtain ⟨table, w, hI⟩ := Tabled.init hnew hash
  refine h.invariant (P := fun _ y => ∃ x : DDict, x.addr = d ∧ x.type = type ∧ Tabled hash x y)
    ⟨_, rfl, rfl, hI⟩ ?_
  rintro tr ⟨s, H⟩ op ⟨s', H'⟩ ⟨x, rfl, rfl, hx⟩ ⟨hok, rfl⟩
  obtain ⟨y, hd, htype, hy⟩ := (tabled_step hT hx).of_ok hok
  exact ⟨y, hd, htype, hy⟩

/-- In every run the chains of the first table are the buckets of the history,
whatever the hash function. An addition puts its entry at the front of its chain,
an expansion changes none. -/
theorem dict_chains (L : Libc) (T : Addr → Option dictType) (type privdata : Addr)
    (hash : Addr → Word) (hT : T type = some ⟨some hash⟩) (s₀ s₁ s : State Globals) (d : Addr)
    (hnew : dictCreate L type privdata s₀ = .ok (d, s₁)) (H : History)
    (tr : List ((State Globals × History) × DOp)) (h : Run (dstep L T d) (s₁, []) tr (s, H)) :
    ∃ ht ns, ns.map Prod.snd = H ∧ TableAt s d hash ht ns ∧
      (∀ key val, wp Safe (dictAdd L T d key val)
        (fun _ s' => ∃ p, TableAt s' d hash ht ((p, key, val) :: ns)) s) ∧
      ∀ size, wp Safe (dictExpand L d size) (fun _ s' => TableAt s' d hash ht ns) s := by
  obtain ⟨x, rfl, rfl, hI⟩ := Tabled.run hT hnew h
  refine ⟨_, x.entries, hI.history, hI.ok.tableAt hI.nodup, fun key val => ?_, fun size => ?_⟩
  · refine (wp_dictAdd (E := Safe) rfl (Or.inl hT) hI.ok hI.nodup).mono fun r s' hpost => ?_
    obtain ⟨-, p, -, hu, hok⟩ := hpost
    exact ⟨p, hok.tableAt hu.nodup⟩
  · refine (wp_dictExpand_keeps hI.ok hI.nodup).mono fun r s' hpost => ?_
    obtain ⟨ht1, w, hok⟩ := hpost
    exact hok.tableAt hI.nodup

/-- A type at address 1 that hashes a key to its address. -/
def plainType (a : Addr) : Option dictType := if a = 1 then some ⟨some id⟩ else none

/-- Two keys with the same index are added, and the dict is expanded. -/
def dict₀ : State Globals := after (dictCreate (bump 0) 1 NULL) zinit
def dict₁ : State Globals := after (DOp.exec (bump 0) plainType 0x1008 (.dictAdd 5 50)) dict₀
def dict₂ : State Globals := after (DOp.exec (bump 0) plainType 0x1008 (.dictAdd 9 90)) dict₁
def dict₃ : State Globals := after (DOp.exec (bump 0) plainType 0x1008 (.dictExpand 7)) dict₂

def addRun : List ((State Globals × History) × DOp) :=
  [((dict₀, []), .dictAdd 5 50), ((dict₁, [(5, 50)]), .dictAdd 9 90)]

def expandRun : List ((State Globals × History) × DOp) :=
  addRun ++ [((dict₂, [(9, 90), (5, 50)]), .dictExpand 7)]

theorem dictCreate_dict₀ : dictCreate (bump 0) 1 NULL zinit = .ok (0x1008, dict₀) :=
  ok_after (by decide +kernel)

theorem run_add : Run (dstep (bump 0) plainType 0x1008) (dict₀, []) addRun
    (dict₂, [(9, 90), (5, 50)]) := by
  have h₁ : DOp.exec (bump 0) plainType 0x1008 (.dictAdd 5 50) dict₀ = .ok ((), dict₁) :=
    ok_after (by decide +kernel)
  have h₂ : DOp.exec (bump 0) plainType 0x1008 (.dictAdd 9 90) dict₁ = .ok ((), dict₂) :=
    ok_after (by decide +kernel)
  exact (Run.nil.snoc (dstep_of h₁)).snoc (dstep_of h₂)

theorem run_expand : Run (dstep (bump 0) plainType 0x1008) (dict₀, []) expandRun
    (dict₃, [(9, 90), (5, 50)]) := by
  have h₃ : DOp.exec (bump 0) plainType 0x1008 (.dictExpand 7) dict₂ = .ok ((), dict₃) :=
    ok_after (by decide +kernel)
  exact run_add.snoc (dstep_of h₃)

theorem dict_chains_pair : ∃ ht ns, ns.map Prod.snd = [(9, 90), (5, 50)] ∧
    TableAt dict₃ 0x1008 id ht ns ∧
    (∀ key val, wp Safe (dictAdd (bump 0) plainType 0x1008 key val)
      (fun _ s' => ∃ p, TableAt s' 0x1008 id ht ((p, key, val) :: ns)) dict₃) ∧
    ∀ size, wp Safe (dictExpand (bump 0) 0x1008 size) (fun _ s' => TableAt s' 0x1008 id ht ns) dict₃ :=
  dict_chains (bump 0) plainType 1 NULL id rfl zinit dict₀ dict₃ 0x1008 dictCreate_dict₀
    [(9, 90), (5, 50)] expandRun run_expand

end Redis
