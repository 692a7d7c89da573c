import RedisPlayground.Proofs.DictTables

/-! Which blocks of a dict can be reached from it. `dictExpand` overwrites the
second table without looking whether there is one. -/

namespace Redis

open CMem

/-- What is reached from `d`: the dict, its tables, and the entries in the chains
of the first table. Nothing is ever linked into the second one. -/
def Reachable (s : State Globals) (d q : Addr) : Prop :=
  q ≠ NULL ∧ (q = d ∨ (∃ j < 2, ∃ ht, getHt d j s = .ok (ht, s) ∧ q = ht.table) ∨
    ∃ ht i p ns, getHt d 0 s = .ok (ht, s) ∧ i < ht.size.toNat ∧
      getField ht.table i s = .ok (p, s) ∧ chain p s = .ok (ns, s) ∧ q ∈ ns.map Prod.fst)

/-- Every block that was allocated since `m₀` is reached, and a refused expansion
leaves everything as it is. -/
structure Whole (L : Libc) (m₀ : Mem) (d : Addr) (s : State Globals) : Prop where
  reached : ∀ q, block m₀ q = none → block s.mem q ≠ none → Reachable s d q
  refused : ∀ size s', dictExpand L d size s = .ok (DICT_ERR, s') → s' = s

/-- An expansion is refused, or there is no second table yet. -/
def FirstTable (d : Addr) (s : State Globals) : DOp → Prop
  | .dictAdd _ _ => True
  | .dictExpand size => _dictNextPower size s = .ok (DICT_HT_INITIAL_SIZE, s) ∨
      getField d (dictht.tableAt 1) s = .ok (NULL, s)

/-- All blocks of the dict are new since `m₀`, and what was there then still is. -/
structure Grown (m₀ m : Mem) (x : DDict) : Prop where
  old : ∀ q, block m₀ q ≠ none → block m q ≠ none
  foot : ∀ q ∈ x.foot, block m₀ q = none
  table : x.ht1.table ≠ NULL → block m₀ x.ht1.table = none

variable {L : Libc} {T : Addr → Option dictType} {hash : Addr → Word} {s s' s₀ s₁ : State Globals}
  {x : DDict} {p q d key val type privdata table : Addr} {n size w : Word} {ws : List Word}
  {H : History} {y : State Globals × History} {m₀ m m' : Mem} {S S' : Multiset Addr}

theorem reachable_iff (h : Kept hash x ws y) :
    Reachable y.1 x.addr q ↔ q ≠ NULL ∧ (q ∈ x.foot ∨ q = x.ht1.table) := by
  have h0 := getHt_zero h.tabled.ok
  have h1 := getHt_one h.tabled.ok
  have hat := h.tabled.ok.tableAt h.tabled.nodup
  rw [Reachable, DDict.mem_foot]
  refine and_congr_right fun _ => ⟨?_, ?_⟩
  · rintro (rfl | ⟨j, hj, ht, hht, rfl⟩ | ⟨ht, i, p, ns, hht, hi, hp, hns, hq⟩)
    · simp
    · interval_cases j
      · obtain rfl := (Prod.mk.inj (Except.ok.inj (h0.symm.trans hht))).1
        simp
      · obtain rfl := (Prod.mk.inj (Except.ok.inj (h1.symm.trans hht))).1
        simp
    · obtain rfl := (Prod.mk.inj (Except.ok.inj (h0.symm.trans hht))).1
      obtain ⟨p', hp', hns'⟩ := hat.chains i hi
      obtain rfl := (Prod.mk.inj (Except.ok.inj (hp.symm.trans hp'))).1
      obtain rfl := (Prod.mk.inj (Except.ok.inj (hns.symm.trans hns'))).1
      exact Or.inl (Or.inr (Or.inr (List.Sublist.subset (List.filter_sublist.map _) hq)))
  · rintro ((rfl | rfl | hq) | rfl)
    · exact Or.inl rfl
    · exact Or.inr (Or.inl ⟨0, by norm_num, _, h0, rfl⟩)
    · obtain ⟨c, hc, rfl⟩ := List.mem_map.mp hq
      obtain ⟨p, hp, hns⟩ := hat.chains (ix hash c.2) ix_lt
      refine Or.inr (Or.inr ⟨_, _, p, _, h0, ix_lt (v := c.2), hp, hns, ?_⟩)
      refine List.mem_map.mpr ⟨c, List.mem_filter.mpr ⟨hc, ?_⟩, rfl⟩
      rw [decide_eq_true_eq]
      rfl
    · exact Or.inr (Or.inl ⟨1, by norm_num, _, h1, rfl⟩)

theorem dictExpand_refused (h : x.Ok hash s.mem) (hok : dictExpand L x.addr size s = .ok (DICT_ERR, s')) :
    s' = s := by
  have hwp : wp Any (dictExpand L x.addr size) (fun r s' => r = DICT_ERR → s' = s) s := by
    apply wp_dictExpand (fun _ _ _ => trivial) h
    · exact fun _ _ => rfl
    · intro _ _ _ _ _ _ _ _ _ _ _ _ _ herr
      exact absurd herr (by decide)
  exact hwp.of_ok hok rfl

/-- What is reached, as far as the blocks are concerned. -/
theorem whole_iff (h : Kept hash x ws y) : Whole L m₀ x.addr y.1 ↔
    ∀ q, block m₀ q = none → block y.1.mem q ≠ none → q ≠ NULL ∧ (q ∈ x.foot ∨ q = x.ht1.table) := by
  constructor
  · intro hw q hnew hlive
    exact (reachable_iff h).mp (hw.reached q hnew hlive)
  · intro hw
    refine ⟨fun q hnew hlive => (reachable_iff h).mpr (hw q hnew hlive), fun size s' hok => ?_⟩
    exact dictExpand_refused h.tabled.ok hok

theorem Grown.step (hg : Grown m₀ m x) (hu : Updates m m' x.foot S') (hsub : ∀ q ∈ x.foot, q ∈ S')
    (hlive : ∀ q ∈ S', block m' q ≠ none) :
    (∀ q, block m₀ q ≠ none → block m' q ≠ none) ∧ ∀ q ∈ S', block m₀ q = none := by
  constructor
  · intro q hq
    by_cases hmem : q ∈ S'
    · exact hlive q hmem
    · rw [hu.frame q (fun hq => hmem (hsub q hq)) hmem]
      exact hg.old q hq
  · intro q hq
    by_cases hmem : q ∈ x.foot
    · exact hg.foot q hmem
    · by_contra hne
      exact hg.old q hne (hu.fresh q hq hmem)

theorem foot_live (h : x.Ok hash m) : ∀ q ∈ x.foot, block m q ≠ none := by
  intro q hq
  obtain ⟨bs, hbs⟩ := h.live hq
  exact hbs.live

theorem whole_init (h : Kept hash x [] y) (hu : Updates m₀ y.1.mem 0 x.foot)
    (hnull : x.ht1.table = NULL) : Grown m₀ y.1.mem x ∧ Whole L m₀ x.addr y.1 := by
  refine ⟨⟨?_, fun q hq => hu.fresh q hq (Multiset.notMem_zero q), fun hne => absurd hnull hne⟩,
    (whole_iff h).mpr ?_⟩
  · intro q hq
    by_cases hmem : q ∈ x.foot
    · exact absurd (hu.fresh q hmem (Multiset.notMem_zero q)) hq
    · rwa [hu.frame q (Multiset.notMem_zero q) hmem]
  · intro q hnew hlive
    by_cases hmem : q ∈ x.foot
    · obtain ⟨bs, hbs⟩ := h.tabled.ok.live hmem
      exact ⟨hbs.ne_null, Or.inl hmem⟩
    · rw [hu.frame q (Multiset.notMem_zero q) hmem] at hlive
      exact absurd hnew hlive

theorem whole_add (h : Kept hash x ws (s, H)) (hw : Whole L m₀ x.addr s)
    (hu : Updates s.mem s'.mem x.foot (x.add p key val).foot)
    (h' : Kept hash (x.add p key val) ws (s', (key, val) :: H)) (hg : Grown m₀ s.mem x) :
    Grown m₀ s'.mem (x.add p key val) ∧ Whole L m₀ x.addr s' := by
  have hsub : ∀ q ∈ x.foot, q ∈ (x.add p key val).foot := by
    intro q hq
    rw [foot_add]
    exact Multiset.mem_cons_of_mem hq
  obtain ⟨hold, hfoot⟩ := hg.step hu hsub (foot_live h'.tabled.ok)
  refine ⟨⟨hold, hfoot, hg.table⟩, (whole_iff (x := x.add p key val) h').mpr fun q hnew hlive => ?_⟩
  by_cases hmem : q ∈ (x.add p key val).foot
  · obtain ⟨bs, hbs⟩ := h'.tabled.ok.live hmem
    exact ⟨hbs.ne_null, Or.inl hmem⟩
  · change block s'.mem q ≠ none at hlive
    rw [hu.frame q (fun hq => hmem (hsub q hq)) hmem] at hlive
    obtain ⟨hnull, hq⟩ := (whole_iff h).mp hw q hnew hlive
    exact ⟨hnull, hq.imp_left (hsub q)⟩

/-- An expansion that installs a table loses the second table there was. -/
theorem whole_expand {vs : List Word} (h : Kept hash x ws (s, H)) (hw : Whole L m₀ x.addr s)
    (hu : Updates s.mem s'.mem x.foot (table ::ₘ x.foot)) (hvs : Holds s'.mem table (words vs))
    (htable : table ∉ x.foot) (h' : Kept hash (x.expand table n w) vs (s', H)) (hg : Grown m₀ s.mem x) :
    Grown m₀ s'.mem (x.expand table n w) ∧ (Whole L m₀ x.addr s' ↔ x.ht1.table = NULL) := by
  have hlive : ∀ q ∈ table ::ₘ x.foot, block s'.mem q ≠ none := by
    intro q hq
    rcases Multiset.mem_cons.mp hq with rfl | hq
    · exact hvs.live
    · exact foot_live h'.tabled.ok q hq
  obtain ⟨hold, hfoot⟩ := hg.step hu (fun q => Multiset.mem_cons_of_mem) hlive
  refine ⟨⟨hold, fun q hq => hfoot q (Multiset.mem_cons_of_mem hq), fun _ =>
    hfoot table (Multiset.mem_cons_self _ _)⟩, ?_⟩
  constructor
  · intro hw'
    by_contra hne
    obtain ⟨hnull, -⟩ | ⟨hws, hmem, -⟩ := h.second.table
    · exact hne hnull
    · have hnew : block s.mem table = none := hu.fresh table (Multiset.mem_cons_self _ _) htable
      have hkeep : block s'.mem x.ht1.table = block s.mem x.ht1.table := by
        apply hu.frame _ hmem
        rw [Multiset.mem_cons, not_or]
        exact ⟨ne_of_live hnew ⟨_, hws⟩, hmem⟩
      have hreach := (whole_iff (x := x.expand table n w) h').mp hw' x.ht1.table (hg.table hne)
        (hkeep ▸ hws.live)
      rcases hreach.2 with hq | hq
      · exact hmem hq
      · exact ne_of_live hnew ⟨_, hws⟩ hq
  · intro hnull
    refine (whole_iff (x := x.expand table n w) h').mpr fun q hnew hlive => ?_
    by_cases hmem : q ∈ table ::ₘ x.foot
    · rcases Multiset.mem_cons.mp hmem with rfl | hq
      · exact ⟨hvs.ne_null, Or.inr rfl⟩
      · obtain ⟨bs, hbs⟩ := h'.tabled.ok.live hq
        exact ⟨hbs.ne_null, Or.inl hq⟩
    · change block s'.mem q ≠ none at hlive
      rw [hu.frame q (fun hq => hmem (Multiset.mem_cons_of_mem hq)) hmem] at hlive
      obtain ⟨hne, hq⟩ := (whole_iff h).mp hw q hnew hlive
      rcases hq with hq | rfl
      · exact ⟨hne, Or.inl hq⟩
      · exact absurd hnull hne

theorem dstep_whole {y y' : State Globals × History} {op : DOp}
    (hI : ∃ x : DDict, x.addr = d ∧ x.type = type ∧ Grown m₀ y.1.mem x ∧
      ∃ ws, Kept (hashOf T type) x ws y)
    (hP : Whole L m₀ d y.1) (hstep : dstep L T d y op y') :
    (∃ x : DDict, x.addr = d ∧ x.type = type ∧ Grown m₀ y'.1.mem x ∧
      ∃ ws, Kept (hashOf T type) x ws y') ∧ (Whole L m₀ d y'.1 ↔ FirstTable d y.1 op) := by
  obtain ⟨x, rfl, rfl, hg, ws, hx⟩ := hI
  obtain ⟨x', vs, hmoves, hx'⟩ := hx.step hstep
  cases hmoves with
  | @added key val p s' fresh update =>
    obtain ⟨hg', hw⟩ := whole_add hx hP update hx' hg
    exact ⟨⟨x.add p key val, rfl, rfl, hg', ws, hx'⟩, iff_of_true hw trivial⟩
  | refused power => exact ⟨⟨x, rfl, rfl, hg, ws, hx⟩, iff_of_true hP (Or.inl power)⟩
  | @installed size n rehash table raw vs s' power larger got slots update holds apart =>
    obtain ⟨hg', hw⟩ := whole_expand (L := L) hx hP update holds apart hx' hg
    refine ⟨⟨x.expand table n rehash, rfl, rfl, hg', vs, hx'⟩, hw.trans ?_⟩
    have htab : getField x.addr (dictht.tableAt 1) y.1 = .ok (x.ht1.table, y.1) :=
      getField_ok hx.tabled.ok.header rfl
    constructor
    · rintro hnull
      exact Or.inr (hnull ▸ htab)
    · rintro (hsize | hnull)
      · exact absurd (Prod.mk.inj (Except.ok.inj (power.symm.trans hsize))).1 larger
      · exact (Prod.mk.inj (Except.ok.inj (htab.symm.trans hnull))).1

/-- No block is lost all along a run exactly if each expansion is refused or finds
no second table. -/
theorem dict_reaches (L : Libc) (T : Addr → Option dictType) (type privdata : Addr)
    (s₀ s₁ s : State Globals) (d : Addr) (hnew : dictCreate L type privdata s₀ = .ok (d, s₁))
    (H : History) (tr : List ((State Globals × History) × DOp))
    (h : Run (dstep L T d) (s₁, []) tr (s, H)) :
    Always (fun y => Whole L s₀.mem d y.1) tr (s, H) ↔ ∀ y ∈ tr, FirstTable d y.1.1 y.2 := by
  obtain ⟨table, w, hu, hI⟩ := Kept.init hnew (hashOf T type)
  obtain ⟨hg, hP⟩ := whole_init (L := L) (x := DDict.new d type privdata table w) hI hu rfl
  exact h.always_iff ⟨DDict.new d type privdata table w, rfl, rfl, hg, [], hI⟩ hP
    fun _ _ _ hI hP hstep => dstep_whole hI hP hstep

theorem dict_reaches_once : Always (fun y => Whole (bump 0) zinit.mem 0x1008 y.1) expandRun
      (dict₃, [(9, 90), (5, 50)]) ↔
    ∀ y ∈ expandRun, FirstTable 0x1008 y.1.1 y.2 :=
  dict_reaches (bump 0) plainType 1 NULL zinit dict₀ dict₃ 0x1008 dictCreate_dict₀
    [(9, 90), (5, 50)] expandRun run_expand

theorem chain_of_null {ns : List (Addr × Addr × Addr)} (h : chain NULL s = .ok (ns, s')) : ns = [] := by
  have hwp : wp Any (chain NULL) (fun ns _ => ns = []) s := by
    rw [chain, wp_bind]
    apply wp_any; intro n s₁ _
    cases n with
    | zero => trivial
    | succ n =>
      rw [chainLoop, if_pos rfl]
      exact wp_pure.mpr rfl
  exact hwp.of_ok h

/-- Where all chains are empty, only the dict and the tables are reached. -/
theorem Reachable.table_of_null (h : Reachable s d q) {ht0 ht1 : dictht}
    (h0 : result (getHt d 0) s = some ht0) (h1 : result (getHt d 1) s = some ht1)
    (hslots : ∀ i < ht0.size.toNat, result (getField ht0.table i) s = some NULL) :
    q = d ∨ q = ht0.table ∨ q = ht1.table := by
  rcases h.2 with heq | ⟨j, hj, ht, hht, heq⟩ | ⟨ht, i, p, ns, hht, hi, hp, hns, hmem⟩
  · exact Or.inl heq
  · interval_cases j
    · obtain rfl := Option.some.inj (h0.symm.trans (result_of_ok hht))
      exact Or.inr (Or.inl heq)
    · obtain rfl := Option.some.inj (h1.symm.trans (result_of_ok hht))
      exact Or.inr (Or.inr heq)
  · obtain rfl := Option.some.inj (h0.symm.trans (result_of_ok hht))
    obtain rfl := Option.some.inj ((hslots i hi).symm.trans (result_of_ok hp))
    rw [chain_of_null hns] at hmem
    simp at hmem

/-- The dict is expanded twice: the table of the first time is lost. -/
def wide₁ : State Globals := after (DOp.exec (bump 0) plainType 0x1008 (.dictExpand 7)) dict₀
def wide₂ : State Globals := after (DOp.exec (bump 0) plainType 0x1008 (.dictExpand 9)) wide₁

theorem dictExpand_orphans : dictCreate (bump 0) 1 NULL zinit = .ok (0x1008, dict₀) ∧
    Run (dstep (bump 0) plainType 0x1008) (dict₀, [])
      [((dict₀, []), .dictExpand 7), ((wide₁, []), .dictExpand 9)] (wide₂, []) ∧
    ¬ Whole (bump 0) zinit.mem 0x1008 wide₂ := by
  have h₁ : DOp.exec (bump 0) plainType 0x1008 (.dictExpand 7) dict₀ = .ok ((), wide₁) :=
    ok_after (by decide +kernel)
  have h₂ : DOp.exec (bump 0) plainType 0x1008 (.dictExpand 9) wide₁ = .ok ((), wide₂) :=
    ok_after (by decide +kernel)
  have h0 : result (getHt 0x1008 0) wide₂ = some ⟨0x2008, 4, 3, 0⟩ := by decide +kernel
  have h1 : result (getHt 0x1008 1) wide₂ = some ⟨0x4008, 16, 15, 0⟩ := by decide +kernel
  have hlive : (block wide₂.mem 0x3008).isSome := by decide +kernel
  have hslots : ∀ i < 4, result (getField 0x2008 i) wide₂ = some NULL := by decide +kernel
  refine ⟨dictCreate_dict₀, (Run.nil.snoc (dstep_of h₁)).snoc (dstep_of h₂), fun hw => ?_⟩
  have hreach := hw.reached 0x3008 rfl (Option.isSome_iff_ne_none.mp hlive)
  rcases hreach.table_of_null h0 h1 hslots with heq | heq | heq
  all_goals exact absurd heq (by decide)

end Redis
