import RedisPlayground.Proofs.DictTables

/-! When the `used` counters of a dict count its entries: `dictAdd` counts in its
local copy of the table header, so as soon as an entry is added they do not. -/

namespace Redis

open CMem

/-- The number of entries in the chains of the first `n` slots. -/
def entriesLoop (table : Addr) : ℕ → M ℕ
  | 0 => return 0
  | n + 1 => do
    let k ← entriesLoop table n
    let p ← getField table n
    let ns ← chain p
    return k + ns.length

/-- Both counters are right, and together they count the additions. -/
structure Counts (d : Addr) (y : State Globals × History) (ht0 ht1 : dictht) : Prop where
  header0 : getHt d 0 y.1 = .ok (ht0, y.1)
  header1 : getHt d 1 y.1 = .ok (ht1, y.1)
  used0 : entriesLoop ht0.table ht0.size.toNat y.1 = .ok (ht0.used.toNat, y.1)
  used1 : entriesLoop ht1.table ht1.size.toNat y.1 = .ok (ht1.used.toNat, y.1)
  total : ht0.used.toNat + ht1.used.toNat = y.2.length

def Counted (d : Addr) (y : State Globals × History) : Prop := ∃ ht0 ht1, Counts d y ht0 ht1

/-- Nothing is added, and a second table has only empty chains from the start. -/
def AddsNothing (L : Libc) (y : State Globals × History) : DOp → Prop
  | .dictAdd _ _ => False
  | .dictExpand size => ExpandsTo L (fun p => p = NULL) size y.1

variable {L : Libc} {T : Addr → Option dictType} {hash : Addr → Word} {s s' s₀ s₁ : State Globals}
  {x : DDict} {p d type privdata table : Addr} {n : ℕ} {ws : List Word} {H : History}
  {c : ℕ → List (Addr × Addr × Addr)} {y : State Globals × History}

theorem readOnly_chainLoop : ReadOnly (chainLoop n p) := by
  induction n generalizing p with
  | zero => exact readOnly_stop _
  | succ n ih =>
    apply (readOnly_pure _).ite
    apply readOnly_getField.bind; intro key
    apply readOnly_getField.bind; intro value
    apply readOnly_getField.bind; intro next
    exact ih.bind fun _ => readOnly_pure _

theorem readOnly_chain : ReadOnly (chain p) := by
  have hfuel : ReadOnly fuel := readOnly_of_wp fun _ => rfl
  exact hfuel.bind fun _ => readOnly_chainLoop

theorem chainLoop_nil : wp Any (chainLoop n p) (fun ns _ => ns = [] → p = NULL) s := by
  cases n with
  | zero => trivial
  | succ n =>
    rw [chainLoop]
    by_cases hp : p = NULL
    · rw [if_pos hp]
      exact fun _ => hp
    · rw [if_neg hp, wp_bind]
      apply wp_any; intro key s₁ _
      rw [wp_bind]
      apply wp_any; intro value s₂ _
      rw [wp_bind]
      apply wp_any; intro next s₃ _
      rw [wp_bind]
      apply wp_any; intro rest s₄ _
      exact fun h => absurd h (List.cons_ne_nil _ _)

theorem chain_nil (h : chain p s = .ok ([], s)) : p = NULL := by
  have hwp : wp Any (chain p) (fun ns _ => ns = [] → p = NULL) s := by
    rw [chain, wp_bind]
    exact chainLoop_nil
  exact hwp.of_ok h rfl

theorem chain_null (hcard : 0 < s.mem.keys.card) : chain NULL s = .ok ([], s) := by
  have hnil : Linked (EntryAt s.mem) NULL [] NULL := trivial
  exact chainLoop_eq hnil hcard

theorem entriesLoop_eq (h : ∀ i < n, ∃ p, getField table i s = .ok (p, s) ∧ chain p s = .ok (c i, s)) :
    entriesLoop table n s = .ok (∑ i ∈ Finset.range n, (c i).length, s) := by
  induction n with
  | zero => rfl
  | succ n ih =>
    obtain ⟨p, hp, hc⟩ := h n (Nat.lt_succ_self n)
    have hn := ih fun i hi => h i (Nat.lt_succ_of_lt hi)
    apply wp.eq_ok
    rw [entriesLoop, wp_bind]
    apply wp.of_eq hn
    rw [wp_bind]
    apply wp.of_eq hp
    rw [wp_bind]
    apply wp.of_eq hc
    rw [wp_pure, Finset.sum_range_succ]
    exact ⟨rfl, rfl⟩

theorem entriesLoop_null : wp Any (entriesLoop table n) (fun k s' =>
    s' = s ∧ (k = 0 → ∀ i < n, getField table i s = .ok (NULL, s))) s := by
  induction n with
  | zero => exact ⟨rfl, fun _ i hi => absurd hi (Nat.not_lt_zero i)⟩
  | succ n ih =>
    rw [entriesLoop, wp_bind]
    apply ih.mono
    rintro k s' ⟨rfl, hk⟩
    rw [wp_bind]
    apply wp_any; intro p s₁ hp
    obtain rfl := readOnly_getField _ _ _ hp
    rw [wp_bind]
    apply wp_any; intro ns s₂ hns
    obtain rfl := readOnly_chain _ _ _ hns
    refine wp_pure.mpr ⟨rfl, fun h0 i hi => ?_⟩
    rcases Nat.lt_succ_iff_lt_or_eq.mp hi with hi | rfl
    · exact hk (by omega) i hi
    · have hnil : ns = [] := List.length_eq_zero_iff.mp (by omega)
      obtain rfl := chain_nil (hnil ▸ hns)
      exact hp

theorem entriesLoop_zero (hcard : 0 < s.mem.keys.card) :
    entriesLoop table n s = .ok (0, s) ↔ ∀ i < n, getField table i s = .ok (NULL, s) := by
  constructor
  · exact fun h => (entriesLoop_null.of_ok h).2 rfl
  · intro h
    have hsum := entriesLoop_eq (c := fun _ => []) fun i hi => ⟨NULL, h i hi, chain_null hcard⟩
    simpa using hsum

/-- The first table has all entries. -/
theorem entriesLoop_entries (h : x.Ok hash s.mem) (hn : x.foot.Nodup) :
    entriesLoop x.table 4 s = .ok (x.entries.length, s) := by
  have hloop : entriesLoop x.table 4 s =
      .ok (∑ i ∈ Finset.range 4, (bucket (ix hash) x.entries i).length, s) :=
    entriesLoop_eq fun i hi => (h.tableAt hn).chains i hi
  rwa [sum_buckets fun n _ => Finset.mem_range.mpr ix_lt] at hloop

/-- The counters of both tables are 0 for ever. -/
theorem counted_iff (h : Kept hash x ws y) :
    Counted x.addr y ↔ x.entries = [] ∧ Filled x ws fun p => p = NULL := by
  have hcard : 0 < y.1.mem.keys.card := Nat.zero_lt_of_lt (h.tabled.ok.length_lt h.tabled.nodup)
  have hall := entriesLoop_entries h.tabled.ok h.tabled.nodup
  have hslots : entriesLoop x.ht1.table x.ht1.size.toNat y.1 = .ok (0, y.1) ↔
      Filled x ws fun p => p = NULL := by
    rw [entriesLoop_zero hcard]
    simp only [Filled, h.second.slot_iff, exists_eq_right]
  constructor
  · rintro ⟨ht0, ht1, hc⟩
    obtain rfl := (Prod.mk.inj (Except.ok.inj ((getHt_zero h.tabled.ok).symm.trans hc.header0))).1
    obtain rfl := (Prod.mk.inj (Except.ok.inj ((getHt_one h.tabled.ok).symm.trans hc.header1))).1
    have hlen := (Prod.mk.inj (Except.ok.inj (hall.symm.trans hc.used0))).1
    have hused := hc.used1
    rw [h.second.used] at hused
    exact ⟨List.length_eq_zero_iff.mp hlen, hslots.mp hused⟩
  · rintro ⟨hnil, hf⟩
    have hhist : x.entries.map Prod.snd = y.2 := h.tabled.history
    rw [hnil] at hall hhist
    refine ⟨_, x.ht1, getHt_zero h.tabled.ok, getHt_one h.tabled.ok, hall, ?_, ?_⟩
    · rw [h.second.used]
      exact hslots.mpr hf
    · rw [h.second.used, ← hhist]
      rfl

theorem dstep_counted {y y' : State Globals × History} {op : DOp}
    (hI : ∃ x : DDict, x.addr = d ∧ x.type = type ∧ ∃ ws, Kept (hashOf T type) x ws y)
    (hP : Counted d y) (hstep : dstep L T d y op y') :
    (∃ x : DDict, x.addr = d ∧ x.type = type ∧ ∃ ws, Kept (hashOf T type) x ws y') ∧
      (Counted d y' ↔ AddsNothing L y op) := by
  obtain ⟨x, rfl, rfl, ws, hx⟩ := hI
  obtain ⟨hnil, -⟩ := (counted_iff hx).mp hP
  obtain ⟨x', vs, hmoves, hx'⟩ := hx.step hstep
  refine ⟨⟨x', hmoves.same.1, hmoves.same.2, vs, hx'⟩, ?_⟩
  cases hmoves with
  | @added key val p s' fresh update =>
    refine iff_of_false (fun hc => ?_) id
    exact List.cons_ne_nil _ _ ((counted_iff (x := x.add p key val) hx').mp hc).1
  | refused power => exact iff_of_true hP (expandsTo_of_refused power)
  | @installed size n rehash table raw vs s' power larger got slots =>
    rw [AddsNothing, expandsTo_iff power larger got slots]
    exact (counted_iff (x := x.expand table n rehash) hx').trans (and_iff_right hnil)

/-- The counters are right all along a run exactly if nothing is ever added and
no chain of a second table is there from the start. -/
theorem dict_counts (L : Libc) (T : Addr → Option dictType) (type privdata : Addr)
    (s₀ s₁ s : State Globals) (d : Addr) (hnew : dictCreate L type privdata s₀ = .ok (d, s₁))
    (H : History) (tr : List ((State Globals × History) × DOp))
    (h : Run (dstep L T d) (s₁, []) tr (s, H)) :
    Always (Counted d) tr (s, H) ↔ ∀ y ∈ tr, AddsNothing L y.1 y.2 := by
  obtain ⟨table, w, -, hI⟩ := Kept.init hnew (hashOf T type)
  have hP : Counted d (s₁, []) :=
    (counted_iff (x := DDict.new d type privdata table w) hI).mpr
      ⟨rfl, fun i hi => absurd hi (Nat.not_lt_zero i)⟩
  exact h.always_iff ⟨DDict.new d type privdata table w, rfl, rfl, [], hI⟩ hP
    fun _ _ _ hI hP hstep => dstep_counted hI hP hstep

theorem Counted.total {ht0 ht1 : dictht} (h : Counted d (s, H)) (h0 : result (getHt d 0) s = some ht0)
    (h1 : result (getHt d 1) s = some ht1) : ht0.used.toNat + ht1.used.toNat = H.length := by
  obtain ⟨ht0', ht1', hc⟩ := h
  obtain rfl := Option.some.inj (h0.symm.trans (result_of_ok hc.header0))
  obtain rfl := Option.some.inj (h1.symm.trans (result_of_ok hc.header1))
  exact hc.total

theorem dict_counts_zero : Always (Counted 0x1008) addRun (dict₂, [(9, 90), (5, 50)]) ↔
    ∀ y ∈ addRun, AddsNothing (bump 0) y.1 y.2 :=
  dict_counts (bump 0) plainType 1 NULL zinit dict₀ dict₂ 0x1008 dictCreate_dict₀
    [(9, 90), (5, 50)] addRun run_add

theorem dictAdd_uncounted : dictCreate (bump 0) 1 NULL zinit = .ok (0x1008, dict₀) ∧
    Run (dstep (bump 0) plainType 0x1008) (dict₀, []) addRun (dict₂, [(9, 90), (5, 50)]) ∧
    ¬ Counted 0x1008 (dict₂, [(9, 90), (5, 50)]) := by
  have h0 : result (getHt 0x1008 0) dict₂ = some ⟨0x2008, 4, 3, 0⟩ := by decide +kernel
  have h1 : result (getHt 0x1008 1) dict₂ = some ⟨NULL, 0, 0, 0⟩ := by decide +kernel
  refine ⟨dictCreate_dict₀, run_add, fun hc => ?_⟩
  exact absurd (hc.total h0 h1) (by decide)

end Redis
