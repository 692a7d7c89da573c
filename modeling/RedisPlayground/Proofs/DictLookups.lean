import RedisPlayground.Proofs.DictRuns

/-! What `getDictEntry` and `dictFind` answer. They never compare keys: the answer
is the latest entry with the index of the key, if there is one. -/

namespace Redis

open CMem

/-- The value of the latest addition of a key that satisfies `q`. -/
def latest (q : Addr → Prop) [DecidablePred q] : History → Option Addr
  | [] => none
  | e :: H => if q e.1 then some e.2 else latest q H

/-- Two keys whose entries are in one chain of the first table. -/
def SameIndex (hash : Addr → Word) (key k : Addr) : Prop :=
  hash key &&& (DICT_HT_INITIAL_SIZE - 1) = hash k &&& (DICT_HT_INITIAL_SIZE - 1)

instance (hash : Addr → Word) (key : Addr) : DecidablePred (SameIndex hash key) :=
  fun _ => inferInstanceAs (Decidable (_ = _))

variable {L : Libc} {T : Addr → Option dictType} {hash : Addr → Word} {s s₀ s₁ : State Globals}
  {x : DDict} {p d key type privdata : Addr} {v : Addr × Addr}
  {ns : List (Addr × Addr × Addr)} {H : History} {tr : List ((State Globals × History) × DOp)}
  {E : Stop → Prop} {q : Addr → Prop} [DecidablePred q]

theorem latest_isSome : (latest q H).isSome ↔ ∃ e ∈ H, q e.1 := by
  induction H with
  | nil => simp [latest]
  | cons e H ih =>
    rw [latest]
    by_cases hq : q e.1
    · simp [hq]
    · simp [hq, ih]

theorem sameIndex_iff : SameIndex hash key v.1 ↔ ix hash v = ix hash (key, NULL) := by
  rw [SameIndex, ix, ix, BitVec.toNat_inj, eq_comm]

theorem sameIndex_of_eq {k : Addr} (h : hash key = hash k) : SameIndex hash key k := by
  rw [SameIndex, h]

/-- The latest addition to a chain is its first entry. -/
theorem latest_bucket : latest (SameIndex hash key) (ns.map Prod.snd) =
    (bucket (ix hash) ns (ix hash (key, NULL))).head?.map fun n => n.2.2 := by
  induction ns with
  | nil => rfl
  | cons n ns ih =>
    rw [List.map_cons, latest]
    by_cases hn : SameIndex hash key n.2.1
    · rw [if_pos hn, ← sameIndex_iff.mp hn, bucket_cons_self, List.head?_cons, Option.map_some]
    · have hne : ix hash (key, NULL) ≠ ix hash n.2 := fun heq => hn (sameIndex_iff.mpr heq.symm)
      rw [if_neg hn, bucket_cons_ne hne, ih]

/-- The slot that a key is looked up in. -/
theorem slots_key (hash : Addr → Word) (x : DDict) (key : Addr) :
    (x.slots hash)[(hash key &&& (DICT_HT_INITIAL_SIZE - 1)).toNat]? =
      some (first (bucket (ix hash) x.entries (ix hash (key, NULL))) NULL) :=
  slots_get (i := ix hash (key, NULL)) ix_lt

/-- A chain that has entries is answered by its first one, an empty chain by a
slot of the second table. -/
theorem wp_getDictEntry {Q : Addr → State Globals → Prop} (hT : Hashes E T x.type hash)
    (h : x.Ok hash s.mem)
    (hcons : ∀ p v ns, bucket (ix hash) x.entries (ix hash (key, NULL)) = (p, v) :: ns →
      Holds s.mem p (words [v.1, v.2, first ns NULL]) → Q p s)
    (hnil : bucket (ix hash) x.entries (ix hash (key, NULL)) = [] →
      wp E (getField x.ht1.table (hash key &&& (DICT_HT_INITIAL_SIZE - 1) &&& x.ht1.sizemask).toNat) Q s) :
    wp E (getDictEntry T x.addr key) Q s := by
  have hend : ∀ r : Addr, (if r ≠ NULL then return r else return NULL : M Addr) = return r := by
    intro r
    by_cases hr : r = NULL
    · rw [hr, if_neg (not_not.mpr rfl)]
    · rw [if_pos hr]
  have hslot := slots_key hash x key
  simp only [getDictEntry, hend]
  rw [wp_bind]
  apply wp_dictHashKey_of hT h.header
  rw [wp_bind, wp_getField h.header rfl, wp_bind, wp_getField h.header rfl, wp_bind,
    wp_getField h.slots hslot]
  rcases hb : bucket (ix hash) x.entries (ix hash (key, NULL)) with - | ⟨⟨p, v⟩, ns⟩
  · rw [first_nil, if_neg (not_not.mpr rfl), wp_bind, wp_getField h.header rfl, wp_bind,
      wp_getField h.header rfl, bind_pure]
    exact hnil hb
  · have hp : Holds s.mem p (words [v.1, v.2, first ns NULL]) := (hb ▸ h.chains _).1
    rw [first_cons, if_pos hp.ne_null, wp_pure]
    exact hcons p v ns hb hp

theorem dictFind_latest {val : Addr} (hT : T x.type = some ⟨some hash⟩) (h : Tabled hash x (s, H))
    (hval : latest (SameIndex hash key) H = some val) : dictFind T x.addr key s = .ok (val, s) := by
  have hhist : x.entries.map Prod.snd = H := h.history
  rw [← hhist, latest_bucket, Option.map_eq_some_iff] at hval
  obtain ⟨n, hhead, rfl⟩ := hval
  apply wp.eq_ok
  rw [dictFind, wp_bind]
  apply wp_getDictEntry (Or.inl hT) h.ok
  · intro p v ns hb hp
    rw [hb, List.head?_cons, Option.some.injEq] at hhead
    rw [← hhead]
    exact (wp_getField hp rfl).mpr ⟨rfl, rfl⟩
  · intro hb
    rw [hb] at hhead
    simp at hhead

/-- A key that was added is looked up. The answer is the value of the latest key
with the same index, and it is right exactly if that is the value of the latest
key that is equal. -/
theorem dict_finds (L : Libc) (T : Addr → Option dictType) (type privdata : Addr)
    (hash : Addr → Word) (hT : T type = some ⟨some hash⟩) (eq : Addr → Addr → Prop)
    [DecidableRel eq] (heq : ∀ a b, eq a b → hash a = hash b) (s₀ s₁ s : State Globals) (d : Addr)
    (hnew : dictCreate L type privdata s₀ = .ok (d, s₁)) (H : History)
    (tr : List ((State Globals × History) × DOp)) (h : Run (dstep L T d) (s₁, []) tr (s, H))
    (key : Addr) (hkey : ∃ e ∈ H, eq key e.1) :
    (∃ val, latest (eq key) H = some val ∧ dictFind T d key s = .ok (val, s)) ↔
      latest (SameIndex hash key) H = latest (eq key) H := by
  obtain ⟨x, rfl, rfl, hI⟩ := Tabled.run hT hnew h
  obtain ⟨e, he, hek⟩ := hkey
  obtain ⟨val, hval⟩ := Option.isSome_iff_exists.mp
    (latest_isSome.mpr ⟨e, he, sameIndex_of_eq (heq _ _ hek)⟩)
  have hfind := dictFind_latest hT hI hval
  rw [hval, hfind]
  constructor
  · rintro ⟨val', hval', hfound⟩
    rw [hval', (Prod.mk.inj (Except.ok.inj hfound)).1]
  · exact fun hlatest => ⟨val, hlatest.symm, rfl⟩

theorem dict_finds_latest : (∃ val, latest (fun k => 9 = k) [(9, 90), (5, 50)] = some val ∧
      dictFind plainType 0x1008 9 dict₂ = .ok (val, dict₂)) ↔
    latest (SameIndex id 9) [(9, 90), (5, 50)] = latest (fun k => 9 = k) [(9, 90), (5, 50)] :=
  dict_finds (bump 0) plainType 1 NULL id rfl (fun a b => a = b) (fun _ _ h => h) zinit dict₀ dict₂
    0x1008 dictCreate_dict₀ [(9, 90), (5, 50)] addRun run_add 9 ⟨(9, 90), List.mem_cons_self, rfl⟩

/-- The key 5 is found with the value of the key 9, which was added after it. -/
theorem dictFind_collides : Run (dstep (bump 0) plainType 0x1008) (dict₀, []) addRun
      (dict₂, [(9, 90), (5, 50)]) ∧
    ¬ ∃ val, latest (fun k => 5 = k) [(9, 90), (5, 50)] = some val ∧
      dictFind plainType 0x1008 5 dict₂ = .ok (val, dict₂) := by
  have hfind : result (dictFind plainType 0x1008 5) dict₂ = some 90 := by decide +kernel
  refine ⟨run_add, ?_⟩
  rintro ⟨val, hval, hok⟩
  obtain rfl : 50 = val := Option.some.inj hval
  exact absurd (Option.some.inj (hfind.symm.trans (result_of_ok hok))) (by decide)

/-- What a lookup has to answer for a key that was not added. -/
def ReportsAbsence (T : Addr → Option dictType) (d key : Addr) (s : State Globals) : Prop :=
  getDictEntry T d key s = .ok (NULL, s) ∧ dictFind T d key s = .ok (NULL, s)

theorem getDictEntry_absent (hT : T x.type = some ⟨some hash⟩) (h : Tabled hash x (s, H))
    (hnull : x.ht1.table = NULL) (hnone : latest (SameIndex hash key) H = none) :
    getDictEntry T x.addr key s = .error .ub := by
  have hhist : x.entries.map Prod.snd = H := h.history
  rw [← hhist, latest_bucket, Option.map_eq_none_iff, List.head?_eq_none_iff] at hnone
  apply wp.eq_error
  apply wp_getDictEntry (Or.inl hT) h.ok
  · intro p v ns hb
    rw [hnone] at hb
    contradiction
  · intro _
    rw [hnull, wp_getField_null]

theorem dictFind_absent (hT : T x.type = some ⟨some hash⟩) (h : Tabled hash x (s, H))
    (hnull : x.ht1.table = NULL) (hnone : latest (SameIndex hash key) H = none) :
    dictFind T x.addr key s = .error .ub := by
  apply wp.eq_error
  rw [dictFind, wp_bind, wp, getDictEntry_absent hT h hnull hnone]

theorem dictFind_iff {val : Addr} (hT : T x.type = some ⟨some hash⟩) (h : Tabled hash x (s, H))
    (hnull : x.ht1.table = NULL) :
    dictFind T x.addr key s = .ok (val, s) ↔ latest (SameIndex hash key) H = some val := by
  cases hval : latest (SameIndex hash key) H with
  | none =>
    rw [dictFind_absent hT h hnull hval]
    simp
  | some v =>
    rw [dictFind_latest hT h hval]
    simp

theorem getDictEntry_ne_null (hT : T x.type = some ⟨some hash⟩) (h : Tabled hash x (s, H))
    (hnull : x.ht1.table = NULL) : getDictEntry T x.addr key s ≠ .ok (NULL, s) := by
  intro hok
  have hne : wp Any (getDictEntry T x.addr key) (fun r _ => r ≠ NULL) s := by
    apply wp_getDictEntry (Or.inl hT) h.ok
    · exact fun p v ns _ hp => hp.ne_null
    · intro _
      rw [hnull, wp_getField_null]
      trivial
  exact hne.of_ok hok rfl

theorem Tabled.run_adds (hT : T type = some ⟨some hash⟩)
    (hnew : dictCreate L type privdata s₀ = .ok (d, s₁))
    (h : Run (dstep L T d) (s₁, []) tr (s, H)) (hadd : ∀ y ∈ tr, ∃ key val, y.2 = .dictAdd key val) :
    ∃ x : DDict, x.addr = d ∧ x.type = type ∧ x.ht1.table = NULL ∧ Tabled hash x (s, H) := by
  obtain ⟨table, w, hI⟩ := Tabled.init hnew hash
  refine h.invariant (P := fun tr y => (∀ y ∈ tr, ∃ key val, y.2 = .dictAdd key val) →
    ∃ x : DDict, x.addr = d ∧ x.type = type ∧ x.ht1.table = NULL ∧ Tabled hash x y)
    (fun _ => ⟨_, rfl, rfl, rfl, hI⟩) ?_ hadd
  rintro tr ⟨s, H⟩ op ⟨s', H'⟩ hx ⟨hok, rfl⟩ hadd
  rw [List.forall_mem_append, List.forall_mem_singleton] at hadd
  obtain ⟨htr, key, val, rfl⟩ := hadd
  obtain ⟨x, rfl, rfl, hnull, hx⟩ := hx htr
  obtain ⟨p, hp⟩ := (tabled_add hT hx).of_ok hok
  exact ⟨x.add p key val, rfl, rfl, hnull, hp⟩

/-- No absent key is ever reported absent: a lookup answers with another key of
the same index, or it reads the second table, which does not exist. -/
theorem dict_misses (L : Libc) (T : Addr → Option dictType) (type privdata : Addr)
    (hash : Addr → Word) (hT : T type = some ⟨some hash⟩) (s₀ s₁ s : State Globals) (d : Addr)
    (hnew : dictCreate L type privdata s₀ = .ok (d, s₁)) (H : History)
    (tr : List ((State Globals × History) × DOp)) (h : Run (dstep L T d) (s₁, []) tr (s, H))
    (hadd : ∀ y ∈ tr, ∃ key val, y.2 = .dictAdd key val) (key : Addr) :
    ¬ ReportsAbsence T d key s ∧
      match latest (SameIndex hash key) H with
      | none => getDictEntry T d key s = .error .ub
      | some val => dictFind T d key s = .ok (val, s) := by
  obtain ⟨x, rfl, rfl, hnull, hI⟩ := Tabled.run_adds hT hnew h hadd
  refine ⟨fun habsent => getDictEntry_ne_null hT hI hnull habsent.1, ?_⟩
  cases hval : latest (SameIndex hash key) H with
  | none => exact getDictEntry_absent hT hI hnull hval
  | some val => exact dictFind_latest hT hI hval

theorem dict_misses_two : ¬ ReportsAbsence plainType 0x1008 6 dict₂ ∧
    getDictEntry plainType 0x1008 6 dict₂ = .error .ub :=
  dict_misses (bump 0) plainType 1 NULL id rfl zinit dict₀ dict₂ 0x1008 dictCreate_dict₀
    [(9, 90), (5, 50)] addRun run_add (by simp [addRun]) 6

/-- Of two absent keys, 6 has an empty chain and 13 that of the keys 5 and 9. -/
theorem getDictEntry_misses : Run (dstep (bump 0) plainType 0x1008) (dict₀, []) addRun
      (dict₂, [(9, 90), (5, 50)]) ∧
    ¬ ReportsAbsence plainType 0x1008 6 dict₂ ∧ ¬ ReportsAbsence plainType 0x1008 13 dict₂ := by
  have hempty : result (getDictEntry plainType 0x1008 6) dict₂ = none := by decide +kernel
  have hother : result (dictFind plainType 0x1008 13) dict₂ = some 90 := by decide +kernel
  refine ⟨run_add, ?_, ?_⟩
  · rintro ⟨hok, -⟩
    exact absurd (hempty.symm.trans (result_of_ok hok)) (by simp)
  · rintro ⟨-, hok⟩
    exact absurd (Option.some.inj (hother.symm.trans (result_of_ok hok))) (by decide)

end Redis
