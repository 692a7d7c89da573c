import RedisPlayground.Proofs.DictExpandReleases

/-! What a dict that was expanded answers. An expansion loses no addition, and what
is not there is looked up in the slots that the allocator left in the second table. -/

namespace Redis

open CMem

/-- The slot of the second table that a key is looked up in. -/
def secondSlot (hash : Addr → Word) (key : Addr) (ht1 : dictht) : ℕ :=
  (hash key &&& (DICT_HT_INITIAL_SIZE - 1) &&& ht1.sizemask).toNat

/-- The lookup of a key whose chain in the first table is empty, after `n` expansions, the last of which
installed `last`. -/
structure Missed (T : Addr → Option dictType) (s : State Globals) (d key : Addr) (hash : Addr → Word) (n : ℕ)
    (last : Option (Addr × List Byte)) (ht1 : dictht) : Prop where
  second : getHt d 1 s = .ok (ht1, s)
  table : ht1.table = NULL ↔ n = 0
  slot : secondSlot hash key ht1 < DICT_HT_INITIAL_SIZE.toNat
  entry : getDictEntry T d key s = getField ht1.table (secondSlot hash key ht1) s
  found : dictFind T d key s = (getField ht1.table (secondSlot hash key ht1) >>= fun w => getField w dictEntry.value) s
  installed : ht1.table = (last.map Prod.fst).getD NULL
  word : ∀ t w, last = some t → slice t.2 (8 * secondSlot hash key ht1) 8 = wordBytes w →
    getDictEntry T d key s = .ok (w, s) ∧ dictFind T d key s = getField w dictEntry.value s
  outside : (∀ t, last = some t → t.2.length < 8 * secondSlot hash key ht1 + 8) → getDictEntry T d key s = .error .ub

variable {L : Libc} {T : Addr → Option dictType} {hash : Addr → Word} {s s' s₀ s₁ : State Globals} {x : DDict}
  {d key type privdata : Addr} {ws : List Word} {H : History} {y y' : State Globals × History}
  {tr : List ((State Globals × History) × DOp)} {good : Addr → Prop} {op : DOp} {α : Type}

section Slots

/-- What every expansion of a run finds in its new slots stands in the second table. -/
theorem Filled.step {x' : DDict} {vs : List Word} (h : Filled x ws good) (hmoves : DMoves L x ws y op x' vs y')
    (hraw : ∀ size, op = .dictExpand size → ExpandsTo L good size y.1) : Filled x' vs good := by
  cases hmoves with
  | added => exact h
  | refused => exact h
  | installed power larger got slots => exact (expandsTo_iff power larger got slots).mp (hraw _ rfl)

theorem Filled.run (hnew : dictCreate L type privdata s₀ = .ok (d, s₁)) (h : Run (dstep L T d) (s₁, []) tr y)
    (hraw : ∀ z ∈ tr, ∀ size, z.2 = .dictExpand size → ExpandsTo L good size z.1.1) :
    ∃ (x : DDict) (ws : List Word), x.addr = d ∧ x.type = type ∧ Kept (hashOf T type) x ws y ∧ Filled x ws good := by
  obtain ⟨table, w, -, hI⟩ := Kept.init hnew (hashOf T type)
  have hrun : ∃ x : DDict, x.addr = d ∧ x.type = type ∧ ∃ ws, Kept (hashOf T type) x ws y ∧ Filled x ws good := by
    refine h.invariant (P := fun tr y => (∀ z ∈ tr, ∀ size, z.2 = .dictExpand size → ExpandsTo L good size z.1.1) →
      ∃ x : DDict, x.addr = d ∧ x.type = type ∧ ∃ ws, Kept (hashOf T type) x ws y ∧ Filled x ws good) (fun _ => ?_) ?_
      hraw
    · exact ⟨_, rfl, rfl, [], hI, fun i hi => absurd hi (Nat.not_lt_zero i)⟩
    · intro tr y op y' ih hstep hall
      rw [List.forall_mem_append, List.forall_mem_singleton] at hall
      obtain ⟨x, rfl, rfl, ws, hx, hf⟩ := ih hall.1
      obtain ⟨x', vs, hmoves, hx'⟩ := hx.step hstep
      exact ⟨x', hmoves.same.1, hmoves.same.2, vs, hx', hf.step hmoves hall.2⟩
  obtain ⟨x, haddr, htype, ws, hkept, hf⟩ := hrun
  exact ⟨x, ws, haddr, htype, hkept, hf⟩

end Slots

section Misses

theorem mask_initial {w : Word} : (w &&& (DICT_HT_INITIAL_SIZE - 1)).toNat < DICT_HT_INITIAL_SIZE.toNat :=
  mask_lt (by decide)

theorem secondSlot_lt {ht1 : dictht} : secondSlot hash key ht1 < DICT_HT_INITIAL_SIZE.toNat := by
  rw [secondSlot, BitVec.toNat_and]
  exact Nat.and_le_left.trans_lt mask_initial

/-- A key without a chain is not told apart from what stands in its slot of the second table. -/
theorem getDictEntry_missed (hT : T x.type = some ⟨some hash⟩) (h : Tabled hash x (s, H))
    (hnone : latest (SameIndex hash key) H = none) :
    getDictEntry T x.addr key s = getField x.ht1.table (secondSlot hash key x.ht1) s := by
  have hhist : x.entries.map Prod.snd = H := h.history
  rw [← hhist, latest_bucket, Option.map_eq_none_iff, List.head?_eq_none_iff] at hnone
  refine eq_of_wp fun E Q hslot => ?_
  apply wp_getDictEntry (Or.inl hT) h.ok
  · intro p v ns hb
    rw [hnone] at hb
    contradiction
  · exact fun _ => hslot

theorem dictFind_missed (hT : T x.type = some ⟨some hash⟩) (h : Tabled hash x (s, H))
    (hnone : latest (SameIndex hash key) H = none) : dictFind T x.addr key s =
      (getField x.ht1.table (secondSlot hash key x.ht1) >>= fun w => getField w dictEntry.value) s := by
  change (getDictEntry T x.addr key s >>= fun y => getField y.1 dictEntry.value y.2) = _
  rw [getDictEntry_missed hT h hnone]
  rfl

/-- No lookup ends with NULL. -/
theorem not_reportsAbsence : ¬ ReportsAbsence T d key s := by
  rintro ⟨hentry, hfind⟩
  have hub : dictFind T d key s = .error .ub := by
    apply wp.eq_error
    rw [dictFind, wp_bind]
    exact wp.of_eq hentry (wp_getField_null.mpr rfl)
  rw [hub] at hfind
  contradiction

/-- A lookup that comes to a slot takes the word there for an entry. -/
theorem dictFind_slot {w : Word} (hT : T x.type = some ⟨some hash⟩) (h : Tabled hash x (s, H))
    (hnone : latest (SameIndex hash key) H = none)
    (hw : getField x.ht1.table (secondSlot hash key x.ht1) s = .ok (w, s)) :
    getDictEntry T x.addr key s = .ok (w, s) ∧ dictFind T x.addr key s = getField w dictEntry.value s := by
  refine ⟨(getDictEntry_missed hT h hnone).trans hw, (dictFind_missed hT h hnone).trans ?_⟩
  change (getField x.ht1.table (secondSlot hash key x.ht1) s >>= fun y => getField y.1 dictEntry.value y.2) = _
  rw [hw]
  rfl

/-- A slot that the block of the second table does not have. -/
theorem Second.slot_ub {i : ℕ} (h : Second s.mem x ws) (hi : ws.length ≤ i) :
    getField x.ht1.table i s = .error .ub := by
  apply wp.eq_error
  rcases h.table with ⟨hnull, -⟩ | ⟨hws, -⟩
  · rw [hnull]
    exact wp_getField_null.mpr rfl
  · rw [getField, wp_bind]
    refine wp_getBytes_of rfl hws fun hn => ?_
    rw [words_length] at hn
    omega

theorem Spread.missed {privdata : Addr} {ts : List (Addr × List Byte)} (hT : T x.type = some ⟨some hash⟩)
    (hx : Spread s₀ hash privdata x ws ts (s, H)) (hnone : latest (SameIndex hash key) H = none) :
    Missed T s x.addr key hash ts.length ts.getLast? x.ht1 where
  second := getHt_one hx.kept.tabled.ok
  table := by
    rw [List.length_eq_zero_iff, ← List.getLast?_eq_none_iff, hx.last]
    simp
  slot := secondSlot_lt
  entry := getDictEntry_missed hT hx.kept.tabled hnone
  found := dictFind_missed hT hx.kept.tabled hnone
  installed := hx.table_eq
  word := by
    intro t w hlast hw
    rw [hx.last] at hlast
    split_ifs at hlast
    obtain rfl := Option.some.inj hlast
    exact dictFind_slot hT hx.kept.tabled hnone (hx.kept.second.slot_iff.mpr (slice_words_iff.mp hw))
  outside := by
    intro hout
    rw [getDictEntry_missed hT hx.kept.tabled hnone]
    apply hx.kept.second.slot_ub
    rcases hx.kept.second.table with ⟨-, -, rfl⟩ | ⟨hws, -⟩
    · exact Nat.zero_le _
    · have hlen := hout _ (hx.last.trans (if_neg hws.ne_null))
      rw [words_length] at hlen
      omega

/-- What is found in a slot that satisfies `good`. -/
theorem Missed.reads {n : ℕ} {last : Option (Addr × List Byte)} {ht1 : dictht}
    (h : Missed T s x.addr key hash n last ht1) (hT : T x.type = some ⟨some hash⟩) (hx : Kept hash x ws (s, H))
    (hf : Filled x ws good) (hnone : latest (SameIndex hash key) H = none) (hn : n ≠ 0) :
    ∃ w, good w ∧ getDictEntry T x.addr key s = .ok (w, s) ∧
      dictFind T x.addr key s = getField w dictEntry.value s := by
  obtain rfl : x.ht1 = ht1 := (Prod.mk.inj (Except.ok.inj ((getHt_one hx.tabled.ok).symm.trans h.second))).1
  obtain ⟨hmask, hsize⟩ : x.ht1.sizemask = x.ht1.size - 1 ∧ x.ht1.size ≠ 0 := by
    rcases hx.second.table with ⟨hnull, -⟩ | ⟨-, -, hmask, hsize⟩
    · exact absurd (h.table.mp hnull) hn
    · exact ⟨hmask, hsize⟩
  have hslot : secondSlot hash key x.ht1 < x.ht1.size.toNat := by
    rw [secondSlot, hmask]
    exact mask_lt hsize
  obtain ⟨w, hw, hgood⟩ := hf _ hslot
  exact ⟨w, hgood, dictFind_slot hT hx.tabled hnone (hx.second.slot_iff.mpr hw)⟩

end Misses

/-- After any additions and expansions a key is answered with the latest addition of the same index. If there is
none, the word that the allocator left in one of the first slots of the table installed last is taken for its
entry; the answer is never that the key is absent. -/
theorem dictFind_after_expansions (L : Libc) (T : Addr → Option dictType) (type privdata : Addr)
    (hash : Addr → Word) (hT : T type = some ⟨some hash⟩) (s₀ s₁ s : State Globals) (d : Addr)
    (hnew : dictCreate L type privdata s₀ = .ok (d, s₁)) (H : History)
    (tr : List ((State Globals × History) × DOp)) (h : Run (dstep L T d) (s₁, []) tr (s, H)) (key : Addr) :
    ¬ ReportsAbsence T d key s ∧
      match latest (SameIndex hash key) H with
      | some val => dictFind T d key s = .ok (val, s)
      | none => (∃ ht1, Missed T s d key hash (tr.countP installs) (installedTables L tr).getLast? ht1) ∧
          ∀ good : Addr → Prop,
            (∀ z ∈ tr, ∀ size, z.2 = .dictExpand size → ExpandsTo L good size z.1.1) → tr.countP installs ≠ 0 →
            ∃ w, good w ∧ getDictEntry T d key s = .ok (w, s) ∧
              dictFind T d key s = getField w dictEntry.value s := by
  obtain ⟨x, ws, rfl, rfl, hx, hcount⟩ := Spread.run hnew h
  have hhash : hashOf T x.type = hash := by rw [hashOf, hT]
  refine ⟨not_reportsAbsence, ?_⟩
  rw [hhash] at hx
  cases hval : latest (SameIndex hash key) H with
  | some val => exact dictFind_latest hT hx.kept.tabled hval
  | none =>
    have hmissed := hx.missed hT hval
    rw [hcount] at hmissed
    refine ⟨⟨x.ht1, hmissed⟩, fun good hraw hn => ?_⟩
    obtain ⟨x', ws', haddr, htype, hkept, hf⟩ := Filled.run hnew h hraw
    rw [hhash] at hkept
    exact haddr ▸ (haddr.symm ▸ hmissed).reads (htype.symm ▸ hT) hkept hf hval hn

/-- The key 6 has a slot of its own in the table that was installed. -/
theorem dictFind_after_expansions_six : ¬ ReportsAbsence plainType 0x1008 6 dict₃ ∧
    match latest (SameIndex id 6) [(9, 90), (5, 50)] with
    | some val => dictFind plainType 0x1008 6 dict₃ = .ok (val, dict₃)
    | none => (∃ ht1, Missed plainType dict₃ 0x1008 6 id (expandRun.countP installs)
          (installedTables (bump 0) expandRun).getLast? ht1) ∧ ∀ good : Addr → Prop,
        (∀ z ∈ expandRun, ∀ size, z.2 = .dictExpand size → ExpandsTo (bump 0) good size z.1.1) →
        expandRun.countP installs ≠ 0 → ∃ w, good w ∧ getDictEntry plainType 0x1008 6 dict₃ = .ok (w, dict₃) ∧
          dictFind plainType 0x1008 6 dict₃ = getField w dictEntry.value dict₃ :=
  dictFind_after_expansions (bump 0) plainType 1 NULL id rfl zinit dict₀ dict₃ 0x1008 dictCreate_dict₀
    [(9, 90), (5, 50)] expandRun run_expand 6

end Redis
