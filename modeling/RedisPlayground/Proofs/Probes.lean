import RedisPlayground.Proofs.DictCounts
import RedisPlayground.Proofs.DictOrphans

/-! The second probe of `getDictEntry`. The index is cut to the mask of the first
table before it is cut to that of the second. -/

namespace Redis

open CMem

/-- A table of `d` whose size is a power of two, and its entries: each stands in the chain of the
bucket that the mask of the table takes from its hash. -/
structure WellTabled (s : State Globals) (d : Addr) (hash : Addr → Word) (j : ℕ) (ht : dictht)
    (ns : List (Addr × Addr × Addr)) : Prop where
  header : getHt d j s = .ok (ht, s)
  size : ∃ k, ht.size.toNat = 2 ^ k
  sizemask : ht.sizemask = ht.size - 1
  chains : ∀ i < ht.size.toNat, ∃ p, getField ht.table i s = .ok (p, s) ∧
    chain p s = .ok (ns.filter fun n => (hash n.2.1 &&& ht.sizemask).toNat = i, s)

/-- `getDictEntry` gives the first entry in the bucket of the key in the second table. -/
def Probes (T : Addr → Option dictType) (hash : Addr → Word) (d key : Addr) (ht1 : dictht)
    (s : State Globals) : Prop :=
  ∃ p, p ≠ NULL ∧ getField ht1.table (hash key &&& ht1.sizemask).toNat s = .ok (p, s) ∧
    getDictEntry T d key s = .ok (p, s)

variable {T : Addr → Option dictType} {hash : Addr → Word} {s : State Globals} {d key p q : Addr} {j k : ℕ}
  {ht ht0 ht1 : dictht} {ns ns0 ns1 : List (Addr × Addr × Addr)} {w v : Word}

theorem WellTabled.ne_zero (h : WellTabled s d hash j ht ns) : ht.size ≠ 0 := by
  obtain ⟨k, hk⟩ := h.size
  intro h0
  rw [h0] at hk
  exact absurd hk.symm (by positivity)

/-- The chain of the bucket that the table has for a hash. -/
theorem WellTabled.bucket (h : WellTabled s d hash j ht ns) (w : Word) :
    ∃ p, getField ht.table (w &&& ht.sizemask).toNat s = .ok (p, s) ∧
      chain p s = .ok (ns.filter fun n => (hash n.2.1 &&& ht.sizemask).toNat = (w &&& ht.sizemask).toNat, s) := by
  apply h.chains
  rw [h.sizemask]
  exact mask_lt h.ne_zero

theorem mask_toNat (h : WellTabled s d hash j ht ns) (w : Word) :
    ∃ k, ht.sizemask.toNat + 1 = 2 ^ k ∧ (w &&& ht.sizemask).toNat = w.toNat % 2 ^ k := by
  obtain ⟨k, hk⟩ := h.size
  have hlt := ht.size.isLt
  have hpos : 0 < 2 ^ k := by positivity
  have hmask : ht.sizemask.toNat = 2 ^ k - 1 := by
    rw [h.sizemask, BitVec.toNat_sub_of_le (by rw [BitVec.le_def]; change 1 ≤ _; omega), hk]
    rfl
  refine ⟨k, by omega, ?_⟩
  rw [BitVec.toNat_and, hmask, Nat.and_two_pow_sub_one_eq_mod]

/-- A mask keeps what does not exceed it. -/
theorem and_mask_iff (h : WellTabled s d hash j ht ns) : w &&& ht.sizemask = w ↔ w ≤ ht.sizemask := by
  obtain ⟨k, hk, hmod⟩ := mask_toNat h w
  have hpos : 0 < 2 ^ k := by positivity
  have hlt := Nat.mod_lt w.toNat hpos
  rw [BitVec.le_def, ← BitVec.toNat_inj, hmod]
  constructor
  · intro heq
    omega
  · intro hle
    exact Nat.mod_eq_of_lt (by omega)

/-- The index of the second probe is that of the key, if the first mask took nothing from it. -/
theorem index_eq_iff (h : WellTabled s d hash j ht0 ns0) :
    w &&& ht0.sizemask &&& v = w &&& v ↔ (w &&& v) ≤ ht0.sizemask := by
  rw [← and_mask_iff h, BitVec.and_assoc, BitVec.and_comm ht0.sizemask v, ← BitVec.and_assoc]

theorem readOnly_getHt : ReadOnly (getHt d j) :=
  readOnly_getField.bind fun _ => readOnly_getField.bind fun _ => readOnly_getField.bind fun _ =>
    readOnly_getField.bind fun _ => readOnly_pure _

theorem getHt_fields (h : getHt d j s = .ok (ht, s)) :
    getField d (dictht.tableAt j) s = .ok (ht.table, s) ∧
      getField d (dictht.sizemaskAt j) s = .ok (ht.sizemask, s) := by
  have hwp : wp Any (getHt d j) (fun ht _ => getField d (dictht.tableAt j) s = .ok (ht.table, s) ∧
      getField d (dictht.sizemaskAt j) s = .ok (ht.sizemask, s)) s := by
    rw [getHt, wp_bind]
    apply wp_any; intro table s₁ htable
    obtain rfl := readOnly_getField _ _ _ htable
    rw [wp_bind]
    apply wp_any; intro size s₂ hsize
    obtain rfl := readOnly_getField _ _ _ hsize
    rw [wp_bind]
    apply wp_any; intro sizemask s₃ hmask
    obtain rfl := readOnly_getField _ _ _ hmask
    rw [wp_bind]
    apply wp_any; intro used s₄ _
    exact ⟨htable, hmask⟩
  exact hwp.of_ok h

/-- `getDictEntry` when the first bucket is empty. -/
theorem getDictEntry_second (hhash : _getHashKeyIndex T d key s = .ok (hash key, s))
    (h0 : getHt d 0 s = .ok (ht0, s)) (h1 : getHt d 1 s = .ok (ht1, s))
    (hempty : getField ht0.table (hash key &&& ht0.sizemask).toNat s = .ok (NULL, s))
    (hp : getField ht1.table (hash key &&& ht0.sizemask &&& ht1.sizemask).toNat s = .ok (p, s)) :
    getDictEntry T d key s = .ok (p, s) := by
  obtain ⟨htable0, hmask0⟩ := getHt_fields h0
  obtain ⟨htable1, hmask1⟩ := getHt_fields h1
  apply wp.eq_ok
  rw [getDictEntry, wp_bind]
  apply wp.of_eq hhash
  rw [wp_bind]
  apply wp.of_eq hmask0
  rw [wp_bind]
  apply wp.of_eq htable0
  rw [wp_bind]
  apply wp.of_eq hempty
  rw [if_neg (by simp), wp_bind]
  apply wp.of_eq hmask1
  rw [wp_bind]
  apply wp.of_eq htable1
  rw [wp_bind]
  apply wp.of_eq hp
  by_cases hnull : p = NULL
  · rw [hnull, if_neg (by simp)]
    exact ⟨rfl, rfl⟩
  · rw [if_pos hnull]
    exact ⟨rfl, rfl⟩

/-- Buckets with the same first entry have the same index. -/
theorem WellTabled.index_eq (h : WellTabled s d hash j ht ns) (hp : p ≠ NULL)
    (hw : getField ht.table (w &&& ht.sizemask).toNat s = .ok (p, s))
    (hv : getField ht.table (v &&& ht.sizemask).toNat s = .ok (p, s)) : w &&& ht.sizemask = v &&& ht.sizemask := by
  obtain ⟨q, hq, hchain⟩ := h.bucket w
  obtain ⟨q', hq', hchain'⟩ := h.bucket v
  obtain rfl := (Prod.mk.inj (Except.ok.inj (hw.symm.trans hq))).1
  obtain rfl := (Prod.mk.inj (Except.ok.inj (hv.symm.trans hq'))).1
  have heq := (Prod.mk.inj (Except.ok.inj (hchain.symm.trans hchain'))).1
  cases hns : ns.filter fun n => (hash n.2.1 &&& ht.sizemask).toNat = (w &&& ht.sizemask).toNat with
  | nil =>
    rw [hns] at hchain
    exact absurd (chain_nil hchain) hp
  | cons n rest =>
    have hn : n ∈ ns.filter fun n => (hash n.2.1 &&& ht.sizemask).toNat = (w &&& ht.sizemask).toNat := by
      rw [hns]
      exact List.mem_cons_self
    have hn' := heq ▸ hn
    simp only [List.mem_filter, decide_eq_true_eq] at hn hn'
    exact BitVec.eq_of_toNat_eq (hn.2.symm.trans hn'.2)

/-- With an empty bucket in the first table, a key of the second one is looked up in its own bucket
exactly if its bits under the second mask do not exceed the first mask. -/
theorem getDictEntry_probes_iff (T : Addr → Option dictType) (hash : Addr → Word) (s : State Globals)
    (d key : Addr) (ht0 ht1 : dictht) (ns0 ns1 : List (Addr × Addr × Addr))
    (hhash : _getHashKeyIndex T d key s = .ok (hash key, s)) (h0 : WellTabled s d hash 0 ht0 ns0)
    (h1 : WellTabled s d hash 1 ht1 ns1)
    (hempty : getField ht0.table (hash key &&& ht0.sizemask).toNat s = .ok (NULL, s))
    (hkey : ∃ n ∈ ns1, n.2.1 = key) :
    Probes T hash d key ht1 s ↔ (hash key &&& ht1.sizemask) ≤ ht0.sizemask := by
  obtain ⟨p, hp, hchain⟩ := h1.bucket (hash key)
  obtain ⟨q, hq, -⟩ := h1.bucket (hash key &&& ht0.sizemask)
  have hfound := getDictEntry_second hhash h0.header h1.header hempty hq
  rw [← index_eq_iff h0]
  constructor
  · rintro ⟨p', hp', hget, hprobe⟩
    obtain rfl := (Prod.mk.inj (Except.ok.inj (hprobe.symm.trans hfound))).1
    exact h1.index_eq hp' hq hget
  · intro heq
    rw [heq, hp] at hq
    obtain rfl := (Prod.mk.inj (Except.ok.inj hq)).1
    refine ⟨p, ?_, hp, hfound⟩
    rintro rfl
    obtain ⟨n, hn, rfl⟩ := hkey
    have hmem : n ∈ ns1.filter fun m => (hash m.2.1 &&& ht1.sizemask).toNat = (hash n.2.1 &&& ht1.sizemask).toNat := by
      simp [hn]
    rw [chain_of_null hchain] at hmem
    exact List.not_mem_nil hmem

/-- A dict whose second table has eight slots, and in the one for the key 5 an entry. -/
def probed₁ : State Globals := after (dictEntryCreate (bump 0) 5 50) wide₁
def probed₂ : State Globals := after (setField 0x3008 5 0x4008) probed₁

theorem wellTabled_probed : WellTabled probed₂ 0x1008 id 0 ⟨0x2008, 4, 3, 0⟩ [] ∧
    WellTabled probed₂ 0x1008 id 1 ⟨0x3008, 8, 7, 0⟩ [(0x4008, 5, 50)] := by
  have h0 : result (getHt 0x1008 0) probed₂ = some ⟨0x2008, 4, 3, 0⟩ := by decide +kernel
  have h1 : result (getHt 0x1008 1) probed₂ = some ⟨0x3008, 8, 7, 0⟩ := by decide +kernel
  have hslots0 : ∀ i < 4, result (getField 0x2008 i) probed₂ = some NULL := by decide +kernel
  have hslots1 : ∀ i < 8, result (getField 0x3008 i) probed₂ = some (if i = 5 then 0x4008 else NULL) := by
    decide +kernel
  have hchain : result (chain 0x4008) probed₂ = some [(0x4008, 5, 50)] := by decide +kernel
  have hnull : result (chain NULL) probed₂ = some [] := by decide +kernel
  generalize probed₂ = s at *
  constructor
  · refine ⟨readOnly_getHt.ok_of_result h0, ⟨2, by decide⟩, by decide, fun i hi => ⟨NULL, ?_, ?_⟩⟩
    · exact readOnly_getField.ok_of_result (hslots0 i hi)
    · exact readOnly_chain.ok_of_result hnull
  · refine ⟨readOnly_getHt.ok_of_result h1, ⟨3, by decide⟩, by decide, fun i hi =>
      ⟨if i = 5 then 0x4008 else NULL, ?_, ?_⟩⟩
    · exact readOnly_getField.ok_of_result (hslots1 i hi)
    · have hi : i < 8 := hi
      interval_cases i
      all_goals first
        | exact readOnly_chain.ok_of_result hnull
        | exact readOnly_chain.ok_of_result hchain

theorem hash_probed : _getHashKeyIndex plainType 0x1008 5 probed₂ = .ok (id 5, probed₂) ∧
    getField 0x2008 1 probed₂ = .ok (NULL, probed₂) := by
  have hhash : result (_getHashKeyIndex plainType 0x1008 5) probed₂ = some 5 := by decide +kernel
  have hempty : result (getField 0x2008 1) probed₂ = some NULL := by decide +kernel
  have hread : ReadOnly (_getHashKeyIndex plainType 0x1008 5) := by
    refine readOnly_getField.bind fun type => ?_
    split
    · exact readOnly_pure _
    · exact readOnly_stop _
  exact ⟨hread.ok_of_result hhash, readOnly_getField.ok_of_result hempty⟩

theorem getDictEntry_probes_iff_five :
    Probes plainType id 0x1008 5 ⟨0x3008, 8, 7, 0⟩ probed₂ ↔ (id 5 &&& 7 : Word) ≤ 3 :=
  getDictEntry_probes_iff plainType id probed₂ 0x1008 5 ⟨0x2008, 4, 3, 0⟩ ⟨0x3008, 8, 7, 0⟩ [] [(0x4008, 5, 50)]
    hash_probed.1 wellTabled_probed.1 wellTabled_probed.2 hash_probed.2 ⟨_, List.mem_singleton_self _, rfl⟩

/-- The key 5 is in the bucket 5 of the second table, and is looked up in the bucket 1. -/
theorem getDictEntry_misses_five : WellTabled probed₂ 0x1008 id 0 ⟨0x2008, 4, 3, 0⟩ [] ∧
    WellTabled probed₂ 0x1008 id 1 ⟨0x3008, 8, 7, 0⟩ [(0x4008, 5, 50)] ∧
    getField 0x2008 1 probed₂ = .ok (NULL, probed₂) ∧
    ¬ Probes plainType id 0x1008 5 ⟨0x3008, 8, 7, 0⟩ probed₂ := by
  refine ⟨wellTabled_probed.1, wellTabled_probed.2, hash_probed.2, ?_⟩
  rintro ⟨p, hp, -, hok⟩
  have hnone : result (getDictEntry plainType 0x1008 5) probed₂ = some NULL := by decide +kernel
  rw [result_of_ok hok] at hnone
  exact hp (Option.some.inj hnone)

end Redis
