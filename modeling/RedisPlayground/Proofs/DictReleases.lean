import RedisPlayground.Proofs.DictBooks
import RedisPlayground.Proofs.DictTables

/-! The release of a dict. Each entry is in the chain of one bucket, so that the walk over all
buckets frees each of them once. -/

namespace Redis

open CMem

/-- From `s` to `s'` the blocks `ps` were freed, each as often as it is in `ps`, nothing else was
called, and the other blocks are as they were. -/
structure FreesBlocks (ps : Multiset Addr) (s s' : State Globals) : Prop where
  log : ∃ fs : List Addr, (fs : Multiset Addr) = ps ∧
    s'.trace = fs.map (fun p => .free (p - PREFIX_SIZE)) ++ s.trace
  gone : ∀ p ∈ ps, block s'.mem p = none
  frame : ∀ q ∉ ps, block s'.mem q = block s.mem q

variable {L : Libc} {T : Addr → Option dictType} {E : Stop → Prop} {hash : Addr → Word}
  {s s' s'' s₀ s₁ : State Globals} {x : DDict} {p a d type privdata : Addr} {n : ℕ} {ps qs : Multiset Addr}
  {ns : List (Addr × Addr × Addr)} {ws : List Word} {y : State Globals × History}
  {tr : List ((State Globals × History) × DOp)}

theorem FreesBlocks.zero : FreesBlocks 0 s s :=
  ⟨⟨[], rfl, rfl⟩, fun p hp => absurd hp (Multiset.notMem_zero p), fun _ _ => rfl⟩

theorem FreesBlocks.trans (h : FreesBlocks ps s s') (h' : FreesBlocks qs s' s'') : FreesBlocks (ps + qs) s s'' := by
  obtain ⟨fs, rfl, htrace⟩ := h.log
  obtain ⟨gs, rfl, htrace'⟩ := h'.log
  refine ⟨⟨gs ++ fs, ?_, by rw [htrace', htrace, List.map_append, List.append_assoc]⟩, fun p hp => ?_, fun q hq => ?_⟩
  · rw [← Multiset.coe_add, add_comm]
  · by_cases hmem : p ∈ gs
    · exact h'.gone p hmem
    · rw [h'.frame p hmem]
      exact h.gone p ((Multiset.mem_add.mp hp).resolve_right hmem)
  · rw [Multiset.mem_add, not_or] at hq
    rw [h'.frame q hq.2, h.frame q hq.1]

/-- What was written into a block before it is freed does not count. -/
theorem FreesBlocks.zfree {m : Mem} {g : Globals} {bs : List Byte} (h : Holds m p bs)
    (hm : ∀ q ∉ [p], block m q = block s.mem q) :
    wp E (zfree p) (fun _ s' => FreesBlocks {p} s s') ⟨m, g, s.trace⟩ := by
  refine (wp_zfree h).mpr ⟨⟨[p], rfl, rfl⟩, fun q hq => ?_, fun q hq => ?_⟩
  · rw [Multiset.mem_singleton.mp hq, block_del_self]
  · have hqp : q ≠ p := fun heq => hq (Multiset.mem_singleton.mpr heq)
    rw [block_del_ne hqp]
    exact hm q fun hmem => hqp (List.mem_singleton.mp hmem)

theorem wp_dictEntryRelease (h : Holds s.mem p (words ws)) (hlen : ws.length = 3) :
    wp E (_dictEntryRelease p) (fun _ s' => FreesBlocks {p} s s') s := by
  have hc : Cells s.mem s.mem [(p, ws)] := Cells.one h
  match ws, hlen with
  | [_, _, _], _ =>
    refine wp_bind.mpr (hc.set 0 rfl rfl fun m hc => ?_)
    refine wp_bind.mpr (hc.set 0 rfl rfl fun m hc => ?_)
    refine wp_bind.mpr (hc.set 0 rfl rfl fun m hc => ?_)
    rw [safe_zfree, bind_assoc, wp_bind]
    exact FreesBlocks.zfree (hc.get_holds 0 rfl) hc.frame

/-- A chain is freed node by node; the link to the next node is read before the node is overwritten. -/
theorem wp_dictEntryReleaseChain (h : Linked (EntryAt s.mem) a ns NULL) (hns : (ns.map Prod.fst).Nodup)
    (hn : ns.length < n) :
    wp E (_dictEntryReleaseChain n (first ns NULL)) (fun _ s' => FreesBlocks ↑(ns.map Prod.fst) s s') s := by
  induction ns generalizing s a n with
  | nil =>
    obtain ⟨n, rfl⟩ := Nat.exists_eq_succ_of_ne_zero (Nat.ne_of_gt hn)
    rw [_dictEntryReleaseChain, first_nil, if_pos rfl]
    exact wp_pure.mpr FreesBlocks.zero
  | cons c ns ih =>
    obtain ⟨p, v⟩ := c
    obtain ⟨n, rfl⟩ := Nat.exists_eq_succ_of_ne_zero (Nat.ne_of_gt (Nat.zero_lt_of_lt hn))
    have hp : Holds s.mem p (words [v.1, v.2, first ns NULL]) := h.1
    obtain ⟨hpn, hns⟩ := List.nodup_cons.mp hns
    rw [_dictEntryReleaseChain, first_cons, if_neg hp.ne_null, wp_bind, wp_getField hp rfl, wp_bind]
    refine (wp_dictEntryRelease hp rfl).mono fun _ s₁ hfreed => ?_
    have hrest : Linked (EntryAt s₁.mem) p ns NULL := by
      refine h.2.mono fun q hq _ _ _ hcell => Holds.congr hcell (hfreed.frame q ?_)
      rw [Multiset.mem_singleton]
      exact ne_of_mem_of_not_mem hq hpn
    exact (ih hrest hns (Nat.lt_of_succ_lt_succ hn)).mono fun _ s' hfreed' => hfreed.trans hfreed'

/-- The entries in the first `n` buckets. -/
def DDict.upto (hash : Addr → Word) (x : DDict) (n : ℕ) : List Addr :=
  (x.entries.filter fun c => ix hash c.2 < n).map Prod.fst

theorem DDict.upto_succ : (↑(x.upto hash (n + 1)) : Multiset Addr) =
    ↑(x.upto hash n) + ↑((bucket (ix hash) x.entries n).map Prod.fst) := by
  rw [upto, upto, bucket, Multiset.coe_add, ← List.map_append, Multiset.coe_eq_coe]
  apply List.Perm.map
  have hsplit := List.filter_append_perm (fun c : Addr × Addr × Addr => ix hash c.2 < n)
    (x.entries.filter fun c => ix hash c.2 < n + 1)
  rw [List.filter_filter, List.filter_filter] at hsplit
  refine hsplit.symm.trans (List.Perm.of_eq ?_)
  congr 1 <;> refine List.filter_congr fun c _ => ?_
  · rw [Bool.eq_iff_iff, Bool.and_eq_true, decide_eq_true_iff, decide_eq_true_iff]
    omega
  · rw [Bool.eq_iff_iff, Bool.and_eq_true, Bool.not_eq_true', decide_eq_false_iff_not, decide_eq_true_iff,
      decide_eq_true_iff]
    omega

theorem DDict.upto_all : x.upto hash 4 = x.addrs := by
  rw [upto, List.filter_eq_self.mpr fun c _ => decide_eq_true ix_lt, addrs]

theorem DDict.upto_subset : x.upto hash n ⊆ x.addrs := (List.filter_sublist.map Prod.fst).subset

theorem DDict.notMem_upto (hn : x.addrs.Nodup) (hp : p ∈ (bucket (ix hash) x.entries n).map Prod.fst) :
    p ∉ x.upto hash n := by
  intro hmem
  obtain ⟨c, hc, rfl⟩ := List.mem_map.mp hp
  obtain ⟨c', hc', heq⟩ := List.mem_map.mp hmem
  obtain ⟨hc, hix⟩ := mem_bucket.mp hc
  obtain ⟨hc', hix'⟩ := List.mem_filter.mp hc'
  rw [List.inj_on_of_nodup_map hn hc' hc heq, hix, decide_eq_true_iff] at hix'
  exact Nat.lt_irrefl n hix'

/-- The first `n` buckets are freed. The others and the table are not reached. -/
theorem wp_dictEntryReleaseLoop (h : x.Ok hash s.mem) (hx : x.foot.Nodup) (hn : n ≤ 4) :
    wp E (_dictEntryReleaseLoop x.table n) (fun _ s' => FreesBlocks ↑(x.upto hash n) s s') s := by
  obtain ⟨-, htable, haddrs⟩ := DDict.foot_nodup.mp hx
  induction n with
  | zero =>
    have hnone : x.upto hash 0 = [] := by simp [DDict.upto]
    rw [hnone]
    exact wp_pure.mpr FreesBlocks.zero
  | succ n ih =>
    rw [_dictEntryReleaseLoop, wp_bind]
    refine (ih (by omega)).mono fun _ s₁ hfreed => ?_
    have hslots : Holds s₁.mem x.table (words (x.slots hash)) :=
      h.slots.congr (hfreed.frame _ fun hmem => htable (DDict.upto_subset hmem))
    have hchain : Linked (EntryAt s₁.mem) NULL (bucket (ix hash) x.entries n) NULL := by
      refine (h.chains n).mono fun q hq _ _ _ hcell => Holds.congr hcell (hfreed.frame q ?_)
      exact DDict.notMem_upto haddrs hq
    have hsub : ((bucket (ix hash) x.entries n).map Prod.fst).Sublist x.addrs := bucket_sublist.map Prod.fst
    have hlen : (bucket (ix hash) x.entries n).length < s₁.mem.keys.card := by
      have hnodup : (x.table :: (bucket (ix hash) x.entries n).map Prod.fst).Nodup :=
        List.nodup_cons.mpr ⟨fun hmem => htable (hsub.subset hmem), haddrs.sublist hsub⟩
      have hcard := length_le_card (m := s₁.mem) hnodup fun q hq => by
        rcases List.mem_cons.mp hq with rfl | hq
        · exact hslots.live
        · obtain ⟨_, _, _, hcell⟩ := Linked.node hchain hq
          exact Holds.live hcell
      rw [List.length_cons, List.length_map] at hcard
      omega
    rw [wp_bind, wp_getField hslots (slots_get hn), wp_bind, fuel, wp_bind, wp_get, wp_pure]
    refine (wp_dictEntryReleaseChain hchain (haddrs.sublist hsub) hlen).mono fun _ s' hfreed' => ?_
    rw [DDict.upto_succ]
    exact hfreed.trans hfreed'

/-- The block of the private data, if there is one. -/
def dataBlock (privdata : Addr) : Multiset Addr := if privdata = NULL then 0 else {privdata}

theorem mem_dataBlock (h : p ∈ dataBlock a) : a ≠ NULL ∧ p = a := by
  unfold dataBlock at h
  split_ifs at h with hnull
  · exact absurd h (Multiset.notMem_zero p)
  · exact ⟨hnull, Multiset.mem_singleton.mp h⟩

/-- The blocks that a release gives back. -/
def DDict.released (x : DDict) : Multiset Addr := dataBlock x.privdata + (↑x.addrs + {x.table}) + {x.addr}

/-- The first table and its entries. -/
theorem wp_dictHtRelease_first (h : x.Ok hash s.mem) (hx : x.foot.Nodup) :
    wp E (_dictHtRelease_ht x.addr 0) (fun _ s' => FreesBlocks (↑x.addrs + {x.table}) s s') s := by
  obtain ⟨⟨-, hd⟩, htable, -⟩ := DDict.foot_nodup.mp hx
  rw [_dictHtRelease_ht, wp_bind, _dictEntryRelease_ht, wp_bind, wp_getField h.header rfl, wp_bind,
    wp_getField h.header rfl]
  refine (wp_dictEntryReleaseLoop h hx (le_refl 4)).mono fun _ s₁ hfreed => ?_
  rw [DDict.upto_all] at hfreed
  have hd₁ : Holds s₁.mem x.addr (words x.header) := h.header.congr (hfreed.frame _ hd)
  have ht₁ : Holds s₁.mem x.table (words (x.slots hash)) := h.slots.congr (hfreed.frame _ htable)
  rw [wp_bind, wp_getField hd₁ rfl]
  exact (FreesBlocks.zfree ht₁ fun _ _ => rfl).mono fun _ s₂ hfreed' => hfreed.trans hfreed'

theorem DDict.notMem_first (hx : x.foot.Nodup) : x.addr ∉ (↑x.addrs + {x.table} : Multiset Addr) := by
  obtain ⟨⟨hdt, hd⟩, -⟩ := DDict.foot_nodup.mp hx
  rw [Multiset.mem_add, Multiset.mem_singleton, not_or]
  exact ⟨hd, hdt⟩

theorem wp_dictHtRelease (h : x.Ok hash s.mem) (hx : x.foot.Nodup) (h1 : x.ht1 = ⟨NULL, 0, 0, 0⟩) :
    wp E (_dictHtRelease x.addr) (fun _ s' => FreesBlocks (↑x.addrs + {x.table}) s s') s := by
  have hheader : x.header = [x.type, x.privdata, x.table, DICT_HT_INITIAL_SIZE, DICT_HT_INITIAL_SIZE - 1, 0,
      NULL, 0, 0, 0, x.rehash] := by rw [DDict.header, h1]
  rw [_dictHtRelease, wp_bind]
  refine (wp_dictHtRelease_first h hx).mono fun _ s₂ hfreed => ?_
  have hd₂ : Holds s₂.mem x.addr (words x.header) := h.header.congr (hfreed.frame _ (DDict.notMem_first hx))
  have hzero : (0 : Word).toNat = 0 := rfl
  rw [hheader] at hd₂
  rw [_dictHtRelease_ht, wp_bind, _dictEntryRelease_ht, wp_bind, wp_getField hd₂ rfl, wp_bind,
    wp_getField hd₂ rfl, hzero, _dictEntryReleaseLoop, wp_pure, wp_bind, wp_getField hd₂ rfl,
    wp_zfree_null]
  exact hfreed

theorem wp_privDataRelease {bs : List Byte} (h : x.Ok hash s.mem)
    (hpriv : x.privdata ≠ NULL → Holds s.mem x.privdata bs) :
    wp E (_privDataRelease x.addr) (fun _ s' => FreesBlocks (dataBlock x.privdata) s s') s := by
  rw [_privDataRelease, wp_bind, wp_getField h.header rfl, dataBlock]
  by_cases hnull : x.privdata = NULL
  · rw [if_pos hnull, if_pos hnull]
    exact wp_pure.mpr FreesBlocks.zero
  · rw [if_neg hnull, if_neg hnull]
    exact FreesBlocks.zfree (hpriv hnull) fun _ _ => rfl

/-- The private data and the dict itself, around what is freed with its tables. -/
theorem wp_dictRelease_around {bs : List Byte} (h : x.Ok hash s.mem)
    (hpriv : x.privdata ≠ NULL → Holds s.mem x.privdata bs ∧ x.privdata ∉ x.foot) (hps : x.addr ∉ ps)
    (htables : ∀ s₁, FreesBlocks (dataBlock x.privdata) s s₁ → x.Ok hash s₁.mem →
      wp E (_dictHtRelease x.addr) (fun _ s' => FreesBlocks ps s₁ s') s₁) :
    wp E (dictRelease x.addr) (fun _ s' => FreesBlocks (dataBlock x.privdata + ps + {x.addr}) s s') s := by
  rw [dictRelease, wp_bind]
  refine (wp_privDataRelease h fun hne => (hpriv hne).1).mono fun _ s₁ hfreed => ?_
  have h₁ : x.Ok hash s₁.mem := by
    refine h.congr fun q hq => hfreed.frame q fun hmem => ?_
    obtain ⟨hne, rfl⟩ := mem_dataBlock hmem
    exact (hpriv hne).2 hq
  rw [wp_bind]
  refine (htables s₁ hfreed h₁).mono fun _ s₂ hfreed' => ?_
  have hd₂ : Holds s₂.mem x.addr (words x.header) := h₁.header.congr (hfreed'.frame _ hps)
  rw [wp_bind]
  refine wp_dictReset (Cells.one hd₂) rfl fun m w hc => ?_
  rw [_dictFree, if_neg h.ne_null.1, safe_zfree, bind_assoc, wp_bind]
  refine (FreesBlocks.zfree (hc.get_holds 0 rfl) hc.frame).mono fun _ s' hfreed'' => ?_
  exact wp_bind.mpr (wp_pure.mpr (wp_pure.mpr ((hfreed.trans hfreed').trans hfreed'')))

/-- A release does not fail, and gives back each block of the dict once. -/
theorem wp_dictRelease {bs : List Byte} (h : x.Ok hash s.mem) (hx : x.foot.Nodup)
    (h1 : x.ht1 = ⟨NULL, 0, 0, 0⟩)
    (hpriv : x.privdata ≠ NULL → Holds s.mem x.privdata bs ∧ x.privdata ∉ x.foot) :
    wp E (dictRelease x.addr) (fun _ s' => FreesBlocks x.released s s') s :=
  wp_dictRelease_around h hpriv (DDict.notMem_first hx) fun _ _ h₁ => wp_dictHtRelease h₁ hx h1

/-- What is known of a dict after some additions: its blocks are all that is new since `s₀`. -/
structure Grew (s₀ : State Globals) (hash : Addr → Word) (privdata : Addr) (x : DDict)
    (y : State Globals × History) : Prop where
  kept : Kept hash x [] y
  privdata : x.privdata = privdata
  ht1 : x.ht1 = ⟨NULL, 0, 0, 0⟩
  updates : Updates s₀.mem y.1.mem 0 x.foot
  debt : debt y.1 = debt s₀

theorem Grew.run (hnew : dictCreate L type privdata s₀ = .ok (d, s₁)) (h : Run (dstep L T d) (s₁, []) tr y)
    (hadd : ∀ y ∈ tr, ∃ key val, y.2 = .dictAdd key val) :
    ∃ x : DDict, x.addr = d ∧ x.type = type ∧ Grew s₀ (hashOf T type) privdata x y := by
  obtain ⟨table, w, hu, hI⟩ := Kept.init hnew (hashOf T type)
  refine h.invariant (P := fun tr y => (∀ y ∈ tr, ∃ key val, y.2 = .dictAdd key val) →
    ∃ x : DDict, x.addr = d ∧ x.type = type ∧ Grew s₀ (hashOf T type) privdata x y)
    (fun _ => ⟨_, rfl, rfl, hI, rfl, rfl, hu, ?_⟩) ?_ hadd
  · exact (debt_law.dictCreate L type privdata s₀).of_ok hnew
  rintro tr ⟨s, H⟩ op ⟨s', H'⟩ hx ⟨hok, rfl⟩ hadd
  rw [List.forall_mem_append, List.forall_mem_singleton] at hadd
  obtain ⟨htr, key, val, rfl⟩ := hadd
  obtain ⟨x, rfl, rfl, hx⟩ := hx htr
  change (DOp.dictAdd key val).exec L T x.addr s = .ok ((), s') at hok
  obtain ⟨p, -, hu', hkept⟩ := (kept_add hx.kept).of_ok hok
  have hlaw : Obeys (fun s s' => Redis.debt s' = Redis.debt s) ((DOp.dictAdd key val).exec L T x.addr) :=
    debt_law.bind (debt_law.dictAdd L T _ _ _) fun _ => debt_law.pure _
  have hdebt : Redis.debt s' = Redis.debt s := (hlaw s).of_ok hok
  refine ⟨x.add p key val, rfl, rfl, hkept, hx.privdata, hx.ht1, ?_, hdebt.trans hx.debt⟩
  exact Update.trans hx.updates hu'

theorem debt_del {b : Addr} {bs : List Byte} (hb : Holds s.mem b bs) (hmem : s'.mem = del s.mem b)
    (hdebt : debt s' = debt s) :
    s'.glob.used_memory = s.glob.used_memory - (BitVec.ofNat 64 bs.length + PREFIX_SIZE) := by
  have hheader : header s.mem (b - PREFIX_SIZE) = BitVec.ofNat 64 bs.length := by
    rw [header_of_lookup hb.block, List.take_left' (by simp), bytesWord_wordBytes]
  unfold debt at hdebt
  rw [hmem, del, total_erase (mem_of_block hb.block), hheader] at hdebt
  rw [sub_sub_eq_add_sub, sub_left_inj] at hdebt
  exact eq_sub_of_add_eq hdebt

theorem DDict.released_eq : x.released = dataBlock x.privdata + x.foot := by
  rw [released, add_assoc, foot, ← Multiset.cons_coe, ← Multiset.cons_coe, ← Multiset.singleton_add,
    ← Multiset.singleton_add, add_comm _ ({x.addr} : Multiset Addr), add_comm _ ({x.table} : Multiset Addr)]

namespace Grew

variable {s : State Globals} {H : History} (hx : Grew s₀ hash x.privdata x (s, H))

include hx

theorem notMem_foot (hp : block s₀.mem p ≠ none) : p ∉ x.foot := fun hmem =>
  hp (hx.updates.fresh p hmem (Multiset.notMem_zero p))

theorem old (hp : p ∉ x.foot) : block s.mem p = block s₀.mem p :=
  hx.updates.frame p (Multiset.notMem_zero p) hp

theorem released_nodup (hpriv : x.privdata = NULL ∨ ∃ bs, Holds s₀.mem x.privdata bs) : x.released.Nodup := by
  rw [DDict.released_eq, Multiset.nodup_add]
  refine ⟨?_, hx.kept.tabled.nodup, ?_⟩
  · unfold dataBlock
    split_ifs
    · exact Multiset.nodup_zero
    · exact Multiset.nodup_singleton _
  · refine Multiset.disjoint_left.mpr fun {q} hq => ?_
    obtain ⟨hne, rfl⟩ := mem_dataBlock hq
    obtain ⟨bs, hbs⟩ := hpriv.resolve_left hne
    exact hx.notMem_foot hbs.live

/-- What a release leaves is the heap from before the creation, but for the private data. -/
theorem block_released (h : FreesBlocks x.released s s') {q : Addr} (hq : q ∉ dataBlock x.privdata) :
    block s'.mem q = block s₀.mem q := by
  rw [DDict.released_eq] at h
  by_cases hfoot : q ∈ x.foot
  · rw [h.gone q (Multiset.mem_add.mpr (Or.inr hfoot))]
    exact (hx.updates.fresh q hfoot (Multiset.notMem_zero q)).symm
  · rw [h.frame q fun hmem => (Multiset.mem_add.mp hmem).elim hq hfoot]
    exact hx.old hfoot

end Grew

/-- After a creation and any additions, a release ends, and gives back the dict, its one table, every
entry and the private data, each once. It reaches no other block, whatever the keys and values are.
The heap is then the one before the creation, without the private data, and so is the counter. -/
theorem dictRelease_frees_all (L : Libc) (T : Addr → Option dictType) (type privdata : Addr)
    (hash : Addr → Word) (hT : T type = some ⟨some hash⟩) (s₀ s₁ s : State Globals) (d : Addr)
    (hpriv : privdata = NULL ∨ ∃ bs, Holds s₀.mem privdata bs)
    (hnew : dictCreate L type privdata s₀ = .ok (d, s₁)) (H : History)
    (tr : List ((State Globals × History) × DOp)) (h : Run (dstep L T d) (s₁, []) tr (s, H))
    (hadd : ∀ y ∈ tr, ∃ key val, y.2 = .dictAdd key val) :
    ∃ ht ns, TableAt s d hash ht ns ∧ ns.map Prod.snd = H ∧ getHt d 1 s = .ok (⟨NULL, 0, 0, 0⟩, s) ∧
      (dataBlock privdata + (↑(ns.map Prod.fst) + {ht.table}) + {d}).Nodup ∧
      wp Never (dictRelease d) (fun _ s' =>
        FreesBlocks (dataBlock privdata + (↑(ns.map Prod.fst) + {ht.table}) + {d}) s s' ∧
        if privdata = NULL then s'.mem = s₀.mem ∧ s'.glob.used_memory = s₀.glob.used_memory
        else s'.mem = del s₀.mem privdata ∧ ∃ n, zsizeof privdata s₀ = .ok (n, s₀) ∧
          s'.glob.used_memory = s₀.glob.used_memory - (n + PREFIX_SIZE)) s := by
  obtain ⟨x, rfl, rfl, hx⟩ := Grew.run hnew h hadd
  have hhash : hashOf T x.type = hash := by rw [hashOf, hT]
  rw [hhash] at hx
  obtain ⟨hok, hn, hhist⟩ := hx.kept.tabled
  have hht1 := hx.ht1
  obtain rfl := hx.privdata
  refine ⟨_, x.entries, hok.tableAt hn, hhist, by rw [getHt_one hok, hht1], hx.released_nodup hpriv, ?_⟩
  have hlaw := debt_law.dictRelease x.addr s
  by_cases hnull : x.privdata = NULL
  · have hpriv : x.privdata ≠ NULL → Holds s.mem x.privdata [] ∧ x.privdata ∉ x.foot := fun hne => absurd hnull hne
    have hwp := wp_dictRelease (E := Never) hok hn hht1 hpriv
    refine (hwp.and_any hlaw).mono fun _ s' hpost => ⟨hpost.1, ?_⟩
    have hmem : s'.mem = s₀.mem := by
      refine mem_ext fun q => hx.block_released hpost.1 fun hq => ?_
      exact (mem_dataBlock hq).1 hnull
    rw [if_pos hnull]
    exact ⟨hmem, used_memory_of_debt (hpost.2.trans hx.debt) hmem⟩
  · obtain ⟨bs, hbs⟩ := hpriv.resolve_left hnull
    have hfoot := hx.notMem_foot hbs.live
    have hwp := wp_dictRelease (E := Never) hok hn hht1 fun _ => ⟨hbs.congr (hx.old hfoot), hfoot⟩
    refine (hwp.and_any hlaw).mono fun _ s' hpost => ⟨hpost.1, ?_⟩
    have hmem : s'.mem = del s₀.mem x.privdata := by
      refine mem_ext fun q => ?_
      by_cases hq : q = x.privdata
      · have hgone : q ∈ x.released := by
          rw [DDict.released_eq, hq, dataBlock, if_neg hnull]
          exact Multiset.mem_add.mpr (Or.inl (Multiset.mem_singleton_self _))
        rw [hpost.1.gone q hgone, hq, block_del_self]
      · rw [block_del_ne hq]
        exact hx.block_released hpost.1 fun hmem => hq (mem_dataBlock hmem).2
    have hsize : zsizeof x.privdata s₀ = .ok (BitVec.ofNat 64 bs.length, s₀) :=
      wp.eq_ok ((wp_zsizeof hbs).mpr ⟨rfl, rfl⟩)
    rw [if_neg hnull]
    exact ⟨hmem, _, hsize, debt_del hbs hmem (hpost.2.trans hx.debt)⟩

/-- A dict with private data and two keys in one chain. -/
def data₀ : State Globals := after (zmalloc (bump 0) 16) zinit
def data₁ : State Globals := after (dictCreate (bump 0) 1 0x1008) data₀
def data₂ : State Globals := after (DOp.exec (bump 0) plainType 0x2008 (.dictAdd 5 50)) data₁
def data₃ : State Globals := after (DOp.exec (bump 0) plainType 0x2008 (.dictAdd 9 90)) data₂

theorem dictRelease_frees_all_data :
    ∃ ht ns, TableAt data₃ 0x2008 id ht ns ∧ ns.map Prod.snd = [(9, 90), (5, 50)] ∧
      getHt 0x2008 1 data₃ = .ok (⟨NULL, 0, 0, 0⟩, data₃) ∧
      (dataBlock 0x1008 + (↑(ns.map Prod.fst) + {ht.table}) + {0x2008}).Nodup ∧
      wp Never (dictRelease 0x2008) (fun _ s' =>
        FreesBlocks (dataBlock 0x1008 + (↑(ns.map Prod.fst) + {ht.table}) + {0x2008}) data₃ s' ∧
        if (0x1008 : Addr) = NULL then s'.mem = data₀.mem ∧ s'.glob.used_memory = data₀.glob.used_memory
        else s'.mem = del data₀.mem 0x1008 ∧ ∃ n, zsizeof 0x1008 data₀ = .ok (n, data₀) ∧
          s'.glob.used_memory = data₀.glob.used_memory - (n + PREFIX_SIZE)) data₃ := by
  have hdata : Holds data₀.mem 0x1008 (List.replicate 16 0) := ⟨by decide +kernel, by decide, by decide, by decide⟩
  have hnew : dictCreate (bump 0) 1 0x1008 data₀ = .ok (0x2008, data₁) := ok_after (by decide +kernel)
  have h₁ : DOp.exec (bump 0) plainType 0x2008 (.dictAdd 5 50) data₁ = .ok ((), data₂) :=
    ok_after (by decide +kernel)
  have h₂ : DOp.exec (bump 0) plainType 0x2008 (.dictAdd 9 90) data₂ = .ok ((), data₃) :=
    ok_after (by decide +kernel)
  exact dictRelease_frees_all (bump 0) plainType 1 0x1008 id rfl data₀ data₁ data₃ 0x2008 (Or.inr ⟨_, hdata⟩)
    hnew [(9, 90), (5, 50)] [((data₁, []), .dictAdd 5 50), ((data₂, [(5, 50)]), .dictAdd 9 90)]
    ((Run.nil.snoc (dstep_of h₁)).snoc (dstep_of h₂)) (by simp)

end Redis
