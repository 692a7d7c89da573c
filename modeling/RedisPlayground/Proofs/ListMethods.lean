import RedisPlayground.Proofs.Lists

/-! The list functions that walk: the two releases, iterators, the search and
the copy. A walk needs no more steps than there are live blocks. -/

namespace Redis

open CMem

variable {L : Libc} {F : Methods} {m m' m₀ : Mem} {x : DList} {s : State Globals}
  {p v l f a b it : Addr} {w : Word} {ns xs ys : List (Addr × Addr)} {E : Stop → Prop}

section Release

variable {ps : List Addr} {R : List Addr → State Globals → Prop}

/-- The values `R` speaks of can be freed one after the other. Freeing one leaves the blocks `ps`
alone, and work on those blocks leaves `R` alone. -/
structure FreesAll (E : Stop → Prop) (F : Methods) (f : Addr) (ps : List Addr)
    (R : List Addr → State Globals → Prop) : Prop where
  keep : ∀ {vs s s'}, R vs s → Within ps s.mem s'.mem → Silent s s' → R vs s'
  free : ∀ {v vs s}, R (v :: vs) s → wp E (freed F f v) (fun _ s' => Spares ps s.mem s'.mem ∧ R vs s') s

/-- The loop of `listRelease` gives back the nodes `ns` and frees their values in order. -/
theorem wp_listReleaseLoop {hdr : List Word} (hh : Holds s.mem l (words hdr)) (hf : hdr[list.free]? = some f)
    (hlinks : Linked (NodeAt s.mem) a ns NULL) (hn : (l :: ns.map Prod.fst).Nodup)
    (hps : ∀ q ∈ l :: ns.map Prod.fst, q ∈ ps) (hfree : FreesAll E F f ps R) (hR : R (ns.map Prod.snd) s) :
    wp E (listReleaseLoop F l ns.length (first ns NULL)) (fun _ s' => R [] s' ∧
      (∀ q ∈ ns.map Prod.fst, block s'.mem q = none) ∧
      ∀ q ∈ ps, q ∉ ns.map Prod.fst → block s'.mem q = block s.mem q) s := by
  induction ns generalizing s a with
  | nil => exact wp_pure.mpr ⟨hR, by simp, fun _ _ _ => rfl⟩
  | cons n ns ih =>
    obtain ⟨p, v⟩ := n
    have hnode : NodeAt s.mem a p (first ns NULL) v := hlinks.1
    obtain ⟨⟨hlp, hl⟩, hp, hns⟩ : (l ≠ p ∧ l ∉ ns.map Prod.fst) ∧ p ∉ ns.map Prod.fst ∧ (ns.map Prod.fst).Nodup := by
      simpa [List.nodup_cons, not_or] using hn
    have hpps : p ∈ ps := hps p (by simp)
    rw [List.length_cons, listReleaseLoop, first_cons, wp_bind, wp_getField hnode rfl, wp_bind,
      wp_freeValue hh hf hnode]
    refine (hfree.free hR).mono fun _ s₁ hpost => ?_
    obtain ⟨hs, hR⟩ := hpost
    have hnode₁ : NodeAt s₁.mem a p (first ns NULL) v := hnode.congr (hs p hpps)
    refine wp_bind.mpr ((wp.and_any (Q := fun _ s' => s'.mem = del s₁.mem p) ?_
      (silent_law.zfree p s₁)).mono fun _ s₂ hpost => ?_)
    · exact (wp_zfree hnode₁).mpr rfl
    obtain ⟨hmem, hsilent⟩ := hpost
    have hother : ∀ q, q ≠ p → block s₂.mem q = block s₁.mem q := by
      intro q hq
      rw [hmem, block_del_ne hq]
    have hR₂ : R (ns.map Prod.snd) s₂ :=
      hfree.keep hR (fun q hq => hother q (ne_of_mem_of_not_mem hpps hq).symm) hsilent
    have hkept : ∀ q ∈ ps, q ≠ p → block s₂.mem q = block s.mem q := by
      intro q hq hne
      rw [hother q hne, hs q hq]
    refine (ih (a := p) (hh.congr (hkept l (hps l List.mem_cons_self) hlp)) ?_
      (List.nodup_cons.mpr ⟨hl, hns⟩) (fun q hq => hps q ?_) hR₂).mono fun _ s' hpost => ?_
    · refine hlinks.2.mono fun q hq _ _ _ hcell => hcell.congr (hkept q (hps q ?_) ?_)
      · exact List.mem_cons_of_mem _ (List.mem_cons_of_mem _ hq)
      · exact ne_of_mem_of_not_mem hq hp
    · rcases List.mem_cons.mp hq with rfl | hq
      · exact List.mem_cons_self
      · exact List.mem_cons_of_mem _ (List.mem_cons_of_mem _ hq)
    · obtain ⟨hR', hgone, hrest⟩ := hpost
      refine ⟨hR', fun q hq => ?_, fun q hq hnot => ?_⟩
      · rcases List.mem_cons.mp hq with rfl | hq
        · rw [hrest _ hpps hp, hmem, block_del_self]
        · exact hgone q hq
      · obtain ⟨hqp, hqn⟩ := not_or.mp (mt List.mem_cons.mpr hnot)
        rw [hrest q hq hqn, hkept q hq hqp]

theorem wp_listRelease (h : x.Hangs s.mem) (hfree : FreesAll E F x.free x.blocks R) (hR : R x.values s) :
    wp E (listRelease F x.addr) (fun _ s' => R [] s' ∧ ∀ q ∈ x.blocks, block s'.mem q = none) s := by
  have hn := h.nodup
  have hc := Cells.one h.header
  rw [listRelease, if_neg h.header.ne_null]
  refine wp_bind.mpr (hc.get 0 rfl rfl ?_)
  refine wp_bind.mpr (hc.get 0 rfl rfl ?_)
  rw [wp_bind, BitVec.toNat_ofNat, Nat.mod_eq_of_lt h.length_lt]
  refine (wp_listReleaseLoop h.header rfl h.links hn (fun q hq => hq) hfree hR).mono fun _ s₁ hpost => ?_
  obtain ⟨hR, hgone, hrest⟩ := hpost
  have hl : x.addr ∉ x.addrs := (List.nodup_cons.mp hn).1
  have hh : Holds s₁.mem x.addr (words x.header) := h.header.congr (hrest _ List.mem_cons_self hl)
  have hzfree := silent_law.bind (silent_law.safe_zfree x.addr) fun _ => silent_law.pure ()
  refine (wp.and_any (Q := fun _ s' => s'.mem = del s₁.mem x.addr) ?_ (hzfree s₁)).mono fun _ s' hpost => ?_
  · rw [safe_zfree, bind_assoc, wp_bind, wp_zfree hh]
    exact rfl
  · obtain ⟨hmem, hsilent⟩ := hpost
    refine ⟨hfree.keep hR (fun q hq => ?_) hsilent, fun q hq => ?_⟩
    · rw [hmem, block_del_ne (ne_of_mem_of_not_mem List.mem_cons_self hq).symm]
    · rw [hmem]
      by_cases hql : q = x.addr
      · rw [hql, block_del_self]
      · rw [block_del_ne hql]
        exact hgone q ((List.mem_cons.mp hq).resolve_left hql)

theorem safe_listReleaseLoop_eq (l : Addr) (n : ℕ) (curr : Addr) :
    safe_listReleaseLoop F l n curr = listReleaseLoop F l n curr := by
  induction n generalizing curr with
  | zero => rfl
  | succ n ih =>
    simp only [safe_listReleaseLoop, listReleaseLoop, safe_zfree, bind_assoc, pure_bind, ih]

/-- The two copies of the release do the same. -/
theorem safe_listRelease_eq (l : Addr) : safe_listRelease F l = do
    listRelease F l
    return NULL := by
  rw [safe_listRelease, listRelease]
  by_cases hl : l = NULL
  · rw [if_pos hl, if_pos hl, hl, pure_bind]
  · simp only [if_neg hl, safe_listReleaseLoop_eq, safe_zfree, bind_assoc, pure_bind]

end Release

section Walk

/-- A new iterator on a list whose header holds `hdr`. -/
theorem wp_listGetIterator {hdr : List Word} {hd tl : Addr} {dir : BitVec 32}
    (hh : Holds s.mem l (words hdr)) (hhd : hdr[list.head]? = some hd) (htl : hdr[list.tail]? = some tl) :
    wp Safe (listGetIterator L l dir) (fun it s' => block s.mem it = none ∧ ∃ w, w.setWidth 32 = dir ∧
      Cells s.mem s'.mem [(it, [if dir = FORWARD then hd else tl, w])]) s := by
  have hc₀ : Cells s.mem s.mem [] := Cells.nil
  rw [listGetIterator, wp_bind]
  refine hc₀.zmalloc (n := 2) rfl rfl (by norm_num) fun it ws m g t hlen hnew _ hc => ?_
  match ws, hlen with
  | [_, _], _ =>
    refine wp_bind.mpr (hc.setInt 0 rfl rfl fun m w hw hc => ?_)
    have hli : l ∉ [it] := fun hmem => ne_of_live hnew ⟨_, hh⟩ (List.mem_singleton.mp hmem)
    have hget : hdr[if dir = FORWARD then list.head else list.tail]? =
        some (if dir = FORWARD then hd else tl) := by
      split_ifs
      · exact hhd
      · exact htl
    rw [wp_bind, wp_getField (hc.other hli hh) hget]
    exact wp_bind.mpr (hc.set 0 rfl rfl fun m hc => wp_pure.mpr ⟨hnew, w, hw, hc⟩)

theorem wp_listNext {Q : Addr → State Globals → Prop} (hc : Cells m₀ s.mem [(it, [p, w])])
    (hp : NodeAt m₀ a p b v) (hne : p ≠ it)
    (hQ : ∀ m, Cells m₀ m [(it, [if w.setWidth 32 = FORWARD then b else a, w])] →
      Q p { s with mem := m }) : wp E (listNext it) Q s := by
  have hpi : p ∉ [it] := fun hmem => hne (List.mem_singleton.mp hmem)
  have hget : [a, b, v][if w.setWidth 32 = FORWARD then listNode.next else listNode.prev]? =
      some (if w.setWidth 32 = FORWARD then b else a) := by
    split_ifs <;> rfl
  refine wp_bind.mpr (hc.get 0 rfl rfl ?_)
  rw [if_neg hp.ne_null]
  refine wp_bind.mpr (hc.getInt 0 rfl rfl ?_)
  rw [wp_bind, wp_getField (hc.other hpi hp) hget]
  exact wp_bind.mpr (hc.set 0 rfl rfl fun m hc => wp_pure.mpr (hQ m hc))

theorem wp_listNext_null {Q : Addr → State Globals → Prop} (hc : Cells m₀ s.mem [(it, [NULL, w])])
    (hQ : Q NULL s) : wp E (listNext it) Q s := by
  refine wp_bind.mpr (hc.get 0 rfl rfl ?_)
  rw [if_pos rfl]
  exact wp_pure.mpr hQ

/-- An iterator that is released leaves no trace. -/
theorem wp_listReleaseIter {Q : Unit → State Globals → Prop} {ws : List Word} (hit : block m₀ it = none)
    (hc : Cells m₀ s.mem [(it, ws)]) (hQ : ∀ g t, Q () ⟨m₀, g, t⟩) :
    wp E (listReleaseIter it) Q s := by
  refine hc.zfree fun m g t hc => ?_
  obtain rfl : m = m₀ := by
    refine mem_ext fun q => ?_
    rw [hc.frame q List.not_mem_nil]
    by_cases hq : q = it
    · rw [hq, block_del_self, hit]
    · exact block_del_ne hq
  exact hQ g t

/-- On a value of the list, the match of `listSearchKey` is `hit`: it reads what is in `m`
and changes nothing. -/
def Matches (F : Methods) (m : Mem) (l key : Addr) (hit : Addr → Bool) (v : Addr) : Prop :=
  ∀ s : State Globals, Extends m s.mem →
    wp Never (listMatches F l v key) (fun r s' => r = hit v ∧ s'.mem = s.mem) s

/-- The same of a match that may run out of memory and that moves the state by `R`. -/
def MatchesBy (E : Stop → Prop) (R : State Globals → State Globals → Prop) (F : Methods) (m : Mem)
    (l key : Addr) (hit : Addr → Bool) (v : Addr) : Prop :=
  ∀ s : State Globals, Extends m s.mem →
    wp E (listMatches F l v key) (fun r s' => r = hit v ∧ s'.mem = s.mem ∧ R s s') s

variable {R : State Globals → State Globals → Prop}

theorem wp_listSearchKeyLoop {key : Addr} {hit : Addr → Bool} {n : ℕ} (hR : Law R)
    (hm : ∀ v ∈ ns.map Prod.snd, MatchesBy E R F m₀ l key hit v) (hlinks : Linked (NodeAt m₀) a ns NULL)
    (hnew : block m₀ it = none) (hc : Cells m₀ s.mem [(it, [first ns NULL, w])])
    (hw : w.setWidth 32 = FORWARD) (hn : ns.length < n) :
    wp E (listSearchKeyLoop F l key it n) (fun r s' => (s'.mem = m₀ ∧
      r = first (ns.dropWhile fun n => !hit n.2) NULL) ∧ R s s') s := by
  induction ns generalizing s n a with
  | nil =>
    obtain ⟨n, rfl⟩ := Nat.exists_eq_succ_of_ne_zero (Nat.ne_of_gt hn)
    have hrun : wp E (listNext it) (fun node s' => (node = NULL ∧ s' = s) ∧ R s s') s :=
      (wp_listNext_null hc ⟨rfl, rfl⟩).and_any (hR.listNext it s)
    refine wp_bind.mpr (hrun.mono fun node s₁ hpost => ?_)
    obtain ⟨⟨rfl, rfl⟩, hR₁⟩ := hpost
    rw [if_pos rfl, wp_bind]
    have hend : wp E (listReleaseIter it) (fun _ s' => s'.mem = m₀) s₁ :=
      wp_listReleaseIter hnew hc fun g t => rfl
    refine (hend.and_any (hR.zfree it s₁)).mono fun _ s' hpost => wp_pure.mpr ?_
    exact ⟨⟨hpost.1, rfl⟩, hR.trans hR₁ hpost.2⟩
  | cons y ns ih =>
    obtain ⟨p, v⟩ := y
    obtain ⟨n, rfl⟩ := Nat.exists_eq_succ_of_ne_zero (Nat.ne_of_gt (Nat.zero_lt_of_lt hn))
    have hnode : NodeAt m₀ a p (first ns NULL) v := hlinks.1
    have hc : Cells m₀ s.mem [(it, [p, w])] := hc
    have hpi : p ≠ it := ne_of_live hnew ⟨_, hnode⟩
    have hrun : wp E (listNext it) (fun node s' => (node = p ∧
        Cells m₀ s'.mem [(it, [first ns NULL, w])]) ∧ R s s') s := by
      refine (wp_listNext hc hnode hpi fun m hc => ⟨rfl, ?_⟩).and_any (hR.listNext it s)
      rwa [if_pos hw] at hc
    refine wp_bind.mpr (hrun.mono fun node s₁ hpost => ?_)
    obtain ⟨⟨rfl, hc₁⟩, hR₁⟩ := hpost
    rw [if_neg hnode.ne_null]
    have hp := hc₁.other (fun hmem => hpi (List.mem_singleton.mp hmem)) hnode
    rw [wp_bind, wp_getField hp rfl, wp_bind]
    have hsame : Extends m₀ s₁.mem := by
      intro q hq
      refine hc₁.frame q fun hmem => hq ?_
      rw [List.mem_singleton.mp hmem, hnew]
    refine (hm v List.mem_cons_self s₁ hsame).mono fun r s₂ hpost => ?_
    obtain ⟨rfl, hmem, hR₂⟩ := hpost
    have hR₂ := hR.trans hR₁ hR₂
    rw [← hmem] at hc₁
    by_cases hv : hit v
    · rw [if_pos hv, wp_bind]
      have hend : wp E (listReleaseIter it) (fun _ s' => s'.mem = m₀) s₂ :=
        wp_listReleaseIter hnew hc₁ fun g t => rfl
      refine (hend.and_any (hR.zfree it s₂)).mono fun _ s' hpost => wp_pure.mpr ?_
      refine ⟨⟨hpost.1, ?_⟩, hR.trans hR₂ hpost.2⟩
      rw [List.dropWhile_cons_of_neg (by simpa using hv), first_cons]
    · rw [if_neg hv]
      refine (ih (fun u hu => hm u (List.mem_cons_of_mem _ hu)) hlinks.2 hc₁ ?_).mono fun r s' hpost => ?_
      · simpa using hn
      · rw [List.dropWhile_cons_of_pos (by simpa using hv)]
        exact ⟨hpost.1, hR.trans hR₂ hpost.2⟩

/-- The search leaves the heap as it was, and returns the first node that matches. -/
theorem wp_listSearchKeyBy {key : Addr} {hit : Addr → Bool} (hR : Law R) (h : x.Hangs s.mem)
    (hm : ∀ v ∈ x.values, MatchesBy Safe R F s.mem x.addr key hit v) :
    wp Safe (listSearchKey L F x.addr key) (fun r s' => (s'.mem = s.mem ∧
      r = first (x.nodes.dropWhile fun n => !hit n.2) NULL) ∧ R s s') s := by
  rw [listSearchKey, wp_bind]
  refine ((wp_listGetIterator h.header rfl rfl).and_any (hR.listGetIterator L _ _ s)).mono fun it s₁ hpost => ?_
  obtain ⟨⟨hnew, w, hw, hc⟩, hR₁⟩ := hpost
  rw [if_pos rfl] at hc
  rw [fuel, bind_assoc, wp_bind, wp_get]
  have hlen : x.nodes.length < s₁.mem.keys.card := by
    refine (h.congr fun q hq => hc.frame q fun hmem => ?_).length_lt_card
    exact ne_of_live hnew (h.live hq) (List.mem_singleton.mp hmem)
  refine (wp_listSearchKeyLoop hR hm h.links hnew hc hw hlen).mono fun r s' hpost => ?_
  exact ⟨hpost.1, hR.trans hR₁ hpost.2⟩

theorem wp_listSearchKey {key : Addr} {hit : Addr → Bool} (h : x.Hangs s.mem)
    (hm : ∀ v ∈ x.values, Matches F s.mem x.addr key hit v) :
    wp Safe (listSearchKey L F x.addr key) (fun r s' => s'.mem = s.mem ∧
      r = first (x.nodes.dropWhile fun n => !hit n.2) NULL) s := by
  refine (wp_listSearchKeyBy trivial_law h fun v hv s' hs => ?_).mono fun r s' hpost => hpost.1
  exact ((hm v hv s' hs).weaken fun _ h => h.elim).mono fun r s'' hpost => ⟨hpost.1, hpost.2, trivial⟩

/-- The loop of `listIndex`, when it is `i` nodes into the list and `ns` are left. -/
theorem wp_listIndexLoop {i index : BitVec 32} {n : ℕ} (hlinks : Linked (NodeAt s.mem) a ns NULL)
    (hlen : i.toNat + ns.length < 2 ^ 32) (hi : i.toNat ≤ index.toNat) (hn : ns.length < n) :
    wp Never (listIndexLoop index n i (first ns NULL)) (fun r s' =>
      r = ((ns.map Prod.fst)[index.toNat - i.toNat]?).getD NULL ∧ s' = s) s := by
  induction ns generalizing a i n with
  | nil =>
    obtain ⟨n, rfl⟩ := Nat.exists_eq_succ_of_ne_zero (Nat.ne_of_gt hn)
    rw [listIndexLoop, first_nil, if_pos rfl]
    exact wp_pure.mpr ⟨rfl, rfl⟩
  | cons y ns ih =>
    obtain ⟨p, v⟩ := y
    obtain ⟨n, rfl⟩ := Nat.exists_eq_succ_of_ne_zero (Nat.ne_of_gt (Nat.zero_lt_of_lt hn))
    have hnode : NodeAt s.mem a p (first ns NULL) v := hlinks.1
    rw [List.length_cons] at hlen hn
    rw [listIndexLoop, first_cons, if_neg hnode.ne_null]
    by_cases hindex : i = index
    · rw [if_pos hindex, hindex, Nat.sub_self]
      exact wp_pure.mpr ⟨rfl, rfl⟩
    · rw [if_neg hindex, wp_bind, wp_getField hnode rfl]
      -- the counter goes up by one, as there is one more node before `index`
      have hne : i.toNat ≠ index.toNat := fun heq => hindex (BitVec.toNat_injective heq)
      have hsucc : (i + 1).toNat = i.toNat + 1 := by
        have hone : (1 : BitVec 32).toNat = 1 := rfl
        rw [BitVec.toNat_add, hone]
        exact Nat.mod_eq_of_lt (by omega)
      have hstep : index.toNat - i.toNat = index.toNat - (i + 1).toNat + 1 := by omega
      refine (ih hlinks.2 (by omega) (by omega) (by omega)).mono fun r s' hpost => ?_
      rw [hstep, List.map_cons, List.getElem?_cons_succ]
      exact hpost

/-- `listIndex` counts the nodes from the head. A negative number is too large, taken as an unsigned
one. -/
theorem listIndex_eq (h : x.Hangs s.mem) (hlen : x.nodes.length < 2 ^ 31) (index : BitVec 32) :
    listIndex x.addr index s = .ok (x.addrs[index.toNat]?.getD NULL, s) := by
  apply wp.eq_ok
  rw [listIndex, wp_bind, wp_getField h.header rfl, fuel, bind_assoc, wp_bind, wp_get]
  have hzero : (0 : BitVec 32).toNat = 0 := rfl
  exact wp_listIndexLoop h.links (by rw [hzero]; omega) (Nat.zero_le _) h.length_lt_card

end Walk

end Redis
