import RedisPlayground.Proofs.ListMethods

/-! Lists that own their values. A list with a free method owns the values in
its nodes beside its own blocks, as long as that method frees its argument. The
functions that change a list are described by the addresses it owns. -/

namespace Redis

open CMem

def DList.foot (x : DList) : Multiset Addr := ↑(x.addr :: (x.addrs ++ owns x.free x.values))

structure DList.Ok (m : Mem) (x : DList) : Prop where
  header : Holds m x.addr (words x.header)
  links : Linked (NodeAt m) NULL x.nodes NULL
  values : ∀ v ∈ owns x.free x.values, ∃ bs, Holds m v bs

variable {L : Libc} {F : Methods} {m m' m₀ : Mem} {x : DList} {p v l f a b : Addr}
  {ns xs ys : List (Addr × Addr)} {s : State Globals} {E : Stop → Prop}

theorem mem_owns {u : Addr} {vs : List Addr} : u ∈ owns f vs ↔ f ≠ NULL ∧ u ∈ vs := by
  unfold owns
  split_ifs with h
  · exact iff_of_false List.not_mem_nil fun hu => hu.1 h
  · exact (and_iff_right h).symm

theorem owns_append (f : Addr) (us vs : List Addr) : owns f (us ++ vs) = owns f us ++ owns f vs := by
  unfold owns
  split_ifs <;> simp

theorem owns_cons (f v : Addr) (vs : List Addr) : owns f (v :: vs) = owns f [v] ++ owns f vs :=
  owns_append f [v] vs

@[simp] theorem owns_nil : owns f [] = [] := by simp [owns]

theorem owns_null {vs : List Addr} : owns NULL vs = [] := if_pos rfl

theorem owns_of_ne (hf : f ≠ NULL) {vs : List Addr} : owns f vs = vs := if_neg hf

theorem owns_le {vs : List Addr} : (↑(owns f vs) : Multiset Addr) ≤ ↑vs := by
  unfold owns
  split_ifs
  · exact Multiset.zero_le _
  · exact le_refl _

theorem DList.mem_foot : p ∈ x.foot ↔ p = x.addr ∨ p ∈ x.addrs ∨ p ∈ owns x.free x.values := by
  rw [foot, Multiset.mem_coe, List.mem_cons, List.mem_append]

@[simp] theorem DList.foot_nil {d f mt : Addr} : DList.foot ⟨l, [], d, f, mt⟩ = {l} := by
  rw [foot, values, List.map_nil, owns_nil]
  rfl

theorem DList.foot_eq : x.foot = ↑(x.addr :: x.addrs) + ↑(owns x.free x.values) := rfl

theorem DList.foot_nodup : x.foot.Nodup ↔ (x.addr ∉ x.addrs ∧ x.addr ∉ owns x.free x.values) ∧
    x.addrs.Nodup ∧ (owns x.free x.values).Nodup ∧ ∀ p ∈ x.addrs, p ∉ owns x.free x.values := by
  rw [foot, Multiset.coe_nodup, List.nodup_cons, List.mem_append, not_or, List.nodup_append]
  exact and_congr_right fun _ => and_congr_right fun _ => and_congr_right fun _ =>
    ⟨fun h p hp hq => h p hp p hq rfl, fun h p hp q hq heq => h p hp (heq ▸ hq)⟩

theorem DList.blocks_le_foot : (↑x.blocks : Multiset Addr) ≤ x.foot := by
  rw [foot_eq]
  exact Multiset.le_add_right _ _

theorem DList.Ok.live (h : x.Ok m) (hp : p ∈ x.foot) : ∃ bs, Holds m p bs := by
  rcases mem_foot.mp hp with rfl | hp | hp
  · exact ⟨_, h.header⟩
  · obtain ⟨c, d, w, hnode⟩ := Linked.node h.links hp
    exact ⟨_, hnode⟩
  · exact h.values p hp

theorem DList.Ok.congr (h : x.Ok m) (hm : ∀ p ∈ x.foot, block m' p = block m p) : x.Ok m' where
  header := h.header.congr (hm _ (mem_foot.mpr (Or.inl rfl)))
  links := h.links.mono fun q hq _ _ _ hnode =>
    hnode.congr (hm q (mem_foot.mpr (Or.inr (Or.inl hq))))
  values v hv := by
    obtain ⟨bs, hbs⟩ := h.values v hv
    exact ⟨bs, hbs.congr (hm v (mem_foot.mpr (Or.inr (Or.inr hv))))⟩

theorem DList.Ok.hangs (h : x.Ok m) : x.Hangs m := ⟨h.header, h.links⟩

/-- What a list owns besides the node `(p, v)`. -/
theorem DList.foot_node (x : DList) (p v : Addr) (xs ys : List (Addr × Addr)) : (x.setNodes (xs ++ (p, v) :: ys)).foot =
    p ::ₘ ((x.setNodes (xs ++ ys)).foot + ↑(owns x.free [v])) := by
  simp only [foot, addrs, values, setNodes, List.map_append, List.map_cons, owns_append,
    owns_cons _ _ (ys.map Prod.snd), ← Multiset.coe_add, ← Multiset.cons_coe, ← Multiset.singleton_add]
  abel

/-- An empty list owns its header. -/
theorem DList.Ok.create {d f mt : Addr} (hnew : block m l = none)
    (hc : Cells m m' [(l, [NULL, NULL, 0, d, f, mt])]) :
    Updates m m' 0 (DList.foot ⟨l, [], d, f, mt⟩) ∧ DList.Ok m' ⟨l, [], d, f, mt⟩ := by
  refine ⟨?_, hc.get_holds 0 rfl, trivial, by simp [DList.values]⟩
  rw [foot_nil]
  apply hc.updates (by simp) (by simp) (by simp)
  intro q hq _
  rw [Multiset.mem_singleton.mp hq]
  exact hnew

/-- A value that is added to a list with a free method comes to belong to the list. -/
theorem DList.Ok.add (h : (x.setNodes (xs ++ ys)).Ok m) (ha : Added m m' x xs p v ys)
    (hn : ((x.setNodes (xs ++ ys)).foot + ↑(owns x.free [v])).Nodup)
    (hv : ∀ u ∈ owns x.free [v], ∃ bs, Holds m u bs) :
    Updates m m' ((x.setNodes (xs ++ ys)).foot + ↑(owns x.free [v]))
        (x.setNodes (xs ++ (p, v) :: ys)).foot ∧
      (x.setNodes (xs ++ (p, v) :: ys)).Ok m' := by
  have hlive : ∀ q ∈ (x.setNodes (xs ++ ys)).foot + ↑(owns x.free [v]), ∃ bs, Holds m q bs := by
    intro q hq
    rcases Multiset.mem_add.mp hq with hq | hq
    · exact h.live hq
    · exact hv q hq
  have hp : p ∉ (x.setNodes (xs ++ ys)).foot + ↑(owns x.free [v]) :=
    fun hmem => ne_of_live ha.fresh (hlive p hmem) rfl
  have hframe : ∀ q, q ≠ p → q ∉ (x.setNodes (xs ++ ys)).blocks → block m' q = block m q := by
    intro q hqp hq
    apply ha.within
    rw [List.mem_cons, not_or]
    exact ⟨hqp, hq⟩
  refine ⟨⟨?_, ?_, ?_, ?_⟩, ha.hangs.header, ha.hangs.links, fun u hu => ?_⟩
  · rw [foot_node]
    exact Multiset.nodup_cons.mpr ⟨hp, hn⟩
  · intro q hq hnot
    rw [foot_node] at hq
    obtain rfl := (Multiset.mem_cons.mp hq).resolve_right hnot
    exact ha.fresh
  · intro q hq hnot
    rw [foot_node] at hnot
    exact absurd (Multiset.mem_cons_of_mem hq) hnot
  · intro q hq hnot
    rw [foot_node, Multiset.mem_cons, not_or] at hnot
    refine hframe q hnot.1 fun hmem => hq (Multiset.mem_add.mpr (Or.inl ?_))
    exact Multiset.mem_of_le blocks_le_foot (Multiset.mem_coe.mpr hmem)
  · have hu' : u ∈ owns x.free (x.setNodes (xs ++ ys)).values ++ owns x.free [v] := by
      simp only [DList.values, setNodes, mem_owns, List.mem_append, List.map_append, List.map_cons,
        List.mem_cons, List.not_mem_nil, or_false] at hu ⊢
      tauto
    have hmem : u ∈ (x.setNodes (xs ++ ys)).foot + ↑(owns x.free [v]) := by
      rw [foot_eq, add_assoc]
      exact Multiset.mem_add.mpr (Or.inr (Multiset.mem_coe.mpr hu'))
    rw [foot_eq, add_assoc] at hn
    obtain ⟨bs, hbs⟩ := hlive u hmem
    refine ⟨bs, hbs.congr (hframe u (ne_of_mem_of_not_mem hmem hp) fun hl => ?_)⟩
    exact Multiset.disjoint_left.mp (Multiset.nodup_add.mp hn).2.2 hl (Multiset.mem_coe.mpr hu')

theorem DList.Ok.wp_listAddNodeHead (h : x.Ok s.mem) (hn : (x.foot + ↑(owns x.free [v])).Nodup)
    (hv : ∀ u ∈ owns x.free [v], ∃ bs, Holds s.mem u bs) :
    wp Safe (listAddNodeHead L x.addr v) (fun r s' => r = x.addr ∧ ∃ p,
      block s.mem p = none ∧
      Updates s.mem s'.mem (x.foot + ↑(owns x.free [v])) (x.setNodes ((p, v) :: x.nodes)).foot ∧
      (x.setNodes ((p, v) :: x.nodes)).Ok s'.mem) s := by
  refine (Redis.wp_listAddNodeHead h.hangs).mono fun r s' hpost => ?_
  obtain ⟨hr, p, ha⟩ := hpost
  exact ⟨hr, p, ha.fresh, DList.Ok.add h ha hn hv⟩

theorem DList.Ok.wp_listAddNodeTail (h : x.Ok s.mem) (hn : (x.foot + ↑(owns x.free [v])).Nodup)
    (hv : ∀ u ∈ owns x.free [v], ∃ bs, Holds s.mem u bs) :
    wp Safe (listAddNodeTail L x.addr v) (fun r s' => r = x.addr ∧ ∃ p,
      block s.mem p = none ∧
      Updates s.mem s'.mem (x.foot + ↑(owns x.free [v])) (x.setNodes (x.nodes ++ [(p, v)])).foot ∧
      (x.setNodes (x.nodes ++ [(p, v)])).Ok s'.mem) s := by
  have heq : x.setNodes (x.nodes ++ []) = x := by rw [List.append_nil]; rfl
  refine (Redis.wp_listAddNodeTail h.hangs).mono fun r s' hpost => ?_
  obtain ⟨hr, p, ha⟩ := hpost
  have hadd := DList.Ok.add (heq.symm ▸ h) ha (heq.symm ▸ hn) hv
  rw [heq] at hadd
  exact ⟨hr, p, ha.fresh, hadd⟩

/-- The value that goes with a node is live, and no part of the list. -/
theorem DList.Ok.value (h : (x.setNodes (xs ++ (p, v) :: ys)).Ok m)
    (hn : (x.setNodes (xs ++ (p, v) :: ys)).foot.Nodup) : ∀ u ∈ owns x.free [v],
      (∃ bs, Holds m u bs) ∧ u ∉ (x.setNodes (xs ++ (p, v) :: ys)).blocks := by
  intro u hu
  have hmem : u ∈ owns x.free (x.setNodes (xs ++ (p, v) :: ys)).values := by
    simp only [mem_owns, DList.values, setNodes, List.map_append, List.map_cons, List.mem_append,
      List.mem_cons, List.not_mem_nil, or_false] at hu ⊢
    tauto
  obtain ⟨⟨-, hl⟩, -, -, hv⟩ := foot_nodup.mp hn
  refine ⟨h.values u hmem, fun hb => ?_⟩
  rcases List.mem_cons.mp hb with rfl | hb
  · exact hl hmem
  · exact hv u hb hmem

/-- Freeing `v` from a list with free method `f` reaches no block but that of `v`, if it reaches
any, and ends in a state satisfying `R`. -/
def FreesOwned (E : Stop → Prop) (F : Methods) (f v : Addr) (R : State Globals → Prop)
    (s : State Globals) : Prop :=
  wp E (freed F f v) (fun _ s' => (∀ q ∉ owns f [v], block s'.mem q = block s.mem q) ∧ R s') s

/-- What `listDelNode` does to the addresses the list owns, whatever the free method leaves of the
value. -/
theorem DList.Ok.remove {s₁ s₂ s' : State Globals} (h : (x.setNodes (xs ++ (p, v) :: ys)).Ok s.mem)
    (hn : (x.setNodes (xs ++ (p, v) :: ys)).foot.Nodup)
    (hw : Within (x.setNodes (xs ++ (p, v) :: ys)).blocks s.mem s₁.mem)
    (hfreed : ∀ q ∉ owns x.free [v], block s₂.mem q = block s₁.mem q)
    (hr : Removed s₂ s' x xs p v ys) :
    Change (block s.mem) (block s'.mem) (x.setNodes (xs ++ (p, v) :: ys)).foot (x.setNodes (xs ++ ys)).foot ∧
      (x.setNodes (xs ++ ys)).Ok s'.mem := by
  have hfoot := foot_node x p v xs ys
  have hn' := hn
  rw [hfoot] at hn'
  obtain ⟨hp, hsum⟩ := Multiset.nodup_cons.mp hn'
  obtain ⟨hS, -, hdisj⟩ := Multiset.nodup_add.mp hsum
  have hframe : ∀ q ∉ (x.setNodes (xs ++ (p, v) :: ys)).blocks, q ∉ owns x.free [v] →
      block s'.mem q = block s.mem q := by
    intro q hq hv
    rw [hr.within q hq, hfreed q hv, hw q hq]
  refine ⟨⟨hS, fun q hq hnot => ?_, fun q hq _ => ?_⟩, hr.hangs.header, hr.hangs.links, fun u hu => ?_⟩
  · rw [hfoot] at hnot
    exact absurd (Multiset.mem_cons_of_mem (Multiset.mem_add.mpr (Or.inl hq))) hnot
  · refine hframe q (fun hmem => hq (Multiset.mem_of_le blocks_le_foot (Multiset.mem_coe.mpr hmem))) ?_
    intro hmem
    rw [hfoot] at hq
    exact hq (Multiset.mem_cons_of_mem (Multiset.mem_add.mpr (Or.inr (Multiset.mem_coe.mpr hmem))))
  · have hmem : u ∈ (x.setNodes (xs ++ ys)).foot := mem_foot.mpr (Or.inr (Or.inr hu))
    have huv : u ∉ owns x.free [v] := fun hv =>
      Multiset.disjoint_left.mp hdisj hmem (Multiset.mem_coe.mpr hv)
    obtain ⟨bs, hbs⟩ := h.live (hfoot ▸ Multiset.mem_cons_of_mem (Multiset.mem_add.mpr (Or.inl hmem)))
    refine ⟨bs, hbs.congr (hframe u (fun hb => ?_) huv)⟩
    rcases List.mem_cons.mp (blocks_node.mem_iff.mp hb) with rfl | hb
    · exact hp (Multiset.mem_add.mpr (Or.inl hmem))
    · rw [foot_eq] at hS
      exact Multiset.disjoint_left.mp (Multiset.nodup_add.mp hS).2.2 hb (Multiset.mem_coe.mpr hu)

theorem DList.Ok.wp_listDelNode {R : State Globals → Prop} (h : (x.setNodes (xs ++ (p, v) :: ys)).Ok s.mem)
    (hn : (x.setNodes (xs ++ (p, v) :: ys)).foot.Nodup)
    (hfree : ∀ s₁, (∀ u ∈ owns x.free [v], ∃ bs, Holds s₁.mem u bs) → Silent s s₁ →
      FreesOwned E F x.free v R s₁) :
    wp E (listDelNode F x.addr p) (fun _ s' => ∃ s₂, R s₂ ∧ Removed s₂ s' x xs p v ys ∧
      Change (block s.mem) (block s'.mem) (x.setNodes (xs ++ (p, v) :: ys)).foot (x.setNodes (xs ++ ys)).foot ∧
      (x.setNodes (xs ++ ys)).Ok s'.mem) s := by
  have hvalue := h.value hn
  have hdis : Discards E F x.free v (x.setNodes (xs ++ (p, v) :: ys)).blocks (fun s₂ => R s₂ ∧
      ∃ s₁ : State Globals, Within (x.setNodes (xs ++ (p, v) :: ys)).blocks s.mem s₁.mem ∧
        ∀ q ∉ owns x.free [v], block s₂.mem q = block s₁.mem q) s := by
    intro s₁ hw hsilent
    refine (hfree s₁ (fun u hu => ?_) hsilent).mono fun _ s₂ hpost => ⟨fun q hq => ?_, hpost.2, s₁, hw, hpost.1⟩
    · obtain ⟨⟨bs, hbs⟩, hu⟩ := hvalue u hu
      exact ⟨bs, hbs.congr (hw u hu)⟩
    · exact hpost.1 q fun hmem => (hvalue q hmem).2 hq
  refine (Redis.wp_listDelNode h.hangs hdis).mono fun _ s' hpost => ?_
  obtain ⟨s₂, ⟨hR, s₁, hw, hfreed⟩, hr⟩ := hpost
  exact ⟨s₂, hR, hr, h.remove hn hw hfreed hr⟩

/-- The values `R` speaks of belong to the list: freeing one reaches no other block, and work on
the list and on what is not live leaves `R` alone. -/
structure FreesEach (E : Stop → Prop) (F : Methods) (x : DList) (R : List Addr → State Globals → Prop) :
    Prop where
  keep : ∀ {vs s s'}, R vs s → Within x.blocks s.mem s'.mem → Silent s s' → R vs s'
  free : ∀ {v vs s}, R (v :: vs) s → (∀ u ∈ owns x.free [v], ∃ bs, Holds s.mem u bs) →
    FreesOwned E F x.free v (R vs) s

/-- The values `vs` of the list `x` of `m` are still live in `m'`, and nothing but its own has changed. -/
structure Remaining (m : Mem) (x : DList) (vs : List Addr) (m' : Mem) : Prop where
  live : ∀ u ∈ owns x.free vs, ∃ bs, Holds m' u bs
  nodup : (owns x.free vs).Nodup
  apart : ∀ u ∈ owns x.free vs, u ∉ x.blocks ∧ u ∈ owns x.free x.values
  frame : ∀ q ∉ x.blocks, q ∉ owns x.free x.values → block m' q = block m q

theorem FreesEach.all {R : List Addr → State Globals → Prop} (h : FreesEach E F x R) :
    FreesAll E F x.free x.blocks (fun vs s => R vs s ∧ Remaining m x vs s.mem) where
  keep := by
    rintro vs s s' ⟨hR, hrem⟩ hw hsilent
    refine ⟨h.keep hR hw hsilent, fun u hu => ?_, hrem.nodup, hrem.apart, fun q hq hv => ?_⟩
    · obtain ⟨bs, hbs⟩ := hrem.live u hu
      exact ⟨bs, hbs.congr (hw u (hrem.apart u hu).1)⟩
    · rw [hw q hq, hrem.frame q hq hv]
  free := by
    rintro v vs s ⟨hR, hlive, hn, hapart, hframe⟩
    rw [owns_cons] at hlive hn hapart
    obtain ⟨-, hn, hdisj⟩ := List.nodup_append.mp hn
    refine (h.free hR fun u hu => hlive u (List.mem_append_left _ hu)).mono fun _ s' hpost => ?_
    obtain ⟨hother, hR⟩ := hpost
    refine ⟨fun q hq => ?_, hR, fun u hu => ?_, hn, fun u hu => ?_, fun q hq hv => ?_⟩
    · exact hother q fun hmem => (hapart q (List.mem_append_left _ hmem)).1 hq
    · obtain ⟨bs, hbs⟩ := hlive u (List.mem_append_right _ hu)
      exact ⟨bs, hbs.congr (hother u fun hmem => hdisj u hmem u hu rfl)⟩
    · exact hapart u (List.mem_append_right _ hu)
    · rw [hother q fun hmem => hv (hapart q (List.mem_append_left _ hmem)).2, hframe q hq hv]

theorem DList.Ok.remaining (h : x.Ok m) (hn : x.foot.Nodup) : Remaining m x x.values m := by
  obtain ⟨⟨-, hl⟩, -, hnv, hv⟩ := foot_nodup.mp hn
  refine ⟨h.values, hnv, fun u hu => ⟨fun hb => ?_, hu⟩, fun _ _ _ => rfl⟩
  rcases List.mem_cons.mp hb with rfl | hb
  · exact hl hu
  · exact hv u hb hu

theorem DList.Ok.wp_listRelease {R : List Addr → State Globals → Prop} (h : x.Ok s.mem) (hn : x.foot.Nodup)
    (hfree : FreesEach E F x R) (hR : R x.values s) :
    wp E (listRelease F x.addr) (fun _ s' => R [] s' ∧ (∀ q ∈ x.blocks, block s'.mem q = none) ∧
      ∀ q ∉ x.foot, block s'.mem q = block s.mem q) s := by
  refine (Redis.wp_listRelease h.hangs hfree.all ⟨hR, h.remaining hn⟩).mono fun _ s' hpost => ?_
  obtain ⟨⟨hR, hrem⟩, hgone⟩ := hpost
  refine ⟨hR, hgone, fun q hq => hrem.frame q (fun hb => hq ?_) fun hv => hq ?_⟩
  · exact Multiset.mem_of_le blocks_le_foot (Multiset.mem_coe.mpr hb)
  · exact mem_foot.mpr (Or.inr (Or.inr hv))

section Zfree

/-- The free method gives the values back. -/
theorem freesOwned_zfree {R : State Globals → Prop} (hfree : f ≠ NULL → ∀ u, F.free f u = zfree u)
    (hlive : ∀ u ∈ owns f [v], ∃ bs, Holds s.mem u bs)
    (hR : ∀ s', (∀ q ∉ owns f [v], block s'.mem q = block s.mem q) →
      (∀ u ∈ owns f [v], block s'.mem u = none) → R s') : FreesOwned E F f v R s := by
  unfold FreesOwned freed
  by_cases hnull : f = NULL
  · rw [if_pos hnull]
    refine wp_pure.mpr ⟨fun _ _ => rfl, hR s (fun _ _ => rfl) fun u hu => ?_⟩
    rw [hnull, owns_null] at hu
    contradiction
  · obtain ⟨bs, hbs⟩ := hlive v (mem_owns.mpr ⟨hnull, List.mem_singleton_self v⟩)
    have hother : ∀ q ∉ owns f [v], block (del s.mem v) q = block s.mem q := by
      intro q hq
      refine block_del_ne fun heq => hq (mem_owns.mpr ⟨hnull, ?_⟩)
      rw [heq]
      exact List.mem_singleton_self v
    rw [if_neg hnull, callFree, wp_bind, wp_record, hfree hnull]
    refine Iff.mpr (wp_zfree hbs) ⟨hother, hR _ hother fun u hu => ?_⟩
    rw [List.mem_singleton.mp (mem_owns.mp hu).2]
    exact block_del_self

variable (hfree : x.free ≠ NULL → ∀ u, F.free x.free u = zfree u)

include hfree

theorem DList.Ok.wp_listDelNode_zfree (h : x.Ok s.mem) (hn : x.foot.Nodup) (hp : Member s x.addr p) :
    wp E (listDelNode F x.addr p) (fun _ s' => ∃ xs v ys, x.nodes = xs ++ (p, v) :: ys ∧
      Updates s.mem s'.mem x.foot (x.setNodes (xs ++ ys)).foot ∧
      (x.setNodes (xs ++ ys)).Ok s'.mem) s := by
  obtain ⟨xs, v, ys, hns⟩ := hp.split h.hangs
  have heq : x.setNodes (xs ++ (p, v) :: ys) = x := by rw [← hns]; rfl
  rw [← heq] at h hn
  refine (h.wp_listDelNode (R := fun s₂ => ∀ u ∈ owns x.free [v], block s₂.mem u = none) hn
    fun s₁ hlive _ => freesOwned_zfree hfree hlive fun _ _ hgone => hgone).mono fun _ s' hpost => ?_
  obtain ⟨s₂, hgone, hr, hchange, hok⟩ := hpost
  rw [← heq]
  refine ⟨xs, v, ys, rfl, hchange.update fun q hq hnot => ?_, hok⟩
  rw [foot_node, Multiset.mem_cons, Multiset.mem_add] at hq
  rcases hq with rfl | hq | hq
  · exact hr.gone
  · exact absurd hq hnot
  · rw [hr.within q (h.value hn q hq).2, hgone q hq]

theorem DList.Ok.wp_listRelease_zfree (h : x.Ok s.mem) (hn : x.foot.Nodup) :
    wp E (listRelease F x.addr) (fun _ s' => Updates s.mem s'.mem x.foot 0) s := by
  have hapart := (h.remaining hn).apart
  have heach : FreesEach E F x (fun vs s' => ∀ u ∈ owns x.free x.values,
      u ∈ owns x.free vs ∨ block s'.mem u = none) := by
    refine ⟨fun hR hw _ u hu => ?_, fun {v vs s} hR hlive =>
      freesOwned_zfree hfree hlive fun s' hother hgone u hu => ?_⟩
    · rw [hw u (hapart u hu).1]
      exact hR u hu
    · by_cases hv : u ∈ owns x.free [v]
      · exact Or.inr (hgone u hv)
      · rw [hother u hv]
        have hR := hR u hu
        rw [owns_cons, List.mem_append] at hR
        exact hR.imp_left fun hR => hR.resolve_left hv
  refine (h.wp_listRelease hn heach fun u hu => Or.inl hu).mono fun _ s' hpost => ?_
  obtain ⟨hR, hgone, hframe⟩ := hpost
  refine ⟨Multiset.nodup_zero, fun q hq => absurd hq (Multiset.notMem_zero q), fun q hq _ => ?_,
    fun q hq _ => hframe q hq⟩
  rw [foot_eq, Multiset.mem_add, Multiset.mem_coe, Multiset.mem_coe] at hq
  rcases hq with hq | hq
  · exact hgone q hq
  · refine (hR q hq).resolve_left ?_
    rw [owns_nil]
    exact List.not_mem_nil

end Zfree

end Redis
