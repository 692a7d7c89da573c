import RedisPlayground.Proofs.Owners

/-! `listDup`. The copy hangs in blocks of its own beside the list it is made
from; its values are those of the original, or the blocks that the dup method
made. When the dup method gives up, the copy is released again. What the
methods do is a parameter. -/

namespace Redis

open CMem

variable {L : Libc} {F : Methods} {m m' m₀ : Mem} {x y : DList} {s s' : State Globals} {p v l f a b it : Addr}
  {w : Word} {ns : List (Addr × Addr)} {us vs : List Addr} {S : Multiset Addr}
  {J : List Addr → State Globals → Prop} {R : List Addr → List Addr → State Globals → Prop}

/-- What the dup method `f` of a list with the values `vs` does: it gives a fresh block for the next
value, or it gives up. `J us` is what is known once it has made `us`, and `R us us` once it has given
up after that; work on other blocks changes neither. -/
structure Copies (F : Methods) (f : Addr) (m₀ : Mem) (vs : List Addr) (J : List Addr → State Globals → Prop)
    (R : List Addr → List Addr → State Globals → Prop) : Prop where
  keep : ∀ {us s s'}, J us s → Spares us s.mem s'.mem → Silent s s' → J us s'
  dup : ∀ {us v s}, vs[us.length]? = some v → J us s → Extends m₀ s.mem →
    wp Safe (callDup F f v) (fun r s' => r = NULL ∧ s'.mem = s.mem ∧ R us us s' ∨
      ∃ bs, Fresh s.mem r ∧ bs.length + 8 < 2 ^ 64 ∧ s'.mem = put s.mem r bs ∧ J (us ++ [r]) s') s

/-- What the free method `f` does to the values `us` that a dup method made: `R us vs` is what is
known when the last of these, `vs`, are still to be freed. -/
structure Unmakes (F : Methods) (f : Addr) (R : List Addr → List Addr → State Globals → Prop) : Prop where
  keep : ∀ {us vs s s'}, R us vs s → Spares us s.mem s'.mem → Silent s s' → R us vs s'
  free : ∀ {us v vs s}, R us (v :: vs) s → (∀ u ∈ owns f [v], ∃ bs, Holds s.mem u bs) →
    FreesOwned Safe F f v (R us vs) s

/-- The list `y` is a copy of the first nodes `xs` of `x`, the dup method has made the values `zs`
besides, and an iterator stands at the rest `ns`. -/
structure Copying (m₀ : Mem) (J : List Addr → State Globals → Prop) (x y : DList) (zs : List Addr) (it : Addr)
    (xs ns : List (Addr × Addr)) (s : State Globals) : Prop where
  update : Updates m₀ s.mem 0 (it ::ₘ (↑y.blocks + ↑(owns x.dup (y.values ++ zs))))
  hangs : y.Hangs s.mem
  made : ∀ u ∈ owns x.dup (y.values ++ zs), ∃ bs, Holds s.mem u bs
  iter : ∃ w, w.setWidth 32 = FORWARD ∧ Holds s.mem it (words [first ns NULL, w])
  methods : y.dup = x.dup ∧ y.free = x.free ∧ y.match' = x.match'
  length : y.nodes.length = xs.length
  shared : x.dup = NULL → y.values = xs.map Prod.snd
  ghost : J (owns x.dup (y.values ++ zs)) s

/-- How `listDup` ends well: with a copy of `x` in blocks of its own. -/
structure Copied (m₀ : Mem) (J : List Addr → State Globals → Prop) (x y : DList) (s : State Globals) :
    Prop where
  update : Updates m₀ s.mem 0 (↑y.blocks + ↑(owns x.dup y.values))
  hangs : y.Hangs s.mem
  made : ∀ u ∈ owns x.dup y.values, ∃ bs, Holds s.mem u bs
  methods : y.dup = x.dup ∧ y.free = x.free ∧ y.match' = x.match'
  length : y.nodes.length = x.nodes.length
  shared : x.dup = NULL → y.values = x.values
  ghost : J (owns x.dup y.values) s

/-- How `listDup` ends when the dup method gives up after making `us`: of the copy nothing is left. -/
structure Undone (m₀ : Mem) (R : List Addr → List Addr → State Globals → Prop) (x : DList) (us : List Addr)
    (s : State Globals) : Prop where
  set : x.dup ≠ NULL
  length : us.length < x.nodes.length
  ghost : R us [] s
  nodup : us.Nodup
  fresh : ∀ u ∈ us, block m₀ u = none
  frame : ∀ q ∉ us, block s.mem q = block m₀ q

namespace Copying

variable {zs : List Addr} {xs : List (Addr × Addr)} {E : Stop → Prop}

/-- Everything the copy is made of is live. -/
theorem live (h : Copying m₀ J x y zs it xs ns s) :
    ∀ q ∈ it ::ₘ (↑y.blocks + ↑(owns x.dup (y.values ++ zs)) : Multiset Addr), block s.mem q ≠ none := by
  intro q hq
  rcases Multiset.mem_cons.mp hq with rfl | hq
  · obtain ⟨w, -, hi⟩ := h.iter
    exact hi.live
  · rcases Multiset.mem_add.mp hq with hq | hq
    · obtain ⟨bs, hbs⟩ := h.hangs.live (Multiset.mem_coe.mp hq)
      exact hbs.live
    · obtain ⟨bs, hbs⟩ := h.made q (Multiset.mem_coe.mp hq)
      exact hbs.live

theorem old (h : Copying m₀ J x y zs it xs ns s) : Extends m₀ s.mem := fun _ hq => h.update.old hq

/-- The iterator, the copy and the values that were made are apart. -/
theorem apart (h : Copying m₀ J x y zs it xs ns s) :
    it ∉ y.blocks ∧ it ∉ owns x.dup (y.values ++ zs) ∧ ∀ u ∈ owns x.dup (y.values ++ zs), u ∉ y.blocks := by
  obtain ⟨hit, hn⟩ := Multiset.nodup_cons.mp h.update.nodup
  obtain ⟨-, -, hdisj⟩ := Multiset.nodup_add.mp hn
  rw [Multiset.mem_add, not_or, Multiset.mem_coe, Multiset.mem_coe] at hit
  exact ⟨hit.1, hit.2, fun u hu hb =>
    Multiset.disjoint_left.mp hdisj (Multiset.mem_coe.mpr hb) (Multiset.mem_coe.mpr hu)⟩

/-- What `listNext` does to the iterator. -/
theorem listNext {Q : Addr → State Globals → Prop} (hJ : ∀ {us s s'}, J us s → Spares us s.mem s'.mem →
      Silent s s' → J us s') (h : Copying m₀ J x y zs it xs ((p, v) :: ns) s)
    (hnode : NodeAt m₀ a p (first ns NULL) v) (hQ : ∀ s', Copying m₀ J x y zs it xs ns s' → Q p s') :
    wp E (listNext it) Q s := by
  obtain ⟨hity, hitz, -⟩ := h.apart
  obtain ⟨w, hw, hi⟩ := h.iter
  have hpi : p ≠ it := by
    rintro rfl
    exact hnode.live (h.update.fresh p (Multiset.mem_cons_self _ _) (Multiset.notMem_zero p))
  apply wp_listNext (Cells.one hi) (h.old.holds hnode) hpi
  intro m hc
  rw [if_pos hw] at hc
  have hother : ∀ q, q ≠ it → block m q = block s.mem q := fun q hq => hc.frame q (by simpa using hq)
  refine hQ _ ⟨h.update.keep fun q hq => ?_, h.hangs.congr fun q hq => ?_, fun u hu => ?_,
    ⟨w, hw, hc.get_holds 0 rfl⟩, h.methods, h.length, h.shared, hJ h.ghost (fun u hu => ?_) ⟨[], rfl, rfl⟩⟩
  · rw [Multiset.mem_cons, not_or] at hq
    exact hother q hq.1
  · exact hother q (ne_of_mem_of_not_mem hq hity)
  · obtain ⟨bs, hbs⟩ := h.made u hu
    exact ⟨bs, hbs.congr (hother u (ne_of_mem_of_not_mem hu hitz))⟩
  · exact hother u (ne_of_mem_of_not_mem hu hitz)

/-- The value a node of the copy gets: the one in the node copied, or one made of it. -/
theorem listDupValue (hC : x.dup ≠ NULL → Copies F x.dup m₀ x.values J R)
    (h : Copying m₀ J x y [] it xs ns s) (hv : x.values[xs.length]? = some v) :
    wp Safe (listDupValue F y.addr v) (fun r s' => match r with
      | some u => Copying m₀ J x y [u] it xs ns s' ∧ (x.dup = NULL → u = v)
      | none => x.dup ≠ NULL ∧ s'.mem = s.mem ∧ R y.values y.values s') s := by
  rw [Redis.listDupValue, wp_bind, wp_getField h.hangs.header rfl, h.methods.1]
  by_cases hdup : x.dup = NULL
  · rw [if_pos hdup, wp_pure]
    have howns : owns x.dup (y.values ++ [v]) = owns x.dup (y.values ++ []) := by rw [hdup, owns_null, owns_null]
    refine ⟨⟨?_, h.hangs, ?_, h.iter, h.methods, h.length, h.shared, ?_⟩, fun _ => rfl⟩
    · rw [howns]
      exact h.update
    · rw [howns]
      exact h.made
    · rw [howns]
      exact h.ghost
  · have hlive := h.live
    have hupdate := h.update
    have hmade := h.made
    have hghost := h.ghost
    rw [List.append_nil, owns_of_ne hdup] at hlive hupdate hmade hghost
    have hlen : y.values.length = xs.length := by rw [DList.values, List.length_map, h.length]
    rw [if_neg hdup, wp_bind]
    refine ((hC hdup).dup (hlen ▸ hv) hghost h.old).mono fun r s' hpost => ?_
    rcases hpost with ⟨rfl, hm, hR⟩ | ⟨bs, hfresh, hfits, hm, hJ⟩
    · rw [if_pos rfl, wp_pure]
      exact ⟨hdup, hm, hR⟩
    · rw [if_neg hfresh.ne_null, wp_pure]
      have hother : ∀ q, q ≠ r → block s'.mem q = block s.mem q := by
        intro q hq
        rw [hm, block_put_ne hq]
      have hne : ∀ q ∈ it ::ₘ (↑y.blocks + ↑y.values : Multiset Addr), q ≠ r := by
        rintro q hq rfl
        exact hlive q hq hfresh.block
      obtain ⟨w, hw, hi⟩ := h.iter
      have howns : owns x.dup (y.values ++ [r]) = y.values ++ [r] := owns_of_ne hdup
      refine ⟨⟨?_, h.hangs.congr fun q hq => hother q (hne q (by simp [hq])), ?_,
        ⟨w, hw, hi.congr (hother it (hne it (by simp)))⟩, h.methods, h.length, h.shared, ?_⟩,
        fun hnull => absurd hnull hdup⟩
      · have hgrow := hupdate.grow hlive hfresh.block fun q hq _ => hother q hq
        have heq : it ::ₘ (↑y.blocks + ↑(y.values ++ [r])) = r ::ₘ it ::ₘ (↑y.blocks + ↑y.values : Multiset Addr) := by
          simp only [← Multiset.coe_add, ← Multiset.singleton_add, Multiset.coe_singleton]
          abel
        rw [howns, heq]
        exact hgrow
      · rw [howns]
        intro u hu
        rcases List.mem_append.mp hu with hu | hu
        · obtain ⟨bs, hbs⟩ := hmade u hu
          exact ⟨bs, hbs.congr (hother u (hne u (by simp [hu])))⟩
        · rw [List.mem_singleton.mp hu, hm]
          exact ⟨bs, hfresh.put hfits⟩
      · rw [howns]
        exact hJ

/-- The value comes to stand in a new node of the copy. -/
theorem add {u q : Addr} (hJ : ∀ {us s s'}, J us s → Spares us s.mem s'.mem → Silent s s' → J us s')
    (h : Copying m₀ J x y [u] it xs ns s) (hu : x.dup = NULL → u = v)
    (ha : Added s.mem s'.mem y y.nodes p u []) (hsilent : Silent s s') :
    Copying m₀ J x (y.setNodes (y.nodes ++ [(p, u)])) [] it (xs ++ [(q, v)]) ns s' := by
  have heq : y.setNodes (y.nodes ++ []) = y := by rw [List.append_nil]; rfl
  obtain ⟨hfresh, hwithin, hhangs⟩ := ha
  rw [heq] at hwithin
  have hvalues : (y.setNodes (y.nodes ++ [(p, u)])).values ++ [] = y.values ++ [u] := by
    simp [DList.values, DList.setNodes]
  have hblocks : (↑(y.setNodes (y.nodes ++ [(p, u)])).blocks : Multiset Addr) = p ::ₘ ↑y.blocks := by
    have hperm : (y.setNodes (y.nodes ++ (p, u) :: [])).blocks.Perm (p :: (y.setNodes (y.nodes ++ [])).blocks) :=
      DList.blocks_node
    rw [heq] at hperm
    exact Multiset.coe_eq_coe.mpr hperm
  obtain ⟨hity, -, hzy⟩ := h.apart
  have hne : ∀ q ∈ it ::ₘ (↑y.blocks + ↑(owns x.dup (y.values ++ [u])) : Multiset Addr), q ≠ p := by
    rintro q hq rfl
    exact h.live q hq hfresh
  have hother : ∀ q ∈ it ::ₘ (↑y.blocks + ↑(owns x.dup (y.values ++ [u])) : Multiset Addr), q ∉ y.blocks →
      block s'.mem q = block s.mem q := by
    intro q hq hb
    apply hwithin
    rw [List.mem_cons, not_or]
    exact ⟨hne q hq, hb⟩
  have hmade : ∀ z ∈ owns x.dup (y.values ++ [u]), block s'.mem z = block s.mem z :=
    fun z hz => hother z (by simp [hz]) (hzy z hz)
  obtain ⟨w, hw, hi⟩ := h.iter
  refine ⟨?_, hhangs, ?_, ⟨w, hw, hi.congr (hother it (by simp) hity)⟩, h.methods, ?_, fun hnull => ?_, ?_⟩
  · have hgrow := h.update.grow h.live hfresh fun q hqp hq => hwithin q (by
      rw [List.mem_cons, not_or]
      exact ⟨hqp, fun hb => hq (by simp [hb])⟩)
    rw [hvalues, hblocks, Multiset.cons_add, Multiset.cons_swap]
    exact hgrow
  · rw [hvalues]
    intro z hz
    obtain ⟨bs, hbs⟩ := h.made z hz
    exact ⟨bs, hbs.congr (hmade z hz)⟩
  · simp [DList.setNodes, h.length]
  · rw [← List.append_nil (y.setNodes _).values, hvalues, h.shared hnull, hu hnull, List.map_append]
    rfl
  · rw [hvalues]
    exact hJ h.ghost hmade hsilent

/-- The copy is made. -/
theorem copied (hJ : ∀ {us s s'}, J us s → Spares us s.mem s'.mem → Silent s s' → J us s')
    (h : Copying m₀ J x y [] it x.nodes ns s) :
    wp E (listReleaseIter it) (fun _ s' => Copied m₀ J x y s') s := by
  obtain ⟨w, -, hi⟩ := h.iter
  obtain ⟨hity, hitz, -⟩ := h.apart
  refine (wp.and_any (Q := fun _ s' => s'.mem = del s.mem it) ?_ (silent_law.zfree it s)).mono fun _ s' hpost => ?_
  · exact (wp_zfree hi).mpr rfl
  obtain ⟨hm, hsilent⟩ := hpost
  have hother : ∀ q, q ≠ it → block s'.mem q = block s.mem q := by
    intro q hq
    rw [hm, block_del_ne hq]
  have hmade : Spares (owns x.dup (y.values ++ [])) s.mem s'.mem :=
    fun u hu => hother u (ne_of_mem_of_not_mem hu hitz)
  have hdrop := h.update.drop (by rw [hm, block_del_self]) hother
  have hghost := hJ h.ghost hmade hsilent
  refine ⟨?_, h.hangs.congr fun q hq => hother q (ne_of_mem_of_not_mem hq hity), fun u hu => ?_, h.methods,
    h.length, h.shared, ?_⟩
  · rwa [List.append_nil] at hdrop
  · rw [← List.append_nil y.values] at hu
    obtain ⟨bs, hbs⟩ := h.made u hu
    exact ⟨bs, hbs.congr (hmade u hu)⟩
  · rwa [List.append_nil] at hghost

/-- The iterator and the copy are released after the dup method gave up. -/
theorem undone (hU : x.dup ≠ NULL → Unmakes F x.free R) (hdup : x.dup ≠ NULL)
    (h : Copying m₀ J x y [] it xs ns s) (hlen : xs.length < x.nodes.length) (hm : s'.mem = s.mem)
    (hR : R y.values y.values s') :
    wp Safe (do
      listReleaseIter it
      listRelease F y.addr
      return NULL) (fun r s'' => r = NULL ∧ Undone m₀ R x y.values s'') s' := by
  obtain ⟨w, -, hi⟩ := h.iter
  obtain ⟨hity, hitz, -⟩ := h.apart
  have hupdate := h.update
  have hmade := h.made
  rw [List.append_nil, owns_of_ne hdup] at hitz hupdate hmade
  rw [← hm] at hi
  rw [wp_bind]
  refine (wp.and_any (Q := fun _ s₁ => s₁.mem = del s'.mem it) ?_ (silent_law.zfree it s')).mono fun _ s₁ hpost => ?_
  · exact (wp_zfree hi).mpr rfl
  obtain ⟨hm₁, hsilent⟩ := hpost
  have hother : ∀ q, q ≠ it → block s₁.mem q = block s.mem q := by
    intro q hq
    rw [hm₁, hm, block_del_ne hq]
  have hspares : Spares y.values s'.mem s₁.mem := by
    intro u hu
    rw [hm]
    exact hother u (ne_of_mem_of_not_mem hu hitz)
  have hdrop := hupdate.drop (by rw [hm₁, block_del_self]) hother
  have hhangs : y.Hangs s₁.mem := h.hangs.congr fun q hq => hother q (ne_of_mem_of_not_mem hq hity)
  have hlive : ∀ u ∈ y.values, ∃ bs, Holds s₁.mem u bs := by
    intro u hu
    obtain ⟨bs, hbs⟩ := hmade u hu
    exact ⟨bs, hbs.congr (hother u (ne_of_mem_of_not_mem hu hitz))⟩
  -- whatever its free method, the copy owns what the dup method made
  have hok : y.Ok s₁.mem := ⟨hhangs.header, hhangs.links, fun u hu => hlive u (mem_owns.mp hu).2⟩
  have hle : y.foot ≤ ↑y.blocks + ↑y.values := by
    rw [DList.foot_eq]
    exact Multiset.add_le_add_left owns_le
  have hfoot : y.foot.Nodup := Multiset.nodup_of_le hle hdrop.nodup
  have hapart : ∀ u ∈ y.values, u ∉ y.blocks := fun u hu hb =>
    Multiset.disjoint_left.mp (Multiset.nodup_add.mp hdrop.nodup).2.2 (Multiset.mem_coe.mpr hb)
      (Multiset.mem_coe.mpr hu)
  have heach : FreesEach Safe F y (R y.values) := by
    have hU := hU hdup
    rw [← h.methods.2.1] at hU
    exact ⟨fun hR hw hs => hU.keep hR (fun u hu => hw u (hapart u hu)) hs, hU.free⟩
  rw [wp_bind]
  refine (hok.wp_listRelease hfoot heach ((hU hdup).keep hR hspares hsilent)).mono fun _ s₂ hpost => ?_
  obtain ⟨hR, hgone, hframe⟩ := hpost
  refine wp_pure.mpr ⟨rfl, hdup, ?_, hR, ?_, fun u hu => ?_, fun q hq => ?_⟩
  · rwa [DList.values, List.length_map, h.length]
  · exact Multiset.coe_nodup.mp (Multiset.nodup_add.mp hdrop.nodup).2.1
  · exact hdrop.fresh u (Multiset.mem_add.mpr (Or.inr (Multiset.mem_coe.mpr hu))) (Multiset.notMem_zero u)
  · by_cases hb : q ∈ y.blocks
    · rw [hgone q hb]
      exact (hdrop.fresh q (Multiset.mem_add.mpr (Or.inl (Multiset.mem_coe.mpr hb))) (Multiset.notMem_zero q)).symm
    · have hnot : q ∉ (↑y.blocks + ↑y.values : Multiset Addr) := by
        rw [Multiset.mem_add, not_or]
        exact ⟨hb, hq⟩
      rw [hframe q fun hmem => hnot (Multiset.mem_of_le hle hmem), hdrop.frame q (Multiset.notMem_zero q) hnot]

end Copying

section Dup

variable (hJ : ∀ {us s s'}, J us s → Spares us s.mem s'.mem → Silent s s' → J us s')
  (hC : x.dup ≠ NULL → Copies F x.dup m₀ x.values J R) (hU : x.dup ≠ NULL → Unmakes F x.free R)

include hJ hC hU

theorem wp_listDupLoop {xs : List (Addr × Addr)} {n : ℕ} (hx : x.nodes = xs ++ ns)
    (hlinks : Linked (NodeAt m₀) a ns NULL) (h : Copying m₀ J x y [] it xs ns s) (hn : ns.length < n) :
    wp Safe (listDupLoop L F y.addr it n) (fun r s' =>
      (∃ ns', r = y.addr ∧ Copied m₀ J x (y.setNodes ns') s') ∨ r = NULL ∧ ∃ us, Undone m₀ R x us s') s := by
  induction ns generalizing s n a y xs with
  | nil =>
    obtain ⟨n, rfl⟩ := Nat.exists_eq_succ_of_ne_zero (Nat.ne_of_gt hn)
    obtain ⟨w, -, hi⟩ := h.iter
    rw [List.append_nil] at hx
    subst hx
    rw [listDupLoop, wp_bind, wp_getField hi rfl, first_nil, if_pos rfl, wp_bind]
    exact (h.copied hJ).mono fun _ s' hpost => wp_pure.mpr (Or.inl ⟨y.nodes, rfl, hpost⟩)
  | cons c ns ih =>
    obtain ⟨p, v⟩ := c
    obtain ⟨n, rfl⟩ := Nat.exists_eq_succ_of_ne_zero (Nat.ne_of_gt (Nat.zero_lt_of_lt hn))
    obtain ⟨w, -, hi⟩ := h.iter
    have hnode : NodeAt m₀ a p (first ns NULL) v := hlinks.1
    have hv : x.values[xs.length]? = some v := by simp [DList.values, hx]
    have hlen : xs.length < x.nodes.length := by simp [hx]
    rw [listDupLoop, wp_bind, wp_getField hi rfl, first_cons, if_neg hnode.ne_null, wp_bind]
    refine h.listNext hJ hnode fun s₁ h => ?_
    rw [wp_bind, wp_getField (h.old.holds hnode) rfl, wp_bind]
    refine (h.listDupValue hC hv).mono fun o s₂ hpost => ?_
    cases o with
    | none =>
      obtain ⟨hdup, hm, hR⟩ := hpost
      exact (h.undone hU hdup hlen hm hR).mono fun r s' hpost => Or.inr ⟨hpost.1, y.values, hpost.2⟩
    | some u =>
      obtain ⟨h, hu⟩ := hpost
      rw [wp_bind]
      refine ((wp_listAddNodeTail h.hangs).and_any (silent_law.listAddNodeTail L _ _ s₂)).mono fun r s₃ hpost => ?_
      obtain ⟨⟨rfl, q, ha⟩, hsilent⟩ := hpost
      rw [if_neg h.hangs.header.ne_null]
      have h := h.add (q := p) hJ hu ha hsilent
      exact ih (y := y.setNodes (y.nodes ++ [(q, u)])) (by rw [hx, List.append_assoc]; rfl) hlinks.2 h
        (by simpa using hn)

end Dup

/-- `listDup` leaves a copy, or nothing. -/
theorem wp_listDup (hJ : ∀ {us s s'}, J us s → Spares us s.mem s'.mem → Silent s s' → J us s')
    (hC : x.dup ≠ NULL → Copies F x.dup s.mem x.values J R) (hU : x.dup ≠ NULL → Unmakes F x.free R)
    (hx : x.Hangs s.mem) (hinit : ∀ s', Silent s s' → J [] s') :
    wp Safe (listDup L F x.addr) (fun r s' =>
      (∃ ns, Copied s.mem J x ⟨r, ns, x.dup, x.free, x.match'⟩ s') ∨
        r = NULL ∧ ∃ us, Undone s.mem R x us s') s := by
  rw [listDup, wp_bind]
  refine (wp_listCreate.and_any (silent_law.listCreate L s)).mono fun c s₁ hpost => ?_
  obtain ⟨⟨hnew, hc⟩, hsilent₁⟩ := hpost
  have hxc : x.addr ∉ [c] := fun hmem =>
    ne_of_live hnew ⟨_, hx.header⟩ (List.mem_singleton.mp hmem)
  have hget : ∀ {m : Mem} {ws : List Word}, Cells s.mem m [(c, ws)] → Holds m x.addr (words x.header) :=
    fun hc => hc.other hxc hx.header
  rw [wp_bind, wp_getField (hget hc) rfl]
  refine wp_bind.mpr (hc.set 0 rfl rfl fun m hc => ?_)
  rw [wp_bind, wp_getField (hget hc) rfl]
  refine wp_bind.mpr (hc.set 0 rfl rfl fun m hc => ?_)
  rw [wp_bind, wp_getField (hget hc) rfl]
  refine wp_bind.mpr (hc.set 0 rfl rfl fun m hc => ?_)
  have hc : Cells s.mem m [(c, [NULL, NULL, 0, x.dup, x.free, x.match'])] := hc
  rw [wp_bind]
  refine ((wp_listGetIterator (hget hc) rfl rfl).and_any (silent_law.listGetIterator L _ _ _)).mono
    fun it s₂ hpost => ?_
  obtain ⟨⟨hit, w, hw, hi⟩, hsilent₂⟩ := hpost
  have hsilent : Silent s s₂ := hsilent₁.trans hsilent₂
  rw [if_pos rfl] at hi
  have hcit : c ∉ [it] := fun hmem =>
    ne_of_live hit ⟨_, hc.get_holds 0 rfl⟩ (List.mem_singleton.mp hmem)
  have hcne : c ≠ it := by simpa using hcit
  have hother : ∀ q, q ≠ it → q ≠ c → block s₂.mem q = block s.mem q := by
    intro q hqi hqc
    rw [hi.frame q (by simpa using hqi), hc.frame q (by simpa using hqc)]
  have hitm : block s.mem it = none := by
    rw [← hc.frame it (by simpa using hcne.symm)]
    exact hit
  have hy : Copying s.mem J x ⟨c, [], x.dup, x.free, x.match'⟩ [] it [] x.nodes s₂ := by
    have hfoot : (it ::ₘ (↑(DList.blocks ⟨c, [], x.dup, x.free, x.match'⟩) + ↑(owns x.dup []))) =
        ({it, c} : Multiset Addr) := by simp [DList.blocks, DList.addrs]
    refine ⟨?_, ⟨hi.other hcit (hc.get_holds 0 rfl), trivial⟩, ?_, ⟨w, hw, hi.get_holds 0 rfl⟩, ⟨rfl, rfl, rfl⟩,
      rfl, fun _ => rfl, ?_⟩
    · change Updates s.mem s₂.mem 0 (it ::ₘ (↑(DList.blocks ⟨c, [], x.dup, x.free, x.match'⟩) + ↑(owns x.dup [])))
      rw [hfoot]
      refine ⟨by simp [hcne.symm], fun q hq _ => ?_, by simp, fun q _ hq => hother q ?_ ?_⟩
      · rcases (by simpa using hq : q = it ∨ q = c) with rfl | rfl
        · exact hitm
        · exact hnew
      · rintro rfl
        simp at hq
      · rintro rfl
        simp at hq
    · simp [DList.values]
    · simpa [DList.values] using hinit s₂ hsilent
  rw [fuel, bind_assoc, wp_bind, wp_get]
  have hcard := (hx.congr fun q hq => hy.old q fun hnone => by
    obtain ⟨bs, hbs⟩ := hx.live hq
    exact hbs.live hnone).length_lt_card
  refine (wp_listDupLoop hJ hC hU (List.nil_append _).symm hx.links hy hcard).mono fun r s' hpost => ?_
  rcases hpost with ⟨ns', rfl, hcopied⟩ | hundone
  · exact Or.inl ⟨ns', hcopied⟩
  · exact Or.inr hundone

end Redis
