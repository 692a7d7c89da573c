import RedisPlayground.Proofs.ListLeaks
import RedisPlayground.Proofs.ListRuns

/-! A client that goes through a list and deletes some of the nodes it meets.
`listNext` is past a node when it returns it, so that the node may be freed
before the next call; the rest of the list is then as it was. -/

namespace Redis

open CMem

/-- `while((node = listNext(iter)) != NULL) if(remove(node)) listDelNode(list, node);`, with the
nodes in the order they were met. No node is met twice, so that a predicate on nodes may stand for
one that depends on what went before. -/
def sweep (F : Methods) (l iter : Addr) (remove : Addr → Bool) : ℕ → M (List Addr)
  | 0 => stop .hang
  | fuel + 1 => do
    let node ← listNext iter
    if node = NULL then return []
    else
      (if remove node then listDelNode F l node else return ())
      let nodes ← sweep F l iter remove fuel
      return node :: nodes

/-- The free method `f` reaches the blocks `K` only, and can be called once on each of the values
that `R` speaks of. -/
structure FreesIn (F : Methods) (f : Addr) (K : Set Addr) (R : Multiset Addr → Mem → Prop) : Prop where
  keep : ∀ {vs m m'}, R vs m → (∀ q ∈ K, block m' q = block m q) → R vs m'
  free : ∀ {v vs} {s : State Globals}, R (v ::ₘ vs) s.mem →
    wp Safe (F.free f v) (fun _ s' => (∀ q ∉ K, block s'.mem q = block s.mem q) ∧ R vs s'.mem) s

/-- The nodes of a list that is walked in the direction `dir`, when `ks` are behind the iterator and
it will meet `zs`. -/
def ahead {α : Type*} (dir : BitVec 32) (ks zs : List α) : List α :=
  if dir = FORWARD then ks ++ zs else zs.reverse ++ ks

/-- The nodes behind the iterator with one more. -/
def behind {α : Type*} (dir : BitVec 32) (ks : List α) (n : α) : List α :=
  if dir = FORWARD then ks ++ [n] else n :: ks

variable {L : Libc} {F : Methods} {m m' : Mem} {x : DList} {s s' : State Globals} {p v it next : Addr} {w : Word}
  {ks zs xs ys : List (Addr × Addr)} {dir : BitVec 32} {remove : Addr → Bool} {K : Set Addr}
  {R : Multiset Addr → Mem → Prop}

theorem last_reverse (a : Addr) (ns : List (Addr × Addr)) : last a ns.reverse = first ns a := by
  cases ns with
  | nil => rfl
  | cons n ns => simp

/-- The node the iterator meets next, in its place. -/
theorem ahead_split (dir : BitVec 32) (ks zs : List (Addr × Addr)) (p v : Addr) :
    ∃ xs ys, ahead dir ks ((p, v) :: zs) = xs ++ (p, v) :: ys ∧ ahead dir ks zs = xs ++ ys ∧
      ahead dir (behind dir ks (p, v)) zs = xs ++ (p, v) :: ys ∧
      (if dir = FORWARD then first ys NULL else last NULL xs) = first zs NULL := by
  unfold ahead behind
  by_cases hdir : dir = FORWARD
  · simp only [if_pos hdir]
    exact ⟨ks, zs, rfl, rfl, by simp, rfl⟩
  · simp only [if_neg hdir]
    exact ⟨zs.reverse, ks, by simp, rfl, rfl, last_reverse NULL zs⟩

theorem ahead_filter (f : Addr × Addr → Bool) (p v : Addr) :
    ahead dir ks (((p, v) :: zs).filter f) =
      if f (p, v) then ahead dir (behind dir ks (p, v)) (zs.filter f) else ahead dir ks (zs.filter f) := by
  rw [List.filter_cons]
  split_ifs
  · obtain ⟨xs, ys, h, -, h', -⟩ := ahead_split dir ks (zs.filter f) p v
    rw [h, h']
  · rfl

/-- An iterator is shorter than a node. -/
theorem DList.Hangs.iter_notMem (h : x.Hangs m) (hi : Holds m it (words [next, w])) : it ∉ x.blocks := by
  intro hmem
  rcases List.mem_cons.mp hmem with rfl | hmem
  · have hlen := congrArg List.length (h.header.words_unique hi)
    simp [DList.header] at hlen
  · obtain ⟨a, b, v, hnode⟩ := Linked.node h.links hmem
    have hlen := congrArg List.length (hnode.words_unique hi)
    simp at hlen

/-- An iterator stands before the nodes `zs` of the list, and its values can still be freed. -/
structure Sweeping (F : Methods) (K : Set Addr) (R : Multiset Addr → Mem → Prop) (x : DList) (dir : BitVec 32)
    (it : Addr) (ks zs : List (Addr × Addr)) (m : Mem) : Prop where
  hangs : (x.setNodes (ahead dir ks zs)).Hangs m
  iter : ∃ w : Word, w.setWidth 32 = dir ∧ Holds m it (words [first zs NULL, w])
  free : x.free ≠ NULL → FreesIn F x.free K R ∧ R ↑(x.setNodes (ahead dir ks zs)).values m
  apart : ∀ q ∈ K, q ∉ (x.setNodes (ahead dir ks zs)).blocks ∧ q ≠ it

namespace Sweeping

/-- `listNext` is past the node it returns. -/
theorem listNext {Q : Addr → State Globals → Prop} {E : Stop → Prop}
    (h : Sweeping F K R x dir it ks ((p, v) :: zs) s.mem)
    (hQ : ∀ m, Sweeping F K R x dir it (behind dir ks (p, v)) zs m → Q p { s with mem := m }) :
    wp E (listNext it) Q s := by
  obtain ⟨xs, ys, hns, -, hns', hnext⟩ := ahead_split dir ks zs p v
  obtain ⟨hhangs, ⟨w, hw, hi⟩, hfree, hK⟩ := h
  rw [hns] at hhangs hfree hK
  have hit := hhangs.iter_notMem hi
  have hnode : NodeAt s.mem (last NULL xs) p (first ys NULL) v := (linked_split.mp hhangs.links).2.1
  have hpi : p ≠ it := by
    rintro rfl
    exact hit (by simp [DList.blocks, DList.addrs, DList.setNodes])
  apply wp_listNext (Cells.one hi) hnode hpi
  intro m hc
  rw [hw, hnext] at hc
  have hother : ∀ q, q ≠ it → block m q = block s.mem q := fun q hq => hc.frame q (by simpa using hq)
  apply hQ
  constructor
  · rw [hns']
    exact hhangs.congr fun q hq => hother q (ne_of_mem_of_not_mem hq hit)
  · exact ⟨w, hw, hc.get_holds 0 rfl⟩
  · intro hne
    obtain ⟨hF, hR⟩ := hfree hne
    rw [hns']
    exact ⟨hF, hF.keep hR fun q hq => hother q (hK q hq).2⟩
  · rw [hns']
    exact hK

/-- The node just met is deleted, and the iterator does not notice. -/
theorem listDelNode (h : Sweeping F K R x dir it (behind dir ks (p, v)) zs s.mem) :
    wp Safe (listDelNode F x.addr p) (fun _ s' => Sweeping F K R x dir it ks zs s'.mem) s := by
  obtain ⟨xs, ys, -, hns, hns', -⟩ := ahead_split dir ks zs p v
  obtain ⟨hhangs, ⟨w, hw, hi⟩, hfree, hK⟩ := h
  rw [hns'] at hhangs hfree hK
  have hit := hhangs.iter_notMem hi
  have hvalues : (↑(x.setNodes (xs ++ (p, v) :: ys)).values : Multiset Addr) =
      v ::ₘ ↑(x.setNodes (xs ++ ys)).values := by
    simp only [DList.values, DList.setNodes, List.map_append, List.map_cons]
    exact Multiset.coe_eq_coe.mpr List.perm_middle
  have hdis : Discards Safe F x.free v (x.setNodes (xs ++ (p, v) :: ys)).blocks
      (fun s₂ => Holds s₂.mem it (words [first zs NULL, w]) ∧
        (x.free ≠ NULL → FreesIn F x.free K R ∧ R ↑(x.setNodes (xs ++ ys)).values s₂.mem)) s := by
    intro s₁ hwithin _
    have hi₁ : Holds s₁.mem it (words [first zs NULL, w]) := hi.congr (hwithin it hit)
    unfold freed
    by_cases hnull : x.free = NULL
    · rw [if_pos hnull]
      exact wp_pure.mpr ⟨fun _ _ => rfl, hi₁, fun hne => absurd hnull hne⟩
    · rw [if_neg hnull, callFree, wp_bind, wp_record]
      obtain ⟨hF, hR⟩ := hfree hnull
      rw [hvalues] at hR
      have hR₁ := hF.keep hR fun q hq => hwithin q (hK q hq).1
      have hcall := hF.free (s := { s₁ with trace := .call x.free v :: s₁.trace }) hR₁
      refine hcall.mono fun _ s₂ hpost => ⟨fun q hq => ?_, hi₁.congr ?_, fun _ => ⟨hF, hpost.2⟩⟩
      · exact hpost.1 q fun hmem => (hK q hmem).1 hq
      · exact hpost.1 it fun hmem => (hK it hmem).2 rfl
  refine (wp_listDelNode hhangs hdis).mono fun _ s' hpost => ?_
  obtain ⟨s₂, ⟨hi₂, hfree₂⟩, hr⟩ := hpost
  constructor
  · rw [hns]
    exact hr.hangs
  · exact ⟨w, hw, hi₂.congr (hr.within it hit)⟩
  · intro hne
    obtain ⟨hF, hR⟩ := hfree₂ hne
    rw [hns]
    exact ⟨hF, hF.keep hR fun q hq => hr.within q (hK q hq).1⟩
  · intro q hq
    rw [hns]
    refine ⟨fun hmem => (hK q hq).1 ?_, (hK q hq).2⟩
    exact DList.blocks_node.mem_iff.mpr (List.mem_cons_of_mem _ hmem)

end Sweeping

/-- The loop meets the nodes ahead of the iterator one after the other. -/
theorem wp_sweep {n : ℕ} (h : Sweeping F K R x dir it ks zs s.mem) (hn : zs.length < n) :
    wp Safe (sweep F x.addr it remove n) (fun ps s' => ps = zs.map Prod.fst ∧
      Sweeping F K R x dir it (ahead dir ks (zs.filter fun n => !remove n.1)) [] s'.mem) s := by
  induction zs generalizing s n ks with
  | nil =>
    obtain ⟨n, rfl⟩ := Nat.exists_eq_succ_of_ne_zero (Nat.ne_of_gt hn)
    obtain ⟨w, -, hi⟩ := h.iter
    rw [sweep, wp_bind]
    apply wp_listNext_null (Cells.one hi)
    rw [if_pos rfl, wp_pure]
    refine ⟨rfl, ?_⟩
    unfold ahead
    simpa using h
  | cons c zs ih =>
    obtain ⟨p, v⟩ := c
    obtain ⟨n, rfl⟩ := Nat.exists_eq_succ_of_ne_zero (Nat.ne_of_gt (Nat.zero_lt_of_lt hn))
    have hp : p ≠ NULL := by
      obtain ⟨xs, ys, hns, -⟩ := ahead_split dir ks zs p v
      have hlinks := h.hangs.links
      rw [hns] at hlinks
      exact (linked_split.mp hlinks).2.1.ne_null
    have hlen : zs.length < n := by simpa using hn
    rw [sweep, wp_bind]
    apply h.listNext
    intro m h
    rw [if_neg hp, ahead_filter, wp_bind]
    by_cases hremove : remove p
    · rw [if_pos hremove, if_neg (by simp [hremove])]
      refine (h.listDelNode (s := { s with mem := m })).mono fun _ s₁ h => ?_
      rw [wp_bind]
      refine (ih h hlen).mono fun ps s' hpost => wp_pure.mpr ?_
      exact ⟨by rw [hpost.1]; rfl, hpost.2⟩
    · rw [if_neg hremove, if_pos (by simp [hremove]), wp_pure, wp_bind]
      refine (ih (s := { s with mem := m }) h hlen).mono fun ps s' hpost => wp_pure.mpr ?_
      exact ⟨by rw [hpost.1]; rfl, hpost.2⟩

/-- `zfree` can be called once on each of some live blocks. -/
theorem freesIn_zfree {f : Addr} (hfree : ∀ u, F.free f u = zfree u) (us : List Addr) :
    FreesIn F f {q | q ∈ us} (fun vs m => vs.Nodup ∧ ∀ v ∈ vs, v ∈ us ∧ ∃ bs, Holds m v bs) where
  keep := by
    rintro vs m m' ⟨hn, hvs⟩ hm
    refine ⟨hn, fun v hv => ?_⟩
    obtain ⟨hus, bs, hbs⟩ := hvs v hv
    exact ⟨hus, bs, hbs.congr (hm v hus)⟩
  free := by
    rintro v vs s ⟨hn, hvs⟩
    obtain ⟨hv, hn⟩ := Multiset.nodup_cons.mp hn
    obtain ⟨hus, bs, hbs⟩ := hvs v (Multiset.mem_cons_self v vs)
    rw [hfree]
    refine (wp_zfree hbs).mpr ⟨fun q hq => block_del_ne ?_, hn, fun u hu => ?_⟩
    · rintro rfl
      exact hq hus
    · obtain ⟨hus, bs, hbs⟩ := hvs u (Multiset.mem_cons_of_mem hu)
      exact ⟨hus, bs, hbs.del_ne (ne_of_mem_of_not_mem hu hv)⟩

/-- How a sweep ends: every node was met once, those that were not removed make up a well-formed
list, and from now on the iterator has nothing to return. -/
structure Swept (x : DList) (remove : Addr → Bool) (dir : BitVec 32) (it : Addr) (ps : List Addr)
    (s : State Globals) : Prop where
  met : ps = if dir = FORWARD then x.addrs else x.addrs.reverse
  wellFormed : WellFormed s (x.setNodes (x.nodes.filter fun n => !remove n.1))
  hangs : (x.setNodes (x.nodes.filter fun n => !remove n.1)).Hangs s.mem
  ended : listNext it s = .ok (NULL, s)

namespace Sweeping

/-- The nodes of a list as an iterator meets them. -/
theorem start (hx : x.Hangs m) (hfree : x.free ≠ NULL → FreesIn F x.free K R ∧ R ↑x.values m)
    (hK : ∀ q ∈ K, q ∉ x.blocks ∧ q ≠ it) (hw : w.setWidth 32 = dir)
    (hi : Holds m it (words [if dir = FORWARD then first x.nodes NULL else last NULL x.nodes, w])) :
    Sweeping F K R x dir it [] (if dir = FORWARD then x.nodes else x.nodes.reverse) m := by
  have hahead : x.setNodes (ahead dir [] (if dir = FORWARD then x.nodes else x.nodes.reverse)) = x := by
    unfold ahead
    split_ifs <;> simp [DList.setNodes]
  have hnext : (if dir = FORWARD then first x.nodes NULL else last NULL x.nodes) =
      first (if dir = FORWARD then x.nodes else x.nodes.reverse) NULL := by
    split_ifs
    · rfl
    · rw [← last_reverse, List.reverse_reverse]
  rw [hnext] at hi
  constructor
  · rwa [hahead]
  · exact ⟨w, hw, hi⟩
  · rwa [hahead]
  · rwa [hahead]

theorem swept {ps : List Addr}
    (hps : ps = (if dir = FORWARD then x.nodes else x.nodes.reverse).map Prod.fst)
    (h : Sweeping F K R x dir it (ahead dir []
      ((if dir = FORWARD then x.nodes else x.nodes.reverse).filter fun n => !remove n.1)) [] s.mem) :
    Swept x remove dir it ps s := by
  have hahead : ahead dir (ahead dir []
      ((if dir = FORWARD then x.nodes else x.nodes.reverse).filter fun n => !remove n.1)) [] =
      x.nodes.filter fun n => !remove n.1 := by
    unfold ahead
    split_ifs <;> simp [List.filter_reverse]
  obtain ⟨hhangs, ⟨w, -, hi⟩, -, -⟩ := h
  rw [hahead] at hhangs
  refine ⟨?_, hhangs.wellFormed, hhangs, ?_⟩
  · rw [hps]
    split_ifs
    · rfl
    · exact List.map_reverse
  · apply wp.eq_ok
    exact wp_listNext_null (Cells.one hi) ⟨rfl, rfl⟩

end Sweeping

/-- A loop over a list that deletes what it likes of the nodes it meets returns every node once, in
the order of the direction, and leaves the others in a well-formed list, whether its iterator is new
or one that was rewound. -/
theorem sweep_meets_every_node (L : Libc) (F : Methods) (x : DList) (remove : Addr → Bool) (K : Set Addr)
    (R : Multiset Addr → Mem → Prop) (s : State Globals) (n : ℕ) (hx : x.Hangs s.mem)
    (hfree : x.free ≠ NULL → FreesIn F x.free K R ∧ R ↑x.values s.mem)
    (hK : ∀ q ∈ K, q ∉ x.blocks ∧ block s.mem q ≠ none) (hn : x.nodes.length < n) :
    (∀ dir, wp Safe (do
        let iter ← listGetIterator L x.addr dir
        let nodes ← sweep F x.addr iter remove n
        return (iter, nodes)) (fun r s' => Swept x remove dir r.1 r.2 s') s) ∧
    ∀ it next w, Holds s.mem it (words [next, w]) → it ∉ K →
      wp Safe (do
        listRewind x.addr it
        sweep F x.addr it remove n) (fun nodes s' => Swept x remove FORWARD it nodes s') s ∧
      wp Safe (do
        listRewindTail x.addr it
        sweep F x.addr it remove n) (fun nodes s' => Swept x remove BACKWARD it nodes s') s := by
  have hlen : ∀ dir : BitVec 32, (if dir = FORWARD then x.nodes else x.nodes.reverse).length < n := by
    intro dir
    split_ifs
    · exact hn
    · rwa [List.length_reverse]
  -- an iterator beside the list, that stands at one end of it
  have hloop : ∀ {dir : BitVec 32} {it w : Addr} {m : Mem} (g : Globals) (t : List Event), it ∉ K →
      it ∉ x.blocks → w.setWidth 32 = dir → Cells s.mem m [(it,
        [if dir = FORWARD then first x.nodes NULL else last NULL x.nodes, w])] →
      wp Safe (sweep F x.addr it remove n) (fun nodes s' => Swept x remove dir it nodes s') ⟨m, g, t⟩ := by
    intro dir it w m g t hitK hit hw hc
    have hother : ∀ q, q ≠ it → block m q = block s.mem q := fun q hq => hc.frame q (by simpa using hq)
    have hKit : ∀ q ∈ K, q ≠ it := fun q hq => ne_of_mem_of_not_mem hq hitK
    have hhangs : x.Hangs m := hx.congr fun q hq => hother q (ne_of_mem_of_not_mem hq hit)
    have hfree' : x.free ≠ NULL → FreesIn F x.free K R ∧ R ↑x.values m := by
      intro hne
      obtain ⟨hF, hR⟩ := hfree hne
      exact ⟨hF, hF.keep hR fun q hq => hother q (hKit q hq)⟩
    have hstart := Sweeping.start hhangs hfree' (fun q hq => ⟨(hK q hq).1, hKit q hq⟩) hw (hc.get_holds 0 rfl)
    refine (wp_sweep (s := ⟨m, g, t⟩) hstart (hlen dir)).mono fun ps s' hpost => ?_
    exact hpost.2.swept hpost.1
  constructor
  · intro dir
    rw [wp_bind]
    refine (wp_listGetIterator hx.header rfl rfl).mono fun it s₁ hpost => ?_
    obtain ⟨hnew, w, hw, hc⟩ := hpost
    have hit : it ∉ x.blocks := fun hmem => ne_of_live hnew (hx.live hmem) rfl
    rw [wp_bind]
    exact (hloop s₁.glob s₁.trace (fun hmem => (hK it hmem).2 hnew) hit hw hc).mono
      fun nodes s' hswept => wp_pure.mpr hswept
  · intro it next w hi hitK
    have hit := hx.iter_notMem hi
    have hit' : x.addr ∉ [it] := fun hmem => hit (by
      rw [← List.mem_singleton.mp hmem]
      exact List.mem_cons_self)
    have hc : Cells s.mem s.mem [(it, [next, w])] := Cells.one hi
    constructor
    · rw [wp_bind, listRewind, wp_bind, wp_getField hx.header rfl]
      refine wp_bind.mpr (hc.set 0 rfl rfl fun m hc => ?_)
      refine hc.setInt 0 rfl rfl fun m w hw hc => ?_
      exact hloop _ _ hitK hit hw hc
    · rw [wp_bind, listRewindTail, wp_bind, wp_getField hx.header rfl]
      refine wp_bind.mpr (hc.set 0 rfl rfl fun m hc => ?_)
      refine hc.setInt 0 rfl rfl fun m w hw hc => ?_
      exact hloop _ _ hitK hit hw hc

/-- A list of two values that its free method gives back, and an iterator at its tail. -/
def walk₂ : State Globals := after (listGetIterator (bump 0) 0x1008 BACKWARD) walk₁

theorem hangs_walked : walked.Hangs walk₂.mem := by
  have hheader : Holds walk₂.mem 0x1008 (words walked.header) :=
    ⟨by decide +kernel, by decide, by decide, by decide⟩
  have hleft : NodeAt walk₂.mem NULL 0x3008 0x5008 0x2008 := ⟨by decide +kernel, by decide, by decide, by decide⟩
  have hright : NodeAt walk₂.mem 0x3008 0x5008 NULL 0x4008 := ⟨by decide +kernel, by decide, by decide, by decide⟩
  exact ⟨hheader, hleft, hright, trivial⟩

theorem sweep_meets_every_node_pair :
    (∀ dir, wp Safe (do
      let iter ← listGetIterator (bump 0) walked.addr dir
      let nodes ← sweep intMethods walked.addr iter (· == 0x3008) 3
      return (iter, nodes)) (fun r s' => Swept walked (· == 0x3008) dir r.1 r.2 s') walk₂) ∧
    wp Safe (do
      listRewind walked.addr 0x6008
      sweep intMethods walked.addr 0x6008 (· == 0x3008) 3)
        (fun nodes s' => Swept walked (· == 0x3008) FORWARD 0x6008 nodes s') walk₂ := by
  have hvalue₁ : Holds walk₂.mem 0x2008 [7, 0, 0, 0] := ⟨by decide +kernel, by decide, by decide, by decide⟩
  have hvalue₂ : Holds walk₂.mem 0x4008 [8, 0, 0, 0] := ⟨by decide +kernel, by decide, by decide, by decide⟩
  have hiter : Holds walk₂.mem 0x6008 (words [0x5008, 1]) := ⟨by decide +kernel, by decide, by decide, by decide⟩
  have hlive : ∀ v ∈ ([0x2008, 0x4008] : List Addr), ∃ bs, Holds walk₂.mem v bs := by
    simp only [List.forall_mem_cons]
    exact ⟨⟨_, hvalue₁⟩, ⟨_, hvalue₂⟩, by simp⟩
  have hK : ∀ q ∈ {q | q ∈ ([0x2008, 0x4008] : List Addr)}, q ∉ walked.blocks ∧ block walk₂.mem q ≠ none := by
    intro q hq
    obtain ⟨bs, hbs⟩ := hlive q hq
    have hapart : ∀ v ∈ ([0x2008, 0x4008] : List Addr), v ∉ walked.blocks := by
      simp [walked, DList.blocks, DList.addrs]
    exact ⟨hapart q hq, hbs.live⟩
  have hvalues : (↑walked.values : Multiset Addr).Nodup := by decide
  have hsweep := sweep_meets_every_node (bump 0) intMethods walked (· == 0x3008) {q | q ∈ [0x2008, 0x4008]}
    (fun vs m => vs.Nodup ∧ ∀ v ∈ vs, v ∈ [0x2008, 0x4008] ∧ ∃ bs, Holds m v bs) walk₂ 3 hangs_walked
    (fun _ => ⟨freesIn_zfree (fun _ => rfl) _, hvalues, fun v hv => ⟨hv, hlive v hv⟩⟩) hK (by decide)
  have hit : (0x6008 : Addr) ∉ {q | q ∈ ([0x2008, 0x4008] : List Addr)} := by simp
  generalize walk₂ = s at *
  exact ⟨hsweep.1, (hsweep.2 0x6008 0x5008 1 hiter hit).1⟩

end Redis
