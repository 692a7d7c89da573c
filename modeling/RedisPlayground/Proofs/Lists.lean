import RedisPlayground.Memory.Links
import RedisPlayground.Proofs.Cells
import RedisPlayground.Proofs.ListBooks

/-! Lists on the heap. A `DList` is a list header with the nodes that hang from
it. Each function of `adlist.cc` that changes a list is described by the
`DList` it leaves, whoever the values in the nodes belong to: what the free
method of the list does is a parameter. -/

namespace Redis

open CMem

structure DList where
  addr : Addr
  nodes : List (Addr × Addr)
  dup : Addr
  free : Addr
  match' : Addr

/-- The list with other nodes. -/
def DList.setNodes (x : DList) (ns : List (Addr × Addr)) : DList := { x with nodes := ns }

/-- The values of a list with free method `f` that belong to it. -/
def owns (f : Addr) (vs : List Addr) : List Addr := if f = NULL then [] else vs

namespace DList

def addrs (x : DList) : List Addr := x.nodes.map Prod.fst

def values (x : DList) : List Addr := x.nodes.map Prod.snd

/-- The blocks of the list itself. -/
def blocks (x : DList) : List Addr := x.addr :: x.addrs

def header (x : DList) : List Word :=
  [first x.nodes NULL, last NULL x.nodes, BitVec.ofNat 64 x.nodes.length, x.dup, x.free, x.match']

end DList

def NodeAt (m : Mem) (a p b v : Addr) : Prop := Holds m p (words [a, b, v])

/-- The list is well formed: its header and its nodes are there, linked in both directions. -/
structure DList.Hangs (m : Mem) (x : DList) : Prop where
  header : Holds m x.addr (words x.header)
  links : Linked (NodeAt m) NULL x.nodes NULL

/-- `m'` differs from `m` in the blocks `ps` only. -/
def Within (ps : List Addr) (m m' : Mem) : Prop := ∀ q ∉ ps, block m' q = block m q

/-- `m'` is as `m` in the blocks `ps`. -/
def Spares (ps : List Addr) (m m' : Mem) : Prop := ∀ q ∈ ps, block m' q = block m q

variable {L : Libc} {F : Methods} {m m' m₀ : Mem} {x : DList} {p v l f a b : Addr}
  {ns xs ys : List (Addr × Addr)} {ps : List Addr}

theorem Within.trans {m'' : Mem} (h : Within ps m m') (h' : Within ps m' m'') : Within ps m m'' :=
  fun q hq => (h' q hq).trans (h q hq)

theorem NodeAt.congr (h : NodeAt m a p b v) (heq : block m' p = block m p) : NodeAt m' a p b v :=
  Holds.congr h heq

theorem Linked.null_notMem (h : Linked (NodeAt m) a ns b) : NULL ∉ ns.map Prod.fst := by
  intro hmem
  obtain ⟨c, d, w, hnode⟩ := Linked.node h hmem
  exact hnode.ne_null rfl

theorem ofNat_inj {n k : ℕ} (hn : n < 2 ^ 64) (hk : k < 2 ^ 64)
    (h : BitVec.ofNat 64 n = BitVec.ofNat 64 k) : n = k := by
  have heq := congrArg BitVec.toNat h
  rwa [BitVec.toNat_ofNat, BitVec.toNat_ofNat, Nat.mod_eq_of_lt hn, Nat.mod_eq_of_lt hk] at heq

theorem length_le_of_nodup {ps : List Addr} (h : ps.Nodup) : ps.length ≤ 2 ^ 64 := by
  have hsub : ps.map BitVec.toNat ⊆ List.range (2 ^ 64) := by
    intro n hn
    obtain ⟨p, -, rfl⟩ := List.mem_map.mp hn
    exact List.mem_range.mpr p.isLt
  have hle := ((h.map BitVec.toNat_injective).subperm hsub).length_le
  rwa [List.length_map, List.length_range] at hle

theorem NodeAt.unique {a' b' v' : Addr} (h : NodeAt m a p b v) (h' : NodeAt m a' p b' v') : b = b' ∧ v = v' := by
  have heq : [a, b, v] = [a', b', v'] := h.words_unique h'
  simp only [List.cons.injEq, and_true] at heq
  exact heq.2

namespace DList.Hangs

variable (h : x.Hangs m)

include h

/-- A header is longer than a node, and a walk along the nodes ends. -/
theorem nodup : x.blocks.Nodup := by
  have hnodes : x.addrs.Nodup := by
    apply h.links.nodup
    · exact NodeAt.unique
    · exact fun hnode => hnode.ne_null rfl
  refine List.nodup_cons.mpr ⟨fun hmem => ?_, hnodes⟩
  obtain ⟨a, b, v, hnode⟩ := Linked.node h.links hmem
  have heq := congrArg List.length (h.header.words_unique hnode)
  simp [DList.header] at heq

theorem live (hp : p ∈ x.blocks) : ∃ bs, Holds m p bs := by
  rcases List.mem_cons.mp hp with rfl | hp
  · exact ⟨_, h.header⟩
  · obtain ⟨c, d, w, hnode⟩ := Linked.node h.links hp
    exact ⟨_, hnode⟩

theorem congr (hm : Spares x.blocks m m') : x.Hangs m' where
  header := h.header.congr (hm _ List.mem_cons_self)
  links := h.links.mono fun q hq _ _ _ hnode => hnode.congr (hm q (List.mem_cons_of_mem _ hq))

/-- The length of a list fits in its field. -/
theorem length_lt : x.nodes.length < 2 ^ 64 := by
  have hle := length_le_of_nodup h.nodup
  rwa [blocks, List.length_cons, addrs, List.length_map] at hle

/-- The pointers of a list say whether it is empty. -/
theorem head_eq_null : first x.nodes NULL = NULL ↔ x.nodes = [] :=
  first_eq_iff (Linked.null_notMem h.links)

theorem tail_eq_null : last NULL x.nodes = NULL ↔ x.nodes = [] :=
  last_eq_iff (Linked.null_notMem h.links)

/-- A walk over a list takes fewer steps than there are live blocks. -/
theorem length_lt_card : x.nodes.length < m.keys.card := by
  have hlive : ∀ q ∈ x.blocks, block m q ≠ none := by
    intro q hq
    obtain ⟨bs, hbs⟩ := h.live hq
    exact hbs.live
  have hcard := length_le_card h.nodup hlive
  rwa [blocks, List.length_cons, addrs, List.length_map] at hcard

end DList.Hangs

/-- A node met when following `next` from the head. -/
inductive Member (s : State Globals) (l : Addr) : Addr → Prop where
  | head {p : Addr} : listFirst l s = .ok (p, s) → p ≠ NULL → Member s l p
  | next {p q : Addr} : Member s l p → listNextNode p s = .ok (q, s) → q ≠ NULL → Member s l q

/-- A member of a list is one of its nodes. -/
theorem Member.split {s : State Globals} (hp : Member s x.addr p) (h : x.Hangs s.mem) :
    ∃ xs v ys, x.nodes = xs ++ (p, v) :: ys := by
  induction hp with
  | head hfirst hne =>
    have heq := hfirst.symm.trans (getField_ok h.header rfl)
    simp only [Except.ok.injEq, Prod.mk.injEq, and_true] at heq
    subst heq
    obtain ⟨⟨q, w⟩, ns, hns⟩ := List.exists_cons_of_ne_nil (mt h.head_eq_null.mpr hne)
    exact ⟨[], w, ns, by rw [hns]; rfl⟩
  | next _ hnext hne ih =>
    obtain ⟨xs, v, ys, hx⟩ := ih
    obtain ⟨-, hp, hys⟩ := linked_split.mp (hx ▸ h.links)
    have heq := hnext.symm.trans (getField_ok hp rfl)
    simp only [Except.ok.injEq, Prod.mk.injEq, and_true] at heq
    subst heq
    rcases ys with - | ⟨⟨q, w⟩, ys⟩
    · exact absurd rfl hne
    · exact ⟨xs ++ [(_, v)], w, ys, by rw [hx, List.append_assoc]; rfl⟩

theorem Member.of_split {s : State Globals} (h : x.Hangs s.mem) (hx : x.nodes = xs ++ (p, v) :: ys) :
    Member s x.addr p := by
  induction xs using List.reverseRecOn generalizing p v ys with
  | nil =>
    have hnode := h.links
    rw [hx] at hnode
    refine Member.head (getField_ok h.header ?_) hnode.1.ne_null
    rw [DList.header, hx]
    rfl
  | append_singleton xs n ih =>
    obtain ⟨q, w⟩ := n
    rw [List.append_assoc] at hx
    have hlinks := h.links
    rw [hx] at hlinks
    obtain ⟨-, hq, hp⟩ := linked_split.mp hlinks
    exact Member.next (ih hx) (getField_ok hq rfl) hp.1.ne_null

theorem wp_listCreate {s : State Globals} : wp Safe (listCreate L) (fun l s' => block s.mem l = none ∧
    Cells s.mem s'.mem [(l, [NULL, NULL, 0, NULL, NULL, NULL])]) s := by
  have hc₀ : Cells s.mem s.mem [] := Cells.nil
  rw [listCreate, wp_bind]
  refine hc₀.zmalloc (n := 6) rfl rfl (by norm_num) fun l ws m g t hlen hnew _ hc => ?_
  rw [if_neg (hc.get_holds 0 rfl).ne_null]
  match ws, hlen with
  | [_, _, _, _, _, _], _ =>
    refine wp_bind.mpr (hc.set 0 rfl rfl fun m hc => ?_)
    refine wp_bind.mpr (hc.set 0 rfl rfl fun m hc => ?_)
    refine wp_bind.mpr (hc.set 0 rfl rfl fun m hc => ?_)
    refine wp_bind.mpr (hc.set 0 rfl rfl fun m hc => ?_)
    refine wp_bind.mpr (hc.set 0 rfl rfl fun m hc => ?_)
    exact wp_bind.mpr (hc.set 0 rfl rfl fun m hc => wp_pure.mpr ⟨hnew, hc⟩)

section Add

variable {s : State Globals}

/-- The blocks of a list besides the node `(p, v)`. -/
theorem DList.blocks_node : (x.setNodes (xs ++ (p, v) :: ys)).blocks.Perm
    (p :: (x.setNodes (xs ++ ys)).blocks) := by
  simp only [blocks, addrs, setNodes, List.map_append, List.map_cons]
  exact (List.perm_middle.cons _).trans (List.Perm.swap _ _ _)

/-- How the functions that add a node end: the new node `p` hangs between `xs` and `ys`. -/
structure Added (m m' : Mem) (x : DList) (xs : List (Addr × Addr)) (p v : Addr)
    (ys : List (Addr × Addr)) : Prop where
  fresh : block m p = none
  within : Within (p :: (x.setNodes (xs ++ ys)).blocks) m m'
  hangs : (x.setNodes (xs ++ (p, v) :: ys)).Hangs m'

theorem Added.of_cells {cs : List (Addr × List Word)} (xs ys : List (Addr × Addr))
    (hnew : block m₀ p = none) (hc : Cells m₀ m cs)
    (hcs : ∀ q ∈ cs.map Prod.fst, q = p ∨ q = x.addr ∨ q ∈ (xs ++ ys).map Prod.fst)
    (hheader : Holds m x.addr (words (x.setNodes (xs ++ (p, v) :: ys)).header))
    (hlinks : Linked (NodeAt m) NULL (xs ++ (p, v) :: ys) NULL) : Added m₀ m x xs p v ys := by
  refine ⟨hnew, fun q hq => hc.frame q fun hmem => hq ?_, hheader, hlinks⟩
  rcases hcs q hmem with rfl | rfl | hmem
  · exact List.mem_cons_self
  · exact List.mem_cons_of_mem _ List.mem_cons_self
  · exact List.mem_cons_of_mem _ (List.mem_cons_of_mem _ hmem)

theorem wp_listAddNodeHead (h : x.Hangs s.mem) :
    wp Safe (listAddNodeHead L x.addr v) (fun r s' => r = x.addr ∧ ∃ p,
      Added s.mem s'.mem x [] p v x.nodes) s := by
  obtain ⟨hl, hns⟩ := List.nodup_cons.mp h.nodup
  have hc₀ : Cells s.mem s.mem [(x.addr, x.header)] := Cells.one h.header
  rw [listAddNodeHead, wp_bind]
  refine hc₀.zmalloc (n := 3) rfl rfl (by norm_num) fun p ws m g t hlen hnew hp hc => ?_
  match ws, hlen with
  | [_, _, _], _ =>
    refine wp_bind.mpr (hc.set 0 rfl rfl fun m hc => ?_)
    refine wp_bind.mpr (hc.get 1 rfl rfl ?_)
    refine wp_bind.mpr (hc.set 0 rfl rfl fun m hc => ?_)
    rw [wp_bind]
    by_cases hx : x.nodes = []
    · rw [if_pos (h.head_eq_null.mpr hx)]
      refine hc.set 1 rfl rfl fun m hc => ?_
      refine wp_bind.mpr (hc.set 0 rfl rfl fun m hc => ?_)
      refine wp_bind.mpr (hc.set 1 rfl rfl fun m hc => ?_)
      refine wp_bind.mpr (hc.get 1 rfl rfl ?_)
      refine wp_bind.mpr (hc.set 1 rfl rfl fun m hc => wp_pure.mpr ⟨rfl, p, ?_⟩)
      have hc : Cells s.mem m [(p, [NULL, first x.nodes NULL, v]),
        (x.addr, [p, p, BitVec.ofNat 64 x.nodes.length + 1, x.dup, x.free, x.match'])] := hc
      refine Added.of_cells [] x.nodes hnew hc (by simp) ?_ ?_
      · simpa [DList.header, DList.setNodes, hx] using hc.get_holds 1 rfl
      · exact ⟨hc.get_holds 0 rfl, by rw [hx]; trivial⟩
    · rw [if_neg (mt h.head_eq_null.mp hx)]
      have hq : first x.nodes NULL ∈ x.addrs := first_mem hx
      have hql : first x.nodes NULL ≠ x.addr := ne_of_mem_of_not_mem hq hl
      obtain ⟨d, w, hnode⟩ := h.links.first_cell hx
      have hqp : first x.nodes NULL ≠ p := ne_of_live hnew ⟨_, hnode⟩
      have hc := hc.add (by simp [hqp, hql]) hnode
      refine hc.set 0 rfl rfl fun m hc => ?_
      refine wp_bind.mpr (hc.set 1 rfl rfl fun m hc => ?_)
      refine wp_bind.mpr (hc.set 2 rfl rfl fun m hc => ?_)
      refine wp_bind.mpr (hc.get 2 rfl rfl ?_)
      refine wp_bind.mpr (hc.set 2 rfl rfl fun m hc => wp_pure.mpr ⟨rfl, p, ?_⟩)
      have hc : Cells s.mem m [(first x.nodes NULL, [p, d, w]), (p, [NULL, first x.nodes NULL, v]),
        (x.addr, [p, last NULL x.nodes, BitVec.ofNat 64 x.nodes.length + 1, x.dup, x.free,
          x.match'])] := hc
      refine Added.of_cells [] x.nodes hnew hc ?_ ?_ ?_
      · simpa [DList.addrs] using Or.inr (Or.inr hq)
      · simpa [DList.header, DList.setNodes, BitVec.ofNat_add, last_eq_last hx p NULL]
          using hc.get_holds 2 rfl
      · refine ⟨hc.get_holds 1 rfl, h.links.set_prev hns ?_ ?_⟩
        · intro r hr hne _ _ _ hcell
          refine hcell.congr (hc.frame r ?_)
          have hrp : r ≠ p := ne_of_live hnew ⟨_, hcell⟩
          simp [hne, hrp, ne_of_mem_of_not_mem hr hl]
        · intro _ y e hcell
          obtain ⟨rfl, rfl⟩ : y = d ∧ e = w := by simpa using hcell.words_unique hnode
          exact hc.get_holds 0 rfl

theorem wp_listAddNodeTail (h : x.Hangs s.mem) :
    wp Safe (listAddNodeTail L x.addr v) (fun r s' => r = x.addr ∧ ∃ p,
      Added s.mem s'.mem x x.nodes p v []) s := by
  obtain ⟨hl, hns⟩ := List.nodup_cons.mp h.nodup
  have hc₀ : Cells s.mem s.mem [(x.addr, x.header)] := Cells.one h.header
  rw [listAddNodeTail, wp_bind]
  refine hc₀.zmalloc (n := 3) rfl rfl (by norm_num) fun p ws m g t hlen hnew hp hc => ?_
  match ws, hlen with
  | [_, _, _], _ =>
    refine wp_bind.mpr (hc.set 0 rfl rfl fun m hc => ?_)
    refine wp_bind.mpr (hc.get 1 rfl rfl ?_)
    refine wp_bind.mpr (hc.set 0 rfl rfl fun m hc => ?_)
    rw [wp_bind]
    by_cases hx : x.nodes = []
    · rw [if_pos (h.tail_eq_null.mpr hx)]
      refine hc.set 1 rfl rfl fun m hc => ?_
      refine wp_bind.mpr (hc.set 1 rfl rfl fun m hc => ?_)
      refine wp_bind.mpr (hc.set 0 rfl rfl fun m hc => ?_)
      refine wp_bind.mpr (hc.get 1 rfl rfl ?_)
      refine wp_bind.mpr (hc.set 1 rfl rfl fun m hc => wp_pure.mpr ⟨rfl, p, ?_⟩)
      have hc : Cells s.mem m [(p, [last NULL x.nodes, NULL, v]),
        (x.addr, [p, p, BitVec.ofNat 64 x.nodes.length + 1, x.dup, x.free, x.match'])] := hc
      refine Added.of_cells x.nodes [] hnew hc (by simp) ?_ ?_
      · simpa [DList.header, DList.setNodes, hx] using hc.get_holds 1 rfl
      · exact linked_split.mpr ⟨by rw [hx]; trivial, hc.get_holds 0 rfl, trivial⟩
    · rw [if_neg (mt h.tail_eq_null.mp hx)]
      have hq : last NULL x.nodes ∈ x.addrs := last_mem hx
      have hql : last NULL x.nodes ≠ x.addr := ne_of_mem_of_not_mem hq hl
      obtain ⟨d, w, hnode⟩ := h.links.last_cell hx
      have hqp : last NULL x.nodes ≠ p := ne_of_live hnew ⟨_, hnode⟩
      have hc := hc.add (by simp [hqp, hql]) hnode
      refine hc.set 0 rfl rfl fun m hc => ?_
      refine wp_bind.mpr (hc.set 2 rfl rfl fun m hc => ?_)
      refine wp_bind.mpr (hc.set 1 rfl rfl fun m hc => ?_)
      refine wp_bind.mpr (hc.get 2 rfl rfl ?_)
      refine wp_bind.mpr (hc.set 2 rfl rfl fun m hc => wp_pure.mpr ⟨rfl, p, ?_⟩)
      have hc : Cells s.mem m [(last NULL x.nodes, [d, p, w]), (p, [last NULL x.nodes, NULL, v]),
        (x.addr, [first x.nodes NULL, p, BitVec.ofNat 64 x.nodes.length + 1, x.dup, x.free,
          x.match'])] := hc
      refine Added.of_cells x.nodes [] hnew hc ?_ ?_ ?_
      · simpa [DList.addrs] using Or.inr (Or.inr hq)
      · simpa [DList.header, DList.setNodes, BitVec.ofNat_add, first_eq_first hx p NULL]
          using hc.get_holds 2 rfl
      · refine linked_split.mpr ⟨h.links.set_next hns ?_ ?_, hc.get_holds 1 rfl, trivial⟩
        · intro r hr hne _ _ _ hcell
          refine hcell.congr (hc.frame r ?_)
          have hrp : r ≠ p := ne_of_live hnew ⟨_, hcell⟩
          simp [hne, hrp, ne_of_mem_of_not_mem hr hl]
        · intro _ y e hcell
          obtain ⟨rfl, rfl⟩ : y = d ∧ e = w := by simpa using hcell.words_unique hnode
          exact hc.get_holds 0 rfl

end Add

theorem within_setNodes (h : ∀ q, q ≠ x.addr → q ∉ ns.map Prod.fst → block m' q = block m q) :
    Within (x.setNodes ns).blocks m m' := by
  intro q hq
  obtain ⟨hl, hns⟩ := not_or.mp (mt List.mem_cons.mpr hq)
  exact h q hl hns

section Delete

variable {s s' s₁ s₂ : State Globals} {E : Stop → Prop} {R : State Globals → Prop}

/-- What `if(list->free) list->free(node->value)` comes to for a free method `f`. -/
def freed (F : Methods) (f v : Addr) : M Unit := if f = NULL then return () else callFree F f v

theorem wp_freeValue {Q : Unit → State Globals → Prop} {hdr : List Word} (hl : Holds s.mem l (words hdr))
    (hf : hdr[list.free]? = some f) (hp : NodeAt s.mem a p b v) :
    wp E (freeValue F l p) Q s ↔ wp E (freed F f v) Q s := by
  rw [freeValue, freed, wp_bind, wp_getField hl hf]
  by_cases hnull : f = NULL
  · rw [if_pos hnull, if_pos hnull]
  · rw [if_neg hnull, if_neg hnull, wp_bind, wp_getField hp rfl]

/-- What `listUnlink` leaves: the node is out of the links and still there. -/
structure Unlinked (m₀ m : Mem) (x : DList) (xs : List (Addr × Addr)) (p v : Addr)
    (ys : List (Addr × Addr)) : Prop where
  header : Holds m x.addr (words [first (xs ++ ys) NULL, last NULL (xs ++ ys),
    BitVec.ofNat 64 (xs ++ (p, v) :: ys).length, x.dup, x.free, x.match'])
  node : ∃ a b, NodeAt m a p b v
  links : Linked (NodeAt m) NULL (xs ++ ys) NULL
  within : Within (x.setNodes (xs ++ (p, v) :: ys)).blocks m₀ m

/-- The addresses of a list are different. -/
structure Apart (l p : Addr) (xs ys : List (Addr × Addr)) : Prop where
  xs_nodup : (xs.map Prod.fst).Nodup
  ys_nodup : (ys.map Prod.fst).Nodup
  node : p ≠ l
  left : ∀ q ∈ xs.map Prod.fst, q ≠ p ∧ q ≠ l
  right : ∀ q ∈ ys.map Prod.fst, q ≠ p ∧ q ≠ l
  sides : ∀ q ∈ xs.map Prod.fst, ∀ r ∈ ys.map Prod.fst, q ≠ r

theorem DList.apart (hn : (x.setNodes (xs ++ (p, v) :: ys)).blocks.Nodup) : Apart x.addr p xs ys := by
  obtain ⟨hl, hns⟩ := List.nodup_cons.mp hn
  simp only [setNodes, addrs, List.map_append, List.map_cons, List.mem_append, List.mem_cons,
    not_or] at hl
  simp only [setNodes, addrs, List.map_append, List.map_cons, List.nodup_append, List.nodup_cons,
    List.forall_mem_cons] at hns
  exact ⟨hns.1, hns.2.1.2, Ne.symm hl.2.1,
    fun q hq => ⟨(hns.2.2 q hq).1, fun heq => hl.1 (heq ▸ hq)⟩,
    fun q hq => ⟨fun heq => hns.2.1.1 (heq ▸ hq), fun heq => hl.2.2 (heq ▸ hq)⟩,
    fun q hq => (hns.2.2 q hq).2⟩

theorem wp_listUnlink (h : (x.setNodes (xs ++ (p, v) :: ys)).Hangs s.mem) (hne : xs ++ ys ≠ []) :
    wp E (listUnlink x.addr p) (fun _ s' => Unlinked s.mem s'.mem x xs p v ys) s := by
  have hap := DList.apart h.nodup
  obtain ⟨hxs, hp, hys⟩ := linked_split.mp h.links
  have hc₀ : Cells s.mem s.mem [(p, [last NULL xs, first ys NULL, v]),
      (x.addr, [first (xs ++ (p, v) :: ys) NULL, last NULL (xs ++ (p, v) :: ys),
        BitVec.ofNat 64 (xs ++ (p, v) :: ys).length, x.dup, x.free, x.match'])] :=
    (Cells.one h.header).add (fun hmem => hap.node (List.mem_singleton.mp hmem)) hp
  refine wp_bind.mpr (hc₀.get 1 rfl rfl ?_)
  by_cases hx : xs = []
  · subst hx
    have hy : ys ≠ [] := hne
    have hr := first_mem (b := NULL) hy
    obtain ⟨d, w, hright⟩ := hys.first_cell hy
    rw [if_pos (show p = first ([] ++ (p, v) :: ys) NULL from rfl)]
    refine wp_bind.mpr (hc₀.get 0 rfl rfl ?_)
    have hc := hc₀.add (by simp [hap.right _ hr]) hright
    refine wp_bind.mpr (hc.set 2 rfl rfl fun m hc => ?_)
    refine hc.set 0 rfl rfl fun m hc => ?_
    have hc : Cells s.mem m [(first ys NULL, [NULL, d, w]), (p, [NULL, first ys NULL, v]),
      (x.addr, [first ys NULL, last p ys, BitVec.ofNat 64 ([] ++ (p, v) :: ys).length, x.dup, x.free,
        x.match'])] := hc
    refine ⟨?_, ⟨_, _, hc.get_holds 1 rfl⟩, ?_, ?_⟩
    · rw [last_eq_last hy p NULL] at hc
      exact hc.get_holds 2 rfl
    · refine hys.set_prev hap.ys_nodup ?_ ?_
      · intro q hq hne _ _ _ hcell
        exact hcell.congr (hc.frame q (by simp [hne, hap.right q hq]))
      · intro _ y e hcell
        obtain ⟨rfl, rfl⟩ : y = d ∧ e = w := by simpa using hcell.words_unique hright
        exact hc.get_holds 0 rfl
    · apply within_setNodes
      intro q hl hq
      rw [List.nil_append, List.map_cons, List.mem_cons, not_or] at hq
      exact hc.frame q (by simp [hl, hq.1, (ne_of_mem_of_not_mem hr hq.2).symm])
  · have hleft := last_mem (a := NULL) hx
    obtain ⟨d, w, hlast⟩ := hxs.last_cell hx
    have hpne : p ≠ first (xs ++ (p, v) :: ys) NULL := by
      rw [first_append]
      exact ((hap.left _ (first_mem hx)).1).symm
    rw [if_neg hpne]
    refine wp_bind.mpr (hc₀.get 1 rfl rfl ?_)
    have hc := hc₀.add (by simp [hap.left _ hleft]) hlast
    by_cases hy : ys = []
    · subst hy
      rw [if_pos (by rw [last_append]; rfl)]
      refine wp_bind.mpr (hc₀.get 0 rfl rfl ?_)
      refine wp_bind.mpr (hc.set 2 rfl rfl fun m hc => ?_)
      refine hc.set 0 rfl rfl fun m hc => ?_
      have hc : Cells s.mem m [(last NULL xs, [d, NULL, w]), (p, [last NULL xs, NULL, v]),
        (x.addr, [first (xs ++ [(p, v)]) NULL, last NULL xs, BitVec.ofNat 64 (xs ++ [(p, v)]).length,
          x.dup, x.free, x.match'])] := hc
      refine ⟨?_, ⟨_, _, hc.get_holds 1 rfl⟩, ?_, ?_⟩
      · have hfirst : first (xs ++ []) NULL = first (xs ++ [(p, v)]) NULL := by
          rw [first_append, first_append]
          exact first_eq_first hx _ _
        rw [hfirst, List.append_nil]
        exact hc.get_holds 2 rfl
      · rw [List.append_nil]
        refine hxs.set_next hap.xs_nodup ?_ ?_
        · intro q hq hne _ _ _ hcell
          exact hcell.congr (hc.frame q (by simp [hne, hap.left q hq]))
        · intro _ y e hcell
          obtain ⟨rfl, rfl⟩ : y = d ∧ e = w := by simpa using hcell.words_unique hlast
          exact hc.get_holds 0 rfl
      · apply within_setNodes
        intro q hl hq
        rw [List.map_append, List.mem_append, not_or] at hq
        have hqp : q ≠ p := by simpa using hq.2
        exact hc.frame q (by simp [hl, hqp, (ne_of_mem_of_not_mem hleft hq.1).symm])
    · have hpne : p ≠ last NULL (xs ++ (p, v) :: ys) := by
        rw [last_append]
        exact ((hap.right _ (last_mem hy)).1).symm
      rw [if_neg hpne]
      have hr := first_mem (b := NULL) hy
      obtain ⟨d', w', hright⟩ := hys.first_cell hy
      have hc := hc.add (by simp [hap.right _ hr, (hap.sides _ hleft _ hr).symm]) hright
      refine wp_bind.mpr (hc₀.get 0 rfl rfl ?_)
      refine wp_bind.mpr (hc₀.get 0 rfl rfl ?_)
      refine wp_bind.mpr (hc.set 1 rfl rfl fun m hc => ?_)
      refine hc.set 0 rfl rfl fun m hc => ?_
      have hc : Cells s.mem m [(first ys NULL, [last NULL xs, d', w']),
        (last NULL xs, [d, first ys NULL, w]), (p, [last NULL xs, first ys NULL, v]),
        (x.addr, [first (xs ++ (p, v) :: ys) NULL, last NULL (xs ++ (p, v) :: ys),
          BitVec.ofNat 64 (xs ++ (p, v) :: ys).length, x.dup, x.free, x.match'])] := hc
      refine ⟨?_, ⟨_, _, hc.get_holds 2 rfl⟩, ?_, ?_⟩
      · have hfirst : first (xs ++ ys) NULL = first (xs ++ (p, v) :: ys) NULL := by
          rw [first_append, first_append]
          exact first_eq_first hx _ _
        have hlast : last NULL (xs ++ ys) = last NULL (xs ++ (p, v) :: ys) := by
          rw [last_append, last_append, last_cons]
          exact last_eq_last hy _ _
        rw [hfirst, hlast]
        exact hc.get_holds 3 rfl
      · refine linked_append.mpr ⟨hxs.set_next hap.xs_nodup ?_ ?_, hys.set_prev hap.ys_nodup ?_ ?_⟩
        · intro q hq hne _ _ _ hcell
          exact hcell.congr (hc.frame q (by simp [hne, hap.left q hq, hap.sides q hq _ hr]))
        · intro _ y e hcell
          obtain ⟨rfl, rfl⟩ : y = d ∧ e = w := by simpa using hcell.words_unique hlast
          exact hc.get_holds 1 rfl
        · intro q hq hne _ _ _ hcell
          exact hcell.congr (hc.frame q
            (by simp [hne, hap.right q hq, (hap.sides _ hleft q hq).symm]))
        · intro _ y e hcell
          obtain ⟨rfl, rfl⟩ : y = d' ∧ e = w' := by simpa using hcell.words_unique hright
          exact hc.get_holds 0 rfl
      · apply within_setNodes
        intro q hl hq
        rw [List.map_append, List.mem_append, not_or, List.map_cons, List.mem_cons, not_or] at hq
        exact hc.frame q (by simp [hl, hq.2.1, (ne_of_mem_of_not_mem hleft hq.1).symm,
          (ne_of_mem_of_not_mem hr hq.2.2).symm])

/-- How `listDelNode` ends once the value of the node is freed. -/
structure Removed (s s' : State Globals) (x : DList) (xs : List (Addr × Addr)) (p v : Addr)
    (ys : List (Addr × Addr)) : Prop where
  within : Within (x.setNodes (xs ++ (p, v) :: ys)).blocks s.mem s'.mem
  silent : Silent s s'
  gone : block s'.mem p = none
  hangs : (x.setNodes (xs ++ ys)).Hangs s'.mem

theorem ofNat_length_sub_one :
    BitVec.ofNat 64 (xs ++ (p, v) :: ys).length - 1 = BitVec.ofNat 64 (xs ++ ys).length := by
  rw [List.length_append, List.length_cons, ← Nat.add_assoc, ← List.length_append, BitVec.ofNat_add]
  exact add_sub_cancel_right _ _

/-- The node is freed and the length corrected, in either order. -/
theorem Unlinked.removed {cs : List (Addr × List Word)} (hu : Unlinked m₀ s₁.mem x xs p v ys)
    (hap : Apart x.addr p xs ys) (hs : Spares (x.setNodes (xs ++ (p, v) :: ys)).blocks s₁.mem s.mem)
    (hc : Cells (del s.mem p) s'.mem cs) (hcs : cs = [(x.addr, (x.setNodes (xs ++ ys)).header)])
    (hsilent : Silent s s') : Removed s s' x xs p v ys := by
  subst hcs
  have hp : p ∈ (x.setNodes (xs ++ (p, v) :: ys)).blocks := by simp [DList.blocks, DList.addrs, DList.setNodes]
  have hframe : ∀ q, q ≠ x.addr → q ≠ p → block s'.mem q = block s.mem q := by
    intro q hl hqp
    rw [hc.frame q (by simpa using hl), block_del_ne hqp]
  refine ⟨fun q hq => hframe q ?_ ?_, hsilent, ?_, hc.get_holds 0 rfl, ?_⟩
  · exact fun heq => hq (heq ▸ List.mem_cons_self)
  · exact fun heq => hq (heq ▸ hp)
  · rw [hc.frame p (by simpa using hap.node)]
    exact block_del_self
  · refine hu.links.mono fun q hq _ _ _ hnode => hnode.congr ?_
    have hq' : q ≠ p ∧ q ≠ x.addr := by
      rw [List.map_append, List.mem_append] at hq
      exact hq.elim (hap.left q) (hap.right q)
    rw [hframe q hq'.2 hq'.1]
    apply hs
    simp only [DList.blocks, DList.addrs, DList.setNodes, List.map_append, List.map_cons, List.mem_cons,
      List.mem_append] at hq ⊢
    tauto

/-- In any state the list code has led to by work on the blocks `ps`, freeing the value `v` leaves
those blocks alone and ends in a state satisfying `R`. -/
def Discards (E : Stop → Prop) (F : Methods) (f v : Addr) (ps : List Addr) (R : State Globals → Prop)
    (s : State Globals) : Prop :=
  ∀ s₁, Within ps s.mem s₁.mem → Silent s s₁ →
    wp E (freed F f v) (fun _ s₂ => Spares ps s₁.mem s₂.mem ∧ R s₂) s₁

theorem Unlinked.cells (hu : Unlinked m₀ s₁.mem x xs p v ys) (hap : Apart x.addr p xs ys)
    (hs : Spares (x.setNodes (xs ++ (p, v) :: ys)).blocks s₁.mem s.mem) :
    ∃ a b, Cells s.mem s.mem [(p, [a, b, v]), (x.addr, [first (xs ++ ys) NULL, last NULL (xs ++ ys),
      BitVec.ofNat 64 (xs ++ (p, v) :: ys).length, x.dup, x.free, x.match'])] := by
  obtain ⟨a, b, hp⟩ := hu.node
  have hl : Holds s.mem x.addr _ := hu.header.congr (hs _ List.mem_cons_self)
  have hp : NodeAt s.mem a p b v := hp.congr (hs p (by simp [DList.blocks, DList.addrs, DList.setNodes]))
  have hpl : p ∉ [x.addr] := fun hmem => hap.node (List.mem_singleton.mp hmem)
  exact ⟨a, b, (Cells.one hl).add hpl hp⟩

theorem wp_listDelOther (h : (x.setNodes (xs ++ (p, v) :: ys)).Hangs s.mem) (hne : xs ++ ys ≠ [])
    (hfree : Discards E F x.free v (x.setNodes (xs ++ (p, v) :: ys)).blocks R s) :
    wp E (listDelOther F x.addr p) (fun _ s' => ∃ s₂, R s₂ ∧ Removed s₂ s' x xs p v ys) s := by
  have hap := DList.apart h.nodup
  rw [listDelOther, wp_bind]
  refine ((wp_listUnlink h hne).and_any (silent_law.listUnlink _ _ s)).mono fun _ s₁ hpost => ?_
  obtain ⟨hu, hsilent⟩ := hpost
  obtain ⟨a, b, hp⟩ := hu.node
  rw [wp_bind, wp_freeValue hu.header rfl hp]
  refine (hfree s₁ hu.within hsilent).mono fun _ s₂ hpost => ?_
  obtain ⟨hs, hR⟩ := hpost
  obtain ⟨a, b, hc⟩ := hu.cells hap hs
  have htail := silent_law.bind (silent_law.getField x.addr list.len) fun len =>
    silent_law.bind (silent_law.setField x.addr list.len (len - 1)) fun _ => silent_law.zfree p
  refine (wp.and_any (Q := fun _ s' => Cells (del s₂.mem p) s'.mem
    [(x.addr, (x.setNodes (xs ++ ys)).header)]) ?_ (htail s₂)).mono fun _ s' hpost => ⟨s₂, hR, ?_⟩
  · refine wp_bind.mpr (hc.get 1 rfl rfl ?_)
    refine wp_bind.mpr (hc.set 1 rfl rfl fun m hc => ?_)
    refine hc.zfree fun m g t hc => ?_
    rw [ofNat_length_sub_one] at hc
    exact hc
  · exact hu.removed hap hs hpost.1 rfl hpost.2

theorem wp_listDelOnly (h : (x.setNodes [(p, v)]).Hangs s.mem)
    (hfree : Discards E F x.free v (x.setNodes [(p, v)]).blocks R s) :
    wp E (listDelOnly F x.addr p) (fun _ s' => ∃ s₂, R s₂ ∧ Removed s₂ s' x [] p v []) s := by
  have hap : Apart x.addr p [] [] := DList.apart h.nodup
  have hpl : p ∉ [x.addr] := fun hmem => hap.node (List.mem_singleton.mp hmem)
  have hc := (Cells.one h.header).add hpl h.links.1
  refine wp_bind.mpr (hc.set 1 rfl rfl fun m₁ hc => ?_)
  refine wp_bind.mpr (hc.set 1 rfl rfl fun m₁ hc => ?_)
  have hc : Cells s.mem m₁ [(p, [NULL, NULL, v]), (x.addr, [NULL, NULL, 1, x.dup, x.free, x.match'])] := hc
  have hu : Unlinked s.mem m₁ x [] p v [] := by
    refine ⟨hc.get_holds 1 rfl, ⟨_, _, hc.get_holds 0 rfl⟩, trivial, within_setNodes fun q hl hq => ?_⟩
    exact hc.frame q (by simpa [hl] using hq)
  obtain ⟨s₁, hs₁⟩ : ∃ s₁ : State Globals, s₁ = ⟨m₁, s.glob, s.trace⟩ := ⟨_, rfl⟩
  have hsilent : Silent s s₁ := by
    rw [hs₁]
    exact ⟨[], rfl, rfl⟩
  obtain rfl : m₁ = s₁.mem := by rw [hs₁]
  change wp E _ _ ⟨s₁.mem, s.glob, s.trace⟩
  rw [← hs₁]
  obtain ⟨a, b, hp⟩ := hu.node
  rw [wp_bind, wp_freeValue hu.header rfl hp]
  refine (hfree s₁ hu.within hsilent).mono fun _ s₂ hpost => ?_
  obtain ⟨hs, hR⟩ := hpost
  obtain ⟨a, b, hc⟩ := hu.cells hap hs
  have htail := silent_law.bind (silent_law.zfree p) fun _ =>
    silent_law.bind (silent_law.getField x.addr list.len) fun len => silent_law.setField x.addr list.len (len - 1)
  refine (wp.and_any (Q := fun _ s' => Cells (del s₂.mem p) s'.mem
    [(x.addr, (x.setNodes []).header)]) ?_ (htail s₂)).mono fun _ s' hpost => ⟨s₂, hR, ?_⟩
  · refine wp_bind.mpr (hc.zfree fun m g t hc => ?_)
    refine wp_bind.mpr (hc.get 0 rfl rfl ?_)
    refine hc.set 0 rfl rfl fun m hc => ?_
    rw [ofNat_length_sub_one] at hc
    exact hc
  · exact hu.removed hap hs hpost.1 rfl hpost.2

/-- A member of the list is taken out of it, wherever it stands. -/
theorem wp_listDelNode (h : (x.setNodes (xs ++ (p, v) :: ys)).Hangs s.mem)
    (hfree : Discards E F x.free v (x.setNodes (xs ++ (p, v) :: ys)).blocks R s) :
    wp E (listDelNode F x.addr p) (fun _ s' => ∃ s₂, R s₂ ∧ Removed s₂ s' x xs p v ys) s := by
  have hlt := h.length_lt
  have hlen : (x.setNodes (xs ++ (p, v) :: ys)).nodes.length = (xs ++ ys).length + 1 := by
    rw [DList.setNodes, List.length_append, List.length_cons, ← Nat.add_assoc, ← List.length_append]
  rw [hlen] at hlt
  have hzero : ¬ BitVec.ofNat 64 ((xs ++ ys).length + 1) = 0 := fun heq =>
    Nat.succ_ne_zero _ (ofNat_inj hlt (by norm_num) heq)
  have hc := Cells.one h.header
  refine wp_bind.mpr (hc.get 0 rfl rfl ?_)
  rw [hlen, if_neg hzero]
  by_cases hne : xs ++ ys = []
  · obtain ⟨rfl, rfl⟩ := List.append_eq_nil_iff.mp hne
    rw [if_pos (by rfl)]
    refine wp_bind.mpr (hc.get 0 rfl rfl ?_)
    rw [if_pos (by rfl)]
    exact wp_listDelOnly h hfree
  · have hone : ¬ BitVec.ofNat 64 ((xs ++ ys).length + 1) = 1 := fun heq =>
      hne (List.length_eq_zero_iff.mp (Nat.succ.inj (ofNat_inj hlt (by norm_num) heq)))
    rw [if_neg hone]
    exact wp_listDelOther h hne hfree

end Delete

end Redis
