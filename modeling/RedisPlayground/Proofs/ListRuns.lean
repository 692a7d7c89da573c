import RedisPlayground.Memory.Runs
import RedisPlayground.Proofs.Owners

/-! Runs of the list functions refine sequences of nodes. The abstract state is
the multiset of the lists; a step changes the node sequence of one of them. -/

namespace Redis

open CMem

variable {L : Libc} {F : Methods} {s s' s₀ : State Globals} {x : DList} {A : Multiset DList}
  {l p v : Addr} {ns : List (Addr × Addr)} {ls : List Addr}

/-- Lists as objects of the heap. -/
def listShape : Shape Mem Addr (List Byte) DList where
  view := block
  foot := DList.foot
  Ok := DList.Ok
  live h hp := by
    obtain ⟨bs, hbs⟩ := h.live hp
    exact hbs.live
  congr h hok := hok.congr h

@[simp] theorem listShape_foot : listShape.foot x = x.foot := rfl

inductive LOp where
  | listCreate
  | listAddNodeHead (l value : Addr)
  | listAddNodeTail (l value : Addr)
  | listDelNode (l node : Addr)

/-- The call, and the list it leaves with the client. -/
def LOp.exec (L : Libc) (F : Methods) : LOp → M Addr
  | .listCreate => Redis.listCreate L
  | .listAddNodeHead l value => Redis.listAddNodeHead L l value
  | .listAddNodeTail l value => Redis.listAddNodeTail L l value
  | .listDelNode l node => do
    Redis.listDelNode F l node
    return l

def LOp.Legal (s : State Globals) (ls : List Addr) : LOp → Prop
  | .listCreate => True
  | .listAddNodeHead l _ | .listAddNodeTail l _ => l ∈ ls
  | .listDelNode l node => l ∈ ls ∧ Member s l node

/-- The lists a client has after an operation that left `r` with it. -/
def LOp.lists (ls : List Addr) (r : Addr) : LOp → List Addr
  | .listCreate => r :: ls
  | _ => ls

def lstep (L : Libc) (F : Methods) (x : State Globals × List Addr) (op : LOp)
    (x' : State Globals × List Addr) : Prop :=
  op.Legal x.1 x.2 ∧ ∃ r, op.exec L F x.1 = .ok (r, x'.1) ∧ x'.2 = op.lists x.2 r

/-- The same operations on sequences of nodes, each node with its value. -/
inductive AbsStep : Multiset DList → LOp → Multiset DList → Prop where
  | create {A : Multiset DList} {l : Addr} : l ∉ listShape.owned A →
      AbsStep A .listCreate (⟨l, [], NULL, NULL, NULL⟩ ::ₘ A)
  | addHead {A : Multiset DList} {x : DList} {p v : Addr} : p ∉ listShape.owned (x ::ₘ A) →
      AbsStep (x ::ₘ A) (.listAddNodeHead x.addr v) (x.setNodes ((p, v) :: x.nodes) ::ₘ A)
  | addTail {A : Multiset DList} {x : DList} {p v : Addr} : p ∉ listShape.owned (x ::ₘ A) →
      AbsStep (x ::ₘ A) (.listAddNodeTail x.addr v) (x.setNodes (x.nodes ++ [(p, v)]) ::ₘ A)
  | delNode {A : Multiset DList} {x : DList} {xs ys : List (Addr × Addr)} {p v : Addr} :
      x.nodes = xs ++ (p, v) :: ys →
      AbsStep (x ::ₘ A) (.listDelNode x.addr p) (x.setNodes (xs ++ ys) ::ₘ A)

/-- `n` steps from `p` on: the nodes visited and where this ends. -/
def visit (step : Addr → M Addr) : ℕ → Addr → M (List Addr × Addr)
  | 0, p => return ([], p)
  | n + 1, p => do
    let q ← step p
    let (ps, r) ← visit step n q
    return (p :: ps, r)

/-- What the functions of `adlist.h` see of a list. -/
structure WellFormed (s : State Globals) (x : DList) : Prop where
  nodup : x.addrs.Nodup
  len_lt : x.nodes.length < 2 ^ 64
  len : listLength x.addr s = .ok (BitVec.ofNat 64 x.nodes.length, s)
  head : listFirst x.addr s = .ok (first x.nodes NULL, s)
  tail : listTail x.addr s = .ok (last NULL x.nodes, s)
  head_null : first x.nodes NULL = NULL ↔ x.nodes = []
  tail_null : last NULL x.nodes = NULL ↔ x.nodes = []
  forward : visit listNextNode x.nodes.length (first x.nodes NULL) s = .ok ((x.addrs, NULL), s)
  node : ∀ xs p v ys, x.nodes = xs ++ (p, v) :: ys →
    listPrevNode p s = .ok (last NULL xs, s) ∧ listNextNode p s = .ok (first ys NULL, s) ∧
      listNodeValue p s = .ok (v, s)
  inverse : ∀ xs p v q w ys, x.nodes = xs ++ (p, v) :: (q, w) :: ys →
    listNextNode p s = .ok (q, s) ∧ listPrevNode q s = .ok (p, s)

/-- The heap holds the lists `A`, and no two share a node. -/
structure Represents (s : State Globals) (A : Multiset DList) : Prop where
  disjoint : (listShape.owned A).Nodup
  wellFormed : ∀ x ∈ A, WellFormed s x

/-- The invariant: the heap holds the lists of the client and otherwise what it held before. -/
structure Holding (s₀ : State Globals) (x : State Globals × List Addr) (A : Multiset DList) : Prop where
  sat : listShape.Sat s₀.mem x.1.mem A
  lists : ∀ l, l ∈ x.2 ↔ ∃ y ∈ A, y.addr = l
  plain : ∀ y ∈ A, y.free = NULL

theorem visit_linked {a : Addr} (h : Linked (NodeAt s.mem) a ns NULL) :
    visit listNextNode ns.length (first ns NULL) s = .ok ((ns.map Prod.fst, NULL), s) := by
  induction ns generalizing a with
  | nil => rfl
  | cons n ns ih =>
    refine wp.eq_ok ?_
    rw [List.length_cons, visit, wp_bind, listNextNode, first_cons, wp_getField h.1 rfl, wp_bind, wp,
      ih h.2]
    exact ⟨rfl, rfl⟩

theorem DList.Hangs.wellFormed (h : x.Hangs s.mem) : WellFormed s x := by
  have hnode : ∀ xs p v ys, x.nodes = xs ++ (p, v) :: ys →
      NodeAt s.mem (last NULL xs) p (first ys NULL) v := by
    intro xs p v ys hx
    exact (linked_split.mp (hx ▸ h.links)).2.1
  refine ⟨(List.nodup_cons.mp h.nodup).2, h.length_lt, getField_ok h.header rfl, getField_ok h.header rfl,
    getField_ok h.header rfl, h.head_eq_null, h.tail_eq_null, visit_linked h.links, ?_, ?_⟩
  · intro xs p v ys hx
    have hp := hnode xs p v ys hx
    exact ⟨getField_ok hp rfl, getField_ok hp rfl, getField_ok hp rfl⟩
  · intro xs p v q w ys hx
    have hp := hnode xs p v ((q, w) :: ys) hx
    have hq := hnode (xs ++ [(p, v)]) q w ys (by rw [hx, List.append_assoc]; rfl)
    rw [last_append] at hq
    exact ⟨getField_ok hp rfl, getField_ok hq rfl⟩

theorem represents_of_sat (h : listShape.Sat s₀.mem s.mem A) : Represents s A :=
  ⟨h.nodup, fun x hx => DList.Hangs.wellFormed (DList.Ok.hangs (h.ok x hx))⟩

theorem Sat.notMem_of_fresh (h : listShape.Sat s₀.mem s.mem A) (hp : block s.mem p = none) :
    p ∉ listShape.owned A := fun hmem => h.live p hmem hp

theorem Holding.init : Holding s₀ (s₀, []) 0 := ⟨Shape.Sat.init, by simp, by simp⟩

theorem Holding.find (h : Holding s₀ (s, ls) A) (hl : l ∈ ls) : ∃ x A', A = x ::ₘ A' ∧ x.addr = l := by
  obtain ⟨x, hx, hl⟩ := (h.lists l).mp hl
  obtain ⟨A', hA⟩ := Multiset.exists_cons_of_mem hx
  exact ⟨x, A', hA, hl⟩

/-- One list gets other nodes. -/
theorem Holding.setNodes (h : Holding s₀ (s, ls) (x ::ₘ A))
    (hu : Updates s.mem s'.mem x.foot (x.setNodes ns).foot) (hok : (x.setNodes ns).Ok s'.mem) :
    Holding s₀ (s', ls) (x.setNodes ns ::ₘ A) where
  sat := h.sat.replace hu hok
  lists l := by
    rw [h.lists]
    simp only [Multiset.mem_cons, exists_eq_or_imp, DList.setNodes]
  plain := by
    intro y hy
    rcases Multiset.mem_cons.mp hy with rfl | hy
    · exact h.plain x (Multiset.mem_cons_self _ _)
    · exact h.plain y (Multiset.mem_cons_of_mem hy)

/-- A step of the client is a step on the sequences. -/
theorem lop_step {op : LOp} (h : Holding s₀ (s, ls) A) (hlegal : op.Legal s ls) :
    wp Safe (op.exec L F) (fun r s' => ∃ A', AbsStep A op A' ∧ Holding s₀ (s', op.lists ls r) A') s := by
  have hadd : ∀ {x A' v}, A = x ::ₘ A' → (x.foot + ↑(owns x.free [v])).Nodup ∧
      ∀ u ∈ owns x.free [v], ∃ bs, Holds s.mem u bs := by
    rintro x A' v rfl
    have hx := Multiset.mem_cons_self x A'
    rw [h.plain x hx, owns_null]
    exact ⟨by simpa using h.sat.foot_nodup hx, by simp⟩
  cases op with
  | listCreate =>
    refine wp_listCreate.mono fun l s' hpost => ?_
    obtain ⟨hl, hc⟩ := hpost
    obtain ⟨hu, hok⟩ := DList.Ok.create hl hc
    refine ⟨_, AbsStep.create (Sat.notMem_of_fresh h.sat hl), h.sat.create hu hok, fun l' => ?_, ?_⟩
    · rw [LOp.lists, List.mem_cons, h.lists]
      simp only [Multiset.mem_cons, exists_eq_or_imp, eq_comm]
    · intro y hy
      rcases Multiset.mem_cons.mp hy with rfl | hy
      · rfl
      · exact h.plain y hy
  | listAddNodeHead l v =>
    obtain ⟨x, A', rfl, rfl⟩ := h.find hlegal
    have hok := h.sat.ok x (Multiset.mem_cons_self _ _)
    obtain ⟨hn, hv⟩ := hadd rfl
    refine (hok.wp_listAddNodeHead hn hv).mono fun r s' hpost => ?_
    obtain ⟨-, p, hp, hu, hok⟩ := hpost
    rw [h.plain x (Multiset.mem_cons_self _ _), owns_null] at hu
    refine ⟨_, AbsStep.addHead (Sat.notMem_of_fresh h.sat hp), h.setNodes ?_ hok⟩
    simpa using hu
  | listAddNodeTail l v =>
    obtain ⟨x, A', rfl, rfl⟩ := h.find hlegal
    have hok := h.sat.ok x (Multiset.mem_cons_self _ _)
    obtain ⟨hn, hv⟩ := hadd rfl
    refine (hok.wp_listAddNodeTail hn hv).mono fun r s' hpost => ?_
    obtain ⟨-, p, hp, hu, hok⟩ := hpost
    rw [h.plain x (Multiset.mem_cons_self _ _), owns_null] at hu
    refine ⟨_, AbsStep.addTail (Sat.notMem_of_fresh h.sat hp), h.setNodes ?_ hok⟩
    simpa using hu
  | listDelNode l p =>
    obtain ⟨x, A', rfl, rfl⟩ := h.find hlegal.1
    have hx := Multiset.mem_cons_self x A'
    have hfree : x.free ≠ NULL → ∀ u, F.free x.free u = zfree u := fun hne => absurd (h.plain x hx) hne
    rw [LOp.exec, wp_bind]
    refine (DList.Ok.wp_listDelNode_zfree hfree (h.sat.ok x hx) (h.sat.foot_nodup hx) hlegal.2).mono ?_
    rintro - s' ⟨xs, v, ys, hns, hu, hok⟩
    exact wp_pure.mpr ⟨_, AbsStep.delNode hns, h.setNodes hu hok⟩

/-- Every run of the list functions is a run on sequences of nodes, which the heap represents at its
end. No further call has undefined behaviour, and each is a further step on the sequences. -/
theorem list_refines (L : Libc) (F : Methods) (s₀ s : State Globals) (ls : List Addr)
    (tr : List ((State Globals × List Addr) × LOp)) (h : Run (lstep L F) (s₀, []) tr (s, ls)) :
    ∃ atr A, Run AbsStep 0 atr A ∧ labels atr = labels tr ∧ Represents s A ∧
      (∀ l, l ∈ ls ↔ ∃ x ∈ A, x.addr = l) ∧
      ∀ op : LOp, op.Legal s ls → wp Safe (op.exec L F) (fun r s' => ∃ A', AbsStep A op A' ∧
        Represents s' A' ∧ ∀ l, l ∈ op.lists ls r ↔ ∃ x ∈ A', x.addr = l) s := by
  have hstep : ∀ x op x' A, Holding s₀ x A → lstep L F x op x' →
      ∃ A', AbsStep A op A' ∧ Holding s₀ x' A' := by
    rintro ⟨s, ls⟩ op ⟨s', ls'⟩ A hI ⟨hlegal, r, hok, rfl⟩
    exact (lop_step hI hlegal).of_ok hok
  obtain ⟨atr, A, hrun, hlab, hI⟩ := h.simulates Holding.init hstep
  refine ⟨atr, A, hrun, hlab, represents_of_sat hI.sat, hI.lists, fun op hlegal => ?_⟩
  refine (lop_step hI hlegal).mono fun r s' hpost => ?_
  obtain ⟨A', habs, hI'⟩ := hpost
  exact ⟨A', habs, represents_of_sat hI'.sat, hI'.lists⟩

/-- A client without methods. -/
def noMethods : Methods where
  dup _ _ := return NULL
  free _ _ := return ()
  match' _ _ _ := return 0

/-- A list gets a head and a tail, and loses its head. -/
def pair₁ : State Globals := after (listCreate (bump 0)) zinit
def pair₂ : State Globals := after (listAddNodeHead (bump 0) 0x1008 7) pair₁
def pair₃ : State Globals := after (listAddNodeTail (bump 0) 0x1008 8) pair₂
def pair₄ : State Globals := after (listDelNode noMethods 0x1008 0x2008) pair₃

def pairRun : List ((State Globals × List Addr) × LOp) :=
  [((zinit, []), .listCreate), ((pair₁, [0x1008]), .listAddNodeHead 0x1008 7),
    ((pair₂, [0x1008]), .listAddNodeTail 0x1008 8), ((pair₃, [0x1008]), .listDelNode 0x1008 0x2008)]

theorem lstep_ok {r : Addr} {ls ls' : List Addr} {op : LOp} (hlegal : op.Legal s ls)
    (hok : op.exec L F s = .ok (r, s')) (hls : ls' = op.lists ls r) : lstep L F (s, ls) op (s', ls') :=
  ⟨hlegal, r, hok, hls⟩

theorem run_pair : Run (lstep (bump 0) noMethods) (zinit, []) pairRun (pair₄, [0x1008]) := by
  have hok₁ : result (LOp.exec (bump 0) noMethods .listCreate) zinit = some 0x1008 := by decide +kernel
  have hok₂ : result (LOp.exec (bump 0) noMethods (.listAddNodeHead 0x1008 7)) pair₁ = some 0x1008 := by
    decide +kernel
  have hok₃ : result (LOp.exec (bump 0) noMethods (.listAddNodeTail 0x1008 8)) pair₂ = some 0x1008 := by
    decide +kernel
  have hok₄ : result (LOp.exec (bump 0) noMethods (.listDelNode 0x1008 0x2008)) pair₃ = some 0x1008 := by
    decide +kernel
  have hhead : result (getField 0x1008 list.head) pair₃ = some 0x2008 := by decide +kernel
  have h₁ : lstep (bump 0) noMethods (zinit, []) .listCreate (pair₁, [0x1008]) :=
    lstep_ok trivial (ok_after hok₁) rfl
  have h₂ : lstep (bump 0) noMethods (pair₁, [0x1008]) (.listAddNodeHead 0x1008 7) (pair₂, [0x1008]) :=
    lstep_ok List.mem_cons_self (ok_after hok₂) rfl
  have h₃ : lstep (bump 0) noMethods (pair₂, [0x1008]) (.listAddNodeTail 0x1008 8) (pair₃, [0x1008]) :=
    lstep_ok List.mem_cons_self (ok_after hok₃) rfl
  have hmem : Member pair₃ 0x1008 0x2008 := Member.head (readOnly_getField.ok_of_result hhead) (by decide)
  have h₄ : lstep (bump 0) noMethods (pair₃, [0x1008]) (.listDelNode 0x1008 0x2008) (pair₄, [0x1008]) :=
    lstep_ok ⟨List.mem_cons_self, hmem⟩ (ok_after hok₄) rfl
  exact (((Run.nil.snoc h₁).snoc h₂).snoc h₃).snoc h₄

theorem list_refines_pair : ∃ atr A, Run AbsStep 0 atr A ∧ labels atr = labels pairRun ∧ Represents pair₄ A ∧
    (∀ l, l ∈ [0x1008] ↔ ∃ x ∈ A, x.addr = l) ∧
    ∀ op : LOp, op.Legal pair₄ [0x1008] → wp Safe (op.exec (bump 0) noMethods) (fun r s' => ∃ A',
      AbsStep A op A' ∧ Represents s' A' ∧ ∀ l, l ∈ op.lists [0x1008] r ↔ ∃ x ∈ A', x.addr = l) pair₄ :=
  list_refines (bump 0) noMethods zinit pair₄ [0x1008] pairRun run_pair

end Redis
