import RedisPlayground.Memory.Runs
import RedisPlayground.Proofs.Accounting
import RedisPlayground.Proofs.ListCopy

/-! Runs of a client whose lists own their values. Whatever it does, once all
its lists and iterators are released the heap and the counter are what they were
before, and every block it got was freed exactly once. -/

namespace Redis

open CMem

/-- The methods of the client reach the heap through `zmalloc.cc` only. -/
structure Client (F : Methods) : Prop where
  dup : ∀ f v, Keeps (F.dup f v)
  free : ∀ f v, Keeps (F.free f v)
  match' : ∀ f v k, Keeps (F.match' f v k)

theorem keeps_listIndex (l : Addr) (index : BitVec 32) : Keeps (listIndex l index) := by
  have hloop : ∀ n i node, Keeps (listIndexLoop index n i node) := by
    intro n
    induction n with
    | zero => exact fun _ _ => keeps_stop _
    | succ n ih =>
      exact fun i node => (keeps_pure _).ite <| (keeps_pure _).ite <| (keeps_getField _ _).bind fun _ => ih _ _
  exact (keeps_getField _ _).bind fun _ => keeps_fuel.bind fun n => hloop n _ _

section Keeps

variable {F : Methods} (L : Libc) (hF : Client F)

include hF

theorem keeps_freeValue (l n : Addr) : Keeps (freeValue F l n) :=
  (keeps_getField _ _).bind fun _ => (keeps_pure _).ite <|
    (keeps_getField _ _).bind fun _ => (keeps_call _ _).bind fun _ => hF.free _ _

theorem keeps_listDelNode (l n : Addr) : Keeps (listDelNode F l n) := by
  have hother : Keeps (listDelOther F l n) :=
    Keeps.bind (settled_law.listUnlink l n) fun _ => (keeps_freeValue hF l n).bind fun _ =>
      (keeps_getField _ _).bind fun _ => (keeps_setField _ _ _).bind fun _ => keeps_zfree n
  have honly : Keeps (listDelOnly F l n) :=
    (keeps_setField _ _ _).bind fun _ => (keeps_setField _ _ _).bind fun _ =>
      (keeps_freeValue hF l n).bind fun _ => (keeps_zfree n).bind fun _ =>
      (keeps_getField _ _).bind fun _ => keeps_setField _ _ _
  exact (keeps_getField _ _).bind fun _ => (keeps_pure _).ite <|
    Keeps.ite ((keeps_getField _ _).bind fun _ => honly.ite hother) hother

theorem keeps_listReleaseLoop (l : Addr) (n : ℕ) (curr : Addr) : Keeps (listReleaseLoop F l n curr) := by
  induction n generalizing curr with
  | zero => exact keeps_pure _
  | succ n ih =>
    exact (keeps_getField _ _).bind fun _ => (keeps_freeValue hF l curr).bind fun _ =>
      (keeps_zfree curr).bind fun _ => ih _

theorem keeps_listRelease (l : Addr) : Keeps (listRelease F l) :=
  (keeps_pure _).ite <| (keeps_getField _ _).bind fun _ => (keeps_getField _ _).bind fun _ =>
    (keeps_listReleaseLoop hF l _ _).bind fun _ => Keeps.bind (settled_law.safe_zfree l) fun _ => keeps_pure _

theorem keeps_listMatches (l v key : Addr) : Keeps (listMatches F l v key) :=
  (keeps_getField _ _).bind fun _ => (keeps_pure _).ite <|
    ((keeps_call _ _).bind fun _ => hF.match' _ _ _).bind fun _ => keeps_pure _

theorem keeps_listSearchKey (l key : Addr) : Keeps (listSearchKey L F l key) := by
  have hloop : ∀ it n, Keeps (listSearchKeyLoop F l key it n) := by
    intro it n
    induction n with
    | zero => exact keeps_stop _
    | succ n ih =>
      exact Keeps.bind (settled_law.listNext it) fun _ => Keeps.ite
        ((keeps_zfree it).bind fun _ => keeps_pure _)
        ((keeps_getField _ _).bind fun _ => (keeps_listMatches hF l _ key).bind fun _ =>
          Keeps.ite ((keeps_zfree it).bind fun _ => keeps_pure _) ih)
  exact Keeps.bind (settled_law.listGetIterator L l _) fun it => keeps_fuel.bind fun n => hloop it n

theorem keeps_listDupValue (copy v : Addr) : Keeps (listDupValue F copy v) :=
  (keeps_getField _ _).bind fun _ => (keeps_pure _).ite <|
    ((keeps_call _ _).bind fun _ => hF.dup _ _).bind fun _ => keeps_pure _

theorem keeps_listDup (l : Addr) : Keeps (listDup L F l) := by
  have hloop : ∀ it n copy, Keeps (listDupLoop L F copy it n) := by
    intro it n
    induction n with
    | zero => exact fun _ => keeps_stop _
    | succ n ih =>
      intro copy
      refine (keeps_getField _ _).bind fun _ => Keeps.ite
        ((keeps_zfree it).bind fun _ => keeps_pure _)
        (Keeps.bind (settled_law.listNext it) fun _ => (keeps_getField _ _).bind fun _ =>
          (keeps_listDupValue hF copy _).bind fun r => ?_)
      cases r with
      | none =>
        exact (keeps_zfree it).bind fun _ => (keeps_listRelease hF copy).bind fun _ => keeps_pure _
      | some v =>
        exact Keeps.bind (settled_law.listAddNodeTail L copy v) fun copy' => Keeps.ite
          ((keeps_zfree it).bind fun _ => (keeps_listRelease hF copy').bind fun _ => keeps_pure _)
          (ih copy')
  exact Keeps.bind (settled_law.listCreate L) fun copy =>
    (keeps_getField _ _).bind fun _ => (keeps_setField _ _ _).bind fun _ =>
    (keeps_getField _ _).bind fun _ => (keeps_setField _ _ _).bind fun _ =>
    (keeps_getField _ _).bind fun _ => (keeps_setField _ _ _).bind fun _ =>
    Keeps.bind (settled_law.listGetIterator L l _) fun it => keeps_fuel.bind fun n => hloop it n copy

end Keeps

/-- What a client does. A list is created with its dup and free methods set
together, and a value is a block of its own when it is added. -/
inductive COp where
  | listCreate (match' : Addr)
  | listAddNodeHead (l : Addr) (size : Word) (bytes : List Byte)
  | listAddNodeTail (l : Addr) (size : Word) (bytes : List Byte)
  | listDelNode (l node : Addr)
  | listSearchKey (l key : Addr)
  | listIndex (l : Addr) (index : BitVec 32)
  | listGetIterator (l : Addr) (direction : BitVec 32)
  | listNext (iter : Addr)
  | listRewind (l iter : Addr)
  | listRewindTail (l iter : Addr)
  | listReleaseIter (iter : Addr)
  | listDup (l : Addr)
  | listRelease (l : Addr)
  | safe_listRelease (l : Addr)

/-- The lists and the iterators a client has to release. -/
structure Handles where
  lists : Multiset Addr
  iters : Multiset Addr

/-- The same calls on the node sequences of the lists and the places of the iterators. A search looks for
the values on which `hit` is true, those equal to the key if there is no match method. -/
inductive ListStep (dup free : Addr) (hit : Addr → Bool) : Multiset Obj → COp × Addr → Multiset Obj → Prop where
  | create {W l match'} : l ∉ objShape.owned W →
      ListStep dup free hit W (.listCreate match', l) (.list ⟨l, [], dup, free, match'⟩ ::ₘ W)
  | addHead {W x p v size bytes} : p ∉ objShape.owned (.list x ::ₘ W) → v ∉ objShape.owned (.list x ::ₘ W) →
      ListStep dup free hit (.list x ::ₘ W) (.listAddNodeHead x.addr size bytes, x.addr)
        (.list (x.setNodes ((p, v) :: x.nodes)) ::ₘ W)
  | addTail {W x p v size bytes} : p ∉ objShape.owned (.list x ::ₘ W) → v ∉ objShape.owned (.list x ::ₘ W) →
      ListStep dup free hit (.list x ::ₘ W) (.listAddNodeTail x.addr size bytes, x.addr)
        (.list (x.setNodes (x.nodes ++ [(p, v)])) ::ₘ W)
  | delNode {W x xs ys p v} : x.nodes = xs ++ (p, v) :: ys →
      ListStep dup free hit (.list x ::ₘ W) (.listDelNode x.addr p, x.addr) (.list (x.setNodes (xs ++ ys)) ::ₘ W)
  | search {W x key} : .list x ∈ W → (x.match' = NULL → ∀ v ∈ x.values, hit v = decide (key = v)) →
      ListStep dup free hit W (.listSearchKey x.addr key, first (x.nodes.dropWhile fun n => !hit n.2) NULL) W
  | index {W x index} : .list x ∈ W →
      ListStep dup free hit W (.listIndex x.addr index, x.addrs[index.toNat]?.getD NULL) W
  | iter {W x it dir w} : .list x ∈ W → it ∉ objShape.owned W → w.setWidth 32 = dir →
      ListStep dup free hit W (.listGetIterator x.addr dir, it)
        (.iter it (if dir = FORWARD then first x.nodes NULL else last NULL x.nodes) w ::ₘ W)
  | next {W x it p v w xs ys} : .list x ∈ W → x.nodes = xs ++ (p, v) :: ys →
      ListStep dup free hit (.iter it p w ::ₘ W) (.listNext it, p)
        (.iter it (if w.setWidth 32 = FORWARD then first ys NULL else last NULL xs) w ::ₘ W)
  | done {W it w} : ListStep dup free hit (.iter it NULL w ::ₘ W) (.listNext it, NULL) (.iter it NULL w ::ₘ W)
  | rewind {W x it n w w'} : .list x ∈ W → w'.setWidth 32 = FORWARD →
      ListStep dup free hit (.iter it n w ::ₘ W) (.listRewind x.addr it, NULL) (.iter it (first x.nodes NULL) w' ::ₘ W)
  | rewindTail {W x it n w w'} : .list x ∈ W → w'.setWidth 32 = BACKWARD →
      ListStep dup free hit (.iter it n w ::ₘ W) (.listRewindTail x.addr it, NULL)
        (.iter it (last NULL x.nodes) w' ::ₘ W)
  | releaseIter {W it n w} : ListStep dup free hit (.iter it n w ::ₘ W) (.listReleaseIter it, NULL) W
  | dup {W x r ns} : .list x ∈ W → Disjoint (DList.foot ⟨r, ns, dup, free, x.match'⟩) (objShape.owned W) →
      ns.length = x.nodes.length →
      ListStep dup free hit W (.listDup x.addr, r) (.list ⟨r, ns, dup, free, x.match'⟩ ::ₘ W)
  | dupFails {W x} : .list x ∈ W → ListStep dup free hit W (.listDup x.addr, NULL) W
  | release {W x} : ListStep dup free hit (.list x ::ₘ W) (.listRelease x.addr, NULL) W
  | safeRelease {W x} : ListStep dup free hit (.list x ::ₘ W) (.safe_listRelease x.addr, NULL) W

section Runs

variable (L : Libc) (F : Methods) (dup free : Addr)

def newList (match' : Addr) : M Addr := do
  let l ← listCreate L
  setField l list.dup dup
  setField l list.free free
  setField l list.match' match'
  return l

def newValue (size : Word) (bytes : List Byte) : M Addr := do
  let v ← zmalloc L size
  setBytes v 0 bytes
  return v

def COp.exec : COp → M Addr
  | .listCreate match' => newList L dup free match'
  | .listAddNodeHead l size bytes => do
    let v ← newValue L size bytes
    Redis.listAddNodeHead L l v
  | .listAddNodeTail l size bytes => do
    let v ← newValue L size bytes
    Redis.listAddNodeTail L l v
  | .listDelNode l node => do
    Redis.listDelNode F l node
    return l
  | .listSearchKey l key => Redis.listSearchKey L F l key
  | .listIndex l index => Redis.listIndex l index
  | .listGetIterator l direction => Redis.listGetIterator L l direction
  | .listNext iter => Redis.listNext iter
  | .listRewind l iter => do
    Redis.listRewind l iter
    return NULL
  | .listRewindTail l iter => do
    Redis.listRewindTail l iter
    return NULL
  | .listReleaseIter iter => do
    Redis.listReleaseIter iter
    return NULL
  | .listDup l => Redis.listDup L F l
  | .listRelease l => do
    Redis.listRelease F l
    return NULL
  | .safe_listRelease l => Redis.safe_listRelease F l

/-- The match method of a list answers on its values, and changes nothing. -/
def Searchable (s : State Globals) (l key : Addr) : Prop :=
  ∀ f, getField l list.match' s = .ok (f, s) → f ≠ NULL →
    ∀ n v, Member s l n → listNodeValue n s = .ok (v, s) →
      ∃ r, ∀ s' : State Globals, Extends s.mem s'.mem → F.match' f v key s' = .ok (r, s')

/-- A search is answered by `hit` on the values of its list. -/
def COp.Answers (s : State Globals) (hit : Addr → Bool) : COp → Prop
  | .listSearchKey l key => ∀ n v, Member s l n → listNodeValue n s = .ok (v, s) →
      result (listMatches F l v key) s = some (hit v)
  | _ => True

/-- An iterator may be advanced as long as the node it comes to next is still in a list. Nodes are
counted with an `int`. -/
def COp.Legal (s : State Globals) (h : Handles) : COp → Prop
  | .listCreate _ => True
  | .listAddNodeHead l size bytes | .listAddNodeTail l size bytes =>
    l ∈ h.lists ∧ size.toNat + 8 < 2 ^ 64 ∧ bytes.length ≤ size.toNat
  | .listDelNode l node => l ∈ h.lists ∧ Member s l node
  | .listSearchKey l key => l ∈ h.lists ∧ Searchable F s l key
  | .listIndex l _ => l ∈ h.lists ∧ ∃ len, listLength l s = .ok (len, s) ∧ len.toNat < 2 ^ 31
  | .listGetIterator l _ | .listDup l | .listRelease l | .safe_listRelease l => l ∈ h.lists
  | .listNext iter => iter ∈ h.iters ∧ ∃ n, getField iter listIter.next s = .ok (n, s) ∧
      (n = NULL ∨ ∃ l ∈ h.lists, Member s l n)
  | .listRewind l iter | .listRewindTail l iter => l ∈ h.lists ∧ iter ∈ h.iters
  | .listReleaseIter iter => iter ∈ h.iters

/-- The handles after an operation that left `r` with the client. -/
def COp.handles (h : Handles) (r : Addr) : COp → Handles
  | .listCreate _ => { h with lists := r ::ₘ h.lists }
  | .listGetIterator _ _ => { h with iters := r ::ₘ h.iters }
  | .listReleaseIter iter => { h with iters := h.iters.erase iter }
  | .listDup _ => if r = NULL then h else { h with lists := r ::ₘ h.lists }
  | .listRelease l | .safe_listRelease l => { h with lists := h.lists.erase l }
  | _ => h

def cstep (x : State Globals × Handles) (op : COp) (x' : State Globals × Handles) : Prop :=
  op.Legal F x.1 x.2 ∧ ∃ r, op.exec L F dup free x.1 = .ok (r, x'.1) ∧ x'.2 = op.handles x.2 r

variable {L F dup free}

theorem keeps_newValue (size : Word) (bytes : List Byte) : Keeps (newValue L size bytes) :=
  (keeps_zmalloc L size).bind fun v => (keeps_setBytes v 0 bytes).bind fun _ => keeps_pure _

theorem keeps_cop (hF : Client F) (op : COp) : Keeps (op.exec L F dup free) := by
  cases op with
  | listCreate mt =>
    exact Keeps.bind (settled_law.listCreate L) fun _ => (keeps_setField _ _ _).bind fun _ =>
      (keeps_setField _ _ _).bind fun _ => (keeps_setField _ _ _).bind fun _ => keeps_pure _
  | listAddNodeHead l size bytes =>
    exact (keeps_newValue size bytes).bind fun v => settled_law.listAddNodeHead L l v
  | listAddNodeTail l size bytes =>
    exact (keeps_newValue size bytes).bind fun v => settled_law.listAddNodeTail L l v
  | listDelNode l n => exact (keeps_listDelNode hF l n).bind fun _ => keeps_pure _
  | listSearchKey l key => exact keeps_listSearchKey L hF l key
  | listIndex l index => exact keeps_listIndex l index
  | listGetIterator l dir => exact settled_law.listGetIterator L l dir
  | listNext it => exact settled_law.listNext it
  | listRewind l it =>
    exact Keeps.bind ((keeps_getField _ _).bind fun _ => (keeps_setField _ _ _).bind fun _ =>
      settled_law.setInt _ _ _) fun _ => keeps_pure _
  | listRewindTail l it =>
    exact Keeps.bind ((keeps_getField _ _).bind fun _ => (keeps_setField _ _ _).bind fun _ =>
      settled_law.setInt _ _ _) fun _ => keeps_pure _
  | listReleaseIter it => exact (keeps_zfree it).bind fun _ => keeps_pure _
  | listDup l => exact keeps_listDup L hF l
  | listRelease l => exact (keeps_listRelease hF l).bind fun _ => keeps_pure _
  | safe_listRelease l =>
    rw [COp.exec, safe_listRelease_eq]
    exact (keeps_listRelease hF l).bind fun _ => keeps_pure _

variable {s s' s₀ : State Globals} {h : Handles} {W : Multiset Obj} {x : DList} {m m₀ : Mem}
  {l p it : Addr} {o o' : Obj}

def Obj.header? : Obj → Option Addr
  | .list x => some x.addr
  | _ => none

def Obj.iter? : Obj → Option Addr
  | .iter it _ _ => some it
  | _ => none

/-- Every list owns its values, and no value is without a list. -/
def Obj.Kept (dup free : Addr) : Obj → Prop
  | .list x => x.dup = dup ∧ x.free = free
  | .iter _ _ _ => True
  | .value _ => False

/-- The invariant: the heap is the objects of the client next to what was there
before, and its handles are the lists and iterators among them. -/
structure Owned (dup free : Addr) (s₀ : State Globals) (x : State Globals × Handles)
    (W : Multiset Obj) : Prop where
  own : Own s₀.mem x.1.mem W
  lists : x.2.lists = W.filterMap Obj.header?
  iters : x.2.iters = W.filterMap Obj.iter?
  kept : ∀ o ∈ W, o.Kept dup free

theorem Owned.init : Owned dup free s₀ (s₀, ⟨0, 0⟩) 0 := ⟨Shape.Sat.init, rfl, rfl, by simp⟩

theorem Owned.mem (hI : Owned dup free s₀ (s, h) W) (hl : l ∈ h.lists) :
    ∃ x, .list x ∈ W ∧ x.addr = l := by
  rw [hI.lists, Multiset.mem_filterMap] at hl
  obtain ⟨o, ho, hl⟩ := hl
  cases o with
  | list x => exact ⟨x, ho, Option.some.inj hl⟩
  | iter | value => simp [Obj.header?] at hl

theorem Owned.find (hI : Owned dup free s₀ (s, h) W) (hl : l ∈ h.lists) :
    ∃ x W', W = .list x ::ₘ W' ∧ x.addr = l := by
  obtain ⟨x, hx, hl⟩ := hI.mem hl
  obtain ⟨W', hW⟩ := Multiset.exists_cons_of_mem hx
  exact ⟨x, W', hW, hl⟩

theorem Owned.findIter (hI : Owned dup free s₀ (s, h) W) (hi : it ∈ h.iters) :
    ∃ n w W', W = .iter it n w ::ₘ W' := by
  rw [hI.iters, Multiset.mem_filterMap] at hi
  obtain ⟨o, ho, hi⟩ := hi
  obtain ⟨W', rfl⟩ := Multiset.exists_cons_of_mem ho
  cases o with
  | iter i n w =>
    obtain rfl := Option.some.inj hi
    exact ⟨n, w, W', rfl⟩
  | list | value => simp [Obj.iter?] at hi

/-- Objects own different addresses. -/
theorem Own.ne {q : Addr} (hW : Own m₀ m (o ::ₘ W)) (hp : p ∈ o.foot) (ho : o' ∈ W)
    (hq : q ∈ o'.foot) : q ≠ p := by
  rintro rfl
  have hn := hW.nodup
  rw [Shape.owned_cons] at hn
  exact Multiset.disjoint_left.mp (Multiset.nodup_add.mp hn).2.2 hp
    (Multiset.mem_of_le (Shape.foot_le_owned ho) hq)

/-- A value is a block of its own. -/
theorem wp_newValue {size : Word} {bytes : List Byte} (hsize : size.toNat + 8 < 2 ^ 64)
    (hbytes : bytes.length ≤ size.toNat) : wp Safe (newValue L size bytes) (fun v s' =>
      ∃ bs, Fresh s.mem v ∧ bs.length + 8 < 2 ^ 64 ∧ s'.mem = put s.mem v bs) s := by
  rw [Redis.newValue, wp_bind]
  refine wp_zmalloc rfl hsize fun v raw _ hlen hfresh => ?_
  have hlen' : (raw.drop 8).length = size.toNat := by
    rw [List.length_drop, hlen, Nat.add_sub_cancel_left]
  have hv : Holds (put s.mem v (raw.drop 8)) v (raw.drop 8) := hfresh.put (by omega)
  have hsplice : (splice (raw.drop 8) 0 bytes).length = (raw.drop 8).length := splice_length (by omega)
  rw [wp_bind, wp_setBytes hv (by omega), wp_pure]
  refine ⟨splice (raw.drop 8) 0 bytes, hfresh, by omega, ?_⟩
  rw [put, put, put, Finmap.insert_insert]

theorem Own.newValue {size : Word} {bytes : List Byte} {Q : Addr → State Globals → Prop}
    (hW : Own m₀ s.mem W) (hsize : size.toNat + 8 < 2 ^ 64) (hbytes : bytes.length ≤ size.toNat)
    (hQ : ∀ v s', Own m₀ s'.mem (.value v ::ₘ W) → Q v s') : wp Safe (newValue L size bytes) Q s := by
  refine (wp_newValue hsize hbytes).mono fun v s' hpost => hQ v s' ?_
  obtain ⟨bs, hfresh, hfits, hm⟩ := hpost
  rw [hm]
  exact hW.create (updates_put hfresh.block) ⟨bs, hfresh.put hfits⟩

theorem wp_newList {match' : Addr} : wp Safe (newList L dup free match') (fun l s' =>
    block s.mem l = none ∧ Cells s.mem s'.mem [(l, [NULL, NULL, 0, dup, free, match'])]) s := by
  rw [newList, wp_bind]
  refine wp_listCreate.mono fun l s₁ hpost => ?_
  obtain ⟨hnew, hc⟩ := hpost
  refine wp_bind.mpr (hc.set 0 rfl rfl fun m hc => ?_)
  refine wp_bind.mpr (hc.set 0 rfl rfl fun m hc => ?_)
  exact wp_bind.mpr (hc.set 0 rfl rfl fun m hc => wp_pure.mpr ⟨hnew, hc⟩)

theorem Own.newList {match' : Addr} {Q : Addr → State Globals → Prop} (hW : Own m₀ s.mem W)
    (hQ : ∀ l s', Own m₀ s'.mem (.list ⟨l, [], dup, free, match'⟩ ::ₘ W) → Q l s') :
    wp Safe (newList L dup free match') Q s := by
  refine wp_newList.mono fun l s' hpost => hQ l s' ?_
  obtain ⟨hnew, hc⟩ := hpost
  have hcreate : Updates s.mem _ 0 (DList.foot ⟨l, [], dup, free, match'⟩) ∧
      DList.Ok _ ⟨l, [], dup, free, match'⟩ := DList.Ok.create hnew hc
  exact hW.create hcreate.1 hcreate.2

/-- The answers of a match method that changes nothing, value by value. -/
theorem Searchable.matches {key : Addr} (hS : Searchable F s x.addr key) (hx : x.Ok s.mem) :
    ∃ hit : Addr → Bool, ∀ v ∈ x.values, Matches F s.mem x.addr key hit v := by
  by_cases hf : x.match' = NULL
  · refine ⟨fun v => decide (key = v), fun v _ s' hs => ?_⟩
    rw [listMatches, wp_bind, wp_getField (hs.holds hx.header) rfl, if_pos hf]
    exact wp_pure.mpr ⟨rfl, rfl⟩
  · have hans : ∀ v ∈ x.values, ∃ r, ∀ s' : State Globals,
        (∀ q, block s.mem q ≠ none → block s'.mem q = block s.mem q) →
          F.match' x.match' v key s' = .ok (r, s') := by
      intro v hv
      obtain ⟨⟨n, w⟩, hmem, rfl⟩ := List.mem_map.mp hv
      obtain ⟨xs, ys, hns⟩ := List.append_of_mem hmem
      have hnode := (linked_split.mp (hns ▸ hx.links)).2.1
      exact hS x.match' (getField_ok hx.header rfl) hf n w (Member.of_split hx.hangs hns)
        (getField_ok hnode rfl)
    choose! r hr using hans
    refine ⟨fun v => decide (r v ≠ 0), fun v hv s' hs => ?_⟩
    rw [listMatches, wp_bind, wp_getField (hs.holds hx.header) rfl, if_neg hf, callMatch, wp_bind, wp_bind,
      wp_record, wp, hr v hv { s' with trace := .call x.match' v :: s'.trace } hs]
    exact ⟨rfl, rfl⟩

/-- Of the values of a list a search can be answered in one way only. -/
theorem answers_iff {key : Addr} {hit hit' : Addr → Bool} (hx : x.Ok s.mem)
    (hm : ∀ v ∈ x.values, Matches F s.mem x.addr key hit v) :
    COp.Answers F s hit' (.listSearchKey x.addr key) ↔ ∀ v ∈ x.values, hit' v = hit v := by
  have hrun : ∀ v ∈ x.values, result (listMatches F x.addr v key) s = some (hit v) := by
    intro v hv
    obtain ⟨r, s', hok, rfl, -⟩ := (hm v hv s fun _ _ => rfl).run
    rw [result, hok]
  constructor
  · intro hans v hv
    obtain ⟨⟨n, w⟩, hmem, rfl⟩ := List.mem_map.mp hv
    obtain ⟨xs, ys, hns⟩ := List.append_of_mem hmem
    have hnode := (linked_split.mp (hns ▸ hx.links)).2.1
    have heq := hans n w (Member.of_split hx.hangs hns) (getField_ok hnode rfl)
    exact Option.some.inj (heq.symm.trans (hrun w hv))
  · intro heq n v hn hval
    obtain ⟨xs, w, ys, hns⟩ := hn.split hx.hangs
    have hnode := (linked_split.mp (hns ▸ hx.links)).2.1
    obtain rfl : w = v := by simpa using (getField_ok hnode rfl).symm.trans hval
    have hv : w ∈ x.values := by simp [DList.values, hns]
    rw [hrun w hv, heq w hv]

/-- Without a match method the values are compared with the key. -/
theorem Matches.eq {key v : Addr} {hit : Addr → Bool} (hm : Matches F s.mem x.addr key hit v) (hx : x.Ok s.mem)
    (hf : x.match' = NULL) : hit v = decide (key = v) := by
  have hrun := hm s fun _ _ => rfl
  rw [listMatches, wp_bind, wp_getField hx.header rfl, if_pos hf] at hrun
  exact (wp_pure.mp hrun).1.symm

@[simp] theorem headers_list : (.list x ::ₘ W).filterMap Obj.header? =
    x.addr ::ₘ W.filterMap Obj.header? := Multiset.filterMap_cons_some _ _ _ rfl

@[simp] theorem headers_iter {n : Addr} {w : Word} : (.iter it n w ::ₘ W).filterMap Obj.header? =
    W.filterMap Obj.header? := Multiset.filterMap_cons_none _ _ rfl

@[simp] theorem iters_list : (.list x ::ₘ W).filterMap Obj.iter? = W.filterMap Obj.iter? :=
  Multiset.filterMap_cons_none _ _ rfl

@[simp] theorem iters_iter {n : Addr} {w : Word} : (.iter it n w ::ₘ W).filterMap Obj.iter? =
    it ::ₘ W.filterMap Obj.iter? := Multiset.filterMap_cons_some _ _ _ rfl

theorem Owned.list_methods (hI : Owned dup free s₀ (s, h) (.list x ::ₘ W)) :
    x.dup = dup ∧ x.free = free := hI.kept _ (Multiset.mem_cons_self _ _)

theorem Owned.list_ok (hI : Owned dup free s₀ (s, h) (.list x ::ₘ W)) : x.Ok s.mem ∧ x.foot.Nodup :=
  hI.own.list_ok (Multiset.mem_cons_self _ _)

theorem Owned.setNodes {ns : List (Addr × Addr)} (hI : Owned dup free s₀ (s, h) (.list x ::ₘ W))
    (hW : Own s₀.mem s'.mem (.list (x.setNodes ns) ::ₘ W)) :
    Owned dup free s₀ (s', h) (.list (x.setNodes ns) ::ₘ W) := by
  obtain ⟨hx, hkept⟩ := Multiset.forall_mem_cons.mp hI.kept
  refine ⟨hW, ?_, ?_, Multiset.forall_mem_cons.mpr ⟨hx, hkept⟩⟩
  · rw [hI.lists, headers_list, headers_list]
    rfl
  · rw [hI.iters, iters_list, iters_list]

theorem Owned.setIter {n n' : Addr} {w w' : Word} (hI : Owned dup free s₀ (s, h) (.iter it n w ::ₘ W))
    (hW : Own s₀.mem s'.mem (.iter it n' w' ::ₘ W)) : Owned dup free s₀ (s', h) (.iter it n' w' ::ₘ W) := by
  refine ⟨hW, hI.lists.trans ?_, hI.iters.trans ?_,
    Multiset.forall_mem_cons.mpr ⟨trivial, (Multiset.forall_mem_cons.mp hI.kept).2⟩⟩
  · rw [headers_iter, headers_iter]
  · rw [iters_iter, iters_iter]

theorem Owned.addList (hI : Owned dup free s₀ (s, h) W) (hx : x.dup = dup ∧ x.free = free)
    (hW : Own s₀.mem s'.mem (.list x ::ₘ W)) :
    Owned dup free s₀ (s', { h with lists := x.addr ::ₘ h.lists }) (.list x ::ₘ W) := by
  refine ⟨hW, ?_, ?_, Multiset.forall_mem_cons.mpr ⟨hx, hI.kept⟩⟩
  · rw [headers_list, ← hI.lists]
  · rw [iters_list, ← hI.iters]

theorem Owned.dropList (hI : Owned dup free s₀ (s, h) (.list x ::ₘ W)) (hW : Own s₀.mem s'.mem W) :
    Owned dup free s₀ (s', { h with lists := h.lists.erase x.addr }) W := by
  refine ⟨hW, ?_, ?_, (Multiset.forall_mem_cons.mp hI.kept).2⟩
  · rw [hI.lists, headers_list, Multiset.erase_cons_head]
  · rw [hI.iters, iters_list]

/-- Without handles the client owns nothing. -/
theorem no_objects (hl : W.filterMap Obj.header? = 0) (hi : W.filterMap Obj.iter? = 0)
    (hkept : ∀ o ∈ W, o.Kept dup free) : W = 0 := by
  refine Multiset.eq_zero_of_forall_notMem fun o ho => ?_
  obtain ⟨W', rfl⟩ := Multiset.exists_cons_of_mem ho
  cases o with
  | list x => rw [headers_list] at hl; exact Multiset.cons_ne_zero hl
  | iter it n w => rw [iters_iter] at hi; exact Multiset.cons_ne_zero hi
  | value v => exact hkept _ ho

theorem Owned.none_left (hI : Owned dup free s₀ (s, ⟨0, 0⟩) W) : W = 0 :=
  no_objects hI.lists.symm hI.iters.symm hI.kept

/-- The blocks of a new list are not in use. -/
theorem Own.list_new (h : Own m₀ m (.list x ::ₘ W)) : Disjoint x.foot (objShape.owned W) := by
  have hn := h.nodup
  rw [Shape.owned_cons, objShape_list, Multiset.nodup_add] at hn
  exact hn.2.2

/-- The addresses of a new node and its value are not in use. -/
theorem Own.node_new {v : Addr} (xs ys : List (Addr × Addr)) (hf : x.free ≠ NULL)
    (h : Own m₀ m (.list (x.setNodes (xs ++ (p, v) :: ys)) ::ₘ W)) :
    p ∉ objShape.owned (.list (x.setNodes (xs ++ ys)) ::ₘ W) ∧
      v ∉ objShape.owned (.list (x.setNodes (xs ++ ys)) ::ₘ W) := by
  have hn := h.nodup
  rw [Shape.owned_cons, objShape_list, DList.foot_node, owns_of_ne hf, Multiset.cons_add, add_right_comm,
    Multiset.nodup_cons, Multiset.nodup_add] at hn
  obtain ⟨hp, -, -, hdis⟩ := hn
  rw [Shape.owned_cons, objShape_list]
  exact ⟨fun hmem => hp (Multiset.mem_add.mpr (Or.inl hmem)),
    Multiset.disjoint_right.mp hdis (Multiset.mem_singleton_self v)⟩

/-- Every legal search is answered by some `hit`. -/
theorem Owned.answers {op : COp} (hI : Owned dup free s₀ (s, h) W) (hlegal : op.Legal F s h) :
    ∃ hit, op.Answers F s hit := by
  cases op with
  | listSearchKey l key =>
    obtain ⟨x, W', rfl, rfl⟩ := hI.find hlegal.1
    obtain ⟨hit, hm⟩ := hlegal.2.matches hI.list_ok.1
    exact ⟨hit, (answers_iff hI.list_ok.1 hm).mpr fun _ _ => rfl⟩
  | _ => exact ⟨fun _ => false, trivial⟩

/-- A legal step is a step on the sequences, and keeps the client in possession of what it is to release. -/
theorem cop_tells {op : COp} {hit : Addr → Bool} (hd : dup ≠ NULL) (hf : free ≠ NULL) (hD : Dups F dup)
    (hfree : ∀ v, F.free free v = zfree v) (hI : Owned dup free s₀ (s, h) W) (hlegal : op.Legal F s h)
    (hhit : op.Answers F s hit) :
    wp Safe (op.exec L F dup free) (fun r s' => ∃ W', ListStep dup free hit W (op, r) W' ∧
      Owned dup free s₀ (s', op.handles h r) W') s := by
  cases op with
  | listCreate mt =>
    refine hI.own.newList fun l s' hW => ⟨_, .create ?_, hI.addList ⟨rfl, rfl⟩ hW⟩
    exact Multiset.disjoint_left.mp hW.list_new (DList.mem_foot.mpr (Or.inl rfl))
  | listAddNodeHead l size bytes =>
    obtain ⟨x, W', rfl, rfl⟩ := hI.find hlegal.1
    refine wp_bind.mpr (hI.own.newValue hlegal.2.1 hlegal.2.2 fun v s₁ hW => ?_)
    rw [Multiset.cons_swap] at hW
    have hxf : x.free ≠ NULL := hI.list_methods.2 ▸ hf
    refine hW.listAddNodeHead hxf fun p s' hW => ?_
    obtain ⟨hp, hv⟩ := Own.node_new [] x.nodes hxf hW
    exact ⟨_, .addHead hp hv, hI.setNodes hW⟩
  | listAddNodeTail l size bytes =>
    obtain ⟨x, W', rfl, rfl⟩ := hI.find hlegal.1
    refine wp_bind.mpr (hI.own.newValue hlegal.2.1 hlegal.2.2 fun v s₁ hW => ?_)
    rw [Multiset.cons_swap] at hW
    have hxf : x.free ≠ NULL := hI.list_methods.2 ▸ hf
    refine hW.listAddNodeTail hxf fun p s' hW => ?_
    obtain ⟨hp, hv⟩ := Own.node_new x.nodes [] hxf hW
    rw [List.append_nil] at hp hv
    exact ⟨_, .addTail hp hv, hI.setNodes hW⟩
  | listDelNode l n =>
    obtain ⟨x, W', rfl, rfl⟩ := hI.find hlegal.1
    obtain ⟨hok, hn⟩ := hI.list_ok
    have hzfree : x.free ≠ NULL → ∀ u, F.free x.free u = zfree u := fun _ => hI.list_methods.2 ▸ hfree
    refine wp_bind.mpr ((hok.wp_listDelNode_zfree (E := Safe) hzfree hn hlegal.2).mono ?_)
    rintro - s' ⟨xs, v, ys, hns, hu, hok⟩
    have hW : Own s₀.mem s'.mem (.list (x.setNodes (xs ++ ys)) ::ₘ W') := hI.own.replace hu hok
    exact wp_pure.mpr ⟨_, .delNode hns, hI.setNodes hW⟩
  | listSearchKey l key =>
    obtain ⟨x, W', rfl, rfl⟩ := hI.find hlegal.1
    obtain ⟨hok, hn⟩ := hI.list_ok
    obtain ⟨hit', hm⟩ := hlegal.2.matches hok
    have heq := (answers_iff hok hm).mp hhit
    have hmatches : ∀ v ∈ x.values, Matches F s.mem x.addr key hit v := by
      intro v hv
      rw [Matches, heq v hv]
      exact hm v hv
    refine (wp_listSearchKey hok.hangs hmatches).mono fun r s' hpost => ?_
    obtain ⟨hmem, rfl⟩ := hpost
    have hplain : x.match' = NULL → ∀ v ∈ x.values, hit v = decide (key = v) := fun hf v hv =>
      (hmatches v hv).eq hok hf
    refine ⟨_, .search (Multiset.mem_cons_self _ _) hplain, ?_, hI.lists, hI.iters, hI.kept⟩
    show Own s₀.mem s'.mem _
    rw [hmem]
    exact hI.own
  | listIndex l index =>
    obtain ⟨x, W', rfl, rfl⟩ := hI.find hlegal.1
    obtain ⟨hok, hn⟩ := hI.list_ok
    obtain ⟨len, hlen, hlt⟩ := hlegal.2
    obtain rfl : BitVec.ofNat 64 x.nodes.length = len := by
      simpa using (getField_ok hok.header rfl).symm.trans hlen
    rw [BitVec.toNat_ofNat, Nat.mod_eq_of_lt hok.hangs.length_lt] at hlt
    exact wp.of_eq (listIndex_eq hok.hangs hlt index) ⟨_, .index (Multiset.mem_cons_self _ _), hI⟩
  | listGetIterator l dir =>
    obtain ⟨x, W', rfl, rfl⟩ := hI.find hlegal
    obtain ⟨hok, hn⟩ := hI.list_ok
    refine (wp_listGetIterator hok.header rfl rfl).mono fun it s' hpost => ?_
    obtain ⟨hnew, w, hw, hc⟩ := hpost
    have hW := hI.own.add_iter hnew hc
    have hit : it ∉ objShape.owned (.list x ::ₘ W') := fun hmem => hI.own.live it hmem hnew
    refine ⟨_, .iter (Multiset.mem_cons_self _ _) hit hw, hW, ?_, ?_, Multiset.forall_mem_cons.mpr ⟨trivial, hI.kept⟩⟩
    · rw [headers_iter]
      exact hI.lists
    · rw [iters_iter, ← hI.iters]
      rfl
  | listNext it =>
    obtain ⟨hit, n, hpend, hn⟩ := hlegal
    obtain ⟨n', w, W', rfl⟩ := hI.findIter hit
    have hi : Holds s.mem it (words [n', w]) := hI.own.ok _ (Multiset.mem_cons_self _ _)
    obtain rfl : n' = n := by simpa using (getField_ok hi rfl).symm.trans hpend
    rcases hn with rfl | ⟨l, hl, hmem⟩
    · exact wp_listNext_null (Cells.one hi) ⟨_, .done, hI⟩
    · obtain ⟨x, hx, rfl⟩ := hI.mem hl
      have hx' : .list x ∈ W' := (Multiset.mem_cons.mp hx).resolve_left (by simp)
      have hok : x.Ok s.mem := hI.own.ok _ hx
      obtain ⟨xs, v, ys, hns⟩ := hmem.split hok.hangs
      have hnode := (linked_split.mp (hns ▸ hok.links)).2.1
      have hfoot : n' ∈ x.foot := by
        rw [DList.mem_foot, DList.addrs, hns]
        simp
      have hne : n' ≠ it := hI.own.ne (Multiset.mem_singleton_self it) hx' hfoot
      exact hI.own.listNext hnode hne fun m hW => ⟨_, .next hx' hns, hI.setIter hW⟩
  | listRewind l it =>
    obtain ⟨x, hx, rfl⟩ := hI.mem hlegal.1
    obtain ⟨n, w, W', rfl⟩ := hI.findIter hlegal.2
    have hok : x.Ok s.mem := hI.own.ok _ hx
    have hx' : .list x ∈ W' := (Multiset.mem_cons.mp hx).resolve_left (by simp)
    rw [COp.exec, listRewind, wp_bind, wp_bind, wp_getField hok.header rfl]
    exact hI.own.rewind fun m w' hw' hW => wp_pure.mpr ⟨_, .rewind hx' hw', hI.setIter hW⟩
  | listRewindTail l it =>
    obtain ⟨x, hx, rfl⟩ := hI.mem hlegal.1
    obtain ⟨n, w, W', rfl⟩ := hI.findIter hlegal.2
    have hok : x.Ok s.mem := hI.own.ok _ hx
    have hx' : .list x ∈ W' := (Multiset.mem_cons.mp hx).resolve_left (by simp)
    rw [COp.exec, listRewindTail, wp_bind, wp_bind, wp_getField hok.header rfl]
    exact hI.own.rewind fun m w' hw' hW => wp_pure.mpr ⟨_, .rewindTail hx' hw', hI.setIter hW⟩
  | listReleaseIter it =>
    obtain ⟨n, w, W', rfl⟩ := hI.findIter hlegal
    refine wp_bind.mpr (hI.own.zfree_iter fun m g t hW => wp_pure.mpr ⟨_, .releaseIter, hW, ?_, ?_, ?_⟩)
    · exact hI.lists.trans headers_iter
    · show h.iters.erase it = _
      rw [hI.iters, iters_iter, Multiset.erase_cons_head]
    · exact (Multiset.forall_mem_cons.mp hI.kept).2
  | listDup l =>
    obtain ⟨x, W', rfl, rfl⟩ := hI.find hlegal
    obtain ⟨hok, hn⟩ := hI.list_ok
    obtain ⟨rfl, rfl⟩ := hI.list_methods
    have hx : .list x ∈ (.list x ::ₘ W' : Multiset Obj) := Multiset.mem_cons_self _ _
    refine (Own.listDup hd hf hD hfree hok).mono fun r s' hpost => ?_
    rcases hpost with ⟨rfl, hm⟩ | ⟨ns, hlen, hy⟩
    · refine ⟨.list x ::ₘ W', .dupFails hx, ?_, hI.lists, hI.iters, hI.kept⟩
      show Own s₀.mem s'.mem _
      rw [hm]
      exact hI.own
    · have hr : r ≠ NULL := (hy.list_ok (Multiset.mem_singleton_self _)).1.header.ne_null
      have hu := hy.update
      rw [Shape.owned_singleton] at hu
      have hW := hI.own.create hu (hy.ok _ (Multiset.mem_singleton_self _))
      rw [COp.handles, if_neg hr]
      exact ⟨_, .dup hx (Own.list_new hW) hlen,
        hI.addList (x := ⟨r, ns, x.dup, x.free, x.match'⟩) ⟨rfl, rfl⟩ hW⟩
  | listRelease l =>
    obtain ⟨x, W', rfl, rfl⟩ := hI.find hlegal
    refine wp_bind.mpr (hI.own.listRelease (fun _ => hI.list_methods.2 ▸ hfree) fun s' hW => ?_)
    exact wp_pure.mpr ⟨_, .release, hI.dropList hW⟩
  | safe_listRelease l =>
    obtain ⟨x, W', rfl, rfl⟩ := hI.find hlegal
    rw [COp.exec, safe_listRelease_eq]
    refine wp_bind.mpr (hI.own.listRelease (fun _ => hI.list_methods.2 ▸ hfree) fun s' hW => ?_)
    exact wp_pure.mpr ⟨_, .safeRelease, hI.dropList hW⟩

theorem cop_step {op : COp} (hd : dup ≠ NULL) (hf : free ≠ NULL) (hD : Dups F dup)
    (hfree : ∀ v, F.free free v = zfree v) (hI : Owned dup free s₀ (s, h) W) (hlegal : op.Legal F s h) :
    wp Safe (op.exec L F dup free) (fun r s' => ∃ W', Owned dup free s₀ (s', op.handles h r) W') s := by
  obtain ⟨hit, hhit⟩ := hI.answers hlegal
  exact (cop_tells hd hf hD hfree hI hlegal hhit).mono fun _ _ ⟨W', _, hI'⟩ => ⟨W', hI'⟩

/-- Whatever a client does with lists that own their values, no call has
undefined behaviour, and once it has released its lists and iterators the heap
and the counter are what they were, every block having been freed as often as
it was allocated. -/
theorem lists_leak_nothing (L : Libc) (F : Methods) (dup free : Addr) (hd : dup ≠ NULL) (hf : free ≠ NULL)
    (hD : Dups F dup) (hfree : ∀ v, F.free free v = zfree v) (hF : Client F) (s₀ s : State Globals)
    (h : Handles) (tr : List ((State Globals × Handles) × COp))
    (hrun : Run (cstep L F dup free) (s₀, ⟨0, 0⟩) tr (s, h)) :
    (∀ op : COp, op.Legal F s h → wp Safe (op.exec L F dup free) (fun _ _ => True) s) ∧
    (h = ⟨0, 0⟩ → s.mem = s₀.mem ∧ s.glob.used_memory = s₀.glob.used_memory ∧
      ∃ es, s.trace = es ++ s₀.trace ∧ ledger s₀.mem.keys es = some s₀.mem.keys) := by
  have hI : (∃ W, Owned dup free s₀ (s, h) W) ∧ Settled s₀ s := by
    refine hrun.invariant (P := fun _ x => (∃ W, Owned dup free s₀ x W) ∧ Settled s₀ x.1)
      ⟨⟨0, Owned.init⟩, Settled.of_eq rfl rfl rfl⟩ ?_
    rintro tr ⟨s, h⟩ op ⟨s', h'⟩ ⟨⟨W, hI⟩, hset⟩ ⟨hlegal, r, hok, rfl⟩
    exact ⟨(cop_step hd hf hD hfree hI hlegal).of_ok hok, hset.trans ((keeps_cop hF op).of_ok hok)⟩
  obtain ⟨⟨W, hI⟩, hset⟩ := hI
  refine ⟨fun op hlegal => (cop_step hd hf hD hfree hI hlegal).mono fun _ _ _ => trivial, ?_⟩
  rintro rfl
  obtain rfl : W = 0 := hI.none_left
  have hmem : s.mem = s₀.mem := hI.own.eq_of_empty
  obtain ⟨es, htrace, hlog⟩ := hset.log
  exact ⟨hmem, used_memory_of_debt hset.debt hmem, es, htrace, hmem ▸ hlog⟩

end Runs

/-- The dup method of the tests, which copies a block, and methods like theirs. -/
def intMethods : Methods where
  dup _ v := do
    let size ← zsizeof v
    let arr ← zmalloc (bump 0) size
    let bs ← getBytes v 0 size.toNat
    setBytes arr 0 bs
    return arr
  free _ v := zfree v
  match' _ v key := do
    let a ← getBytes v 0 4
    let b ← getBytes key 0 4
    return if a = b then 1 else 0

theorem Law.intMethods_dup {R : State Globals → State Globals → Prop} (hR : Law R) (f v : Addr) :
    Obeys R (intMethods.dup f v) :=
  hR.bind (hR.readOnly ((readOnly_readAt _ _ _).bind fun _ => readOnly_pure _)) fun _ =>
    hR.bind (hR.zmalloc _ _) fun _ => hR.bind (hR.readOnly (readOnly_getBytes _)) fun _ =>
    hR.bind (hR.setBytes _ _ _) fun _ => hR.pure _

theorem client_int : Client intMethods where
  dup := settled_law.intMethods_dup
  free _ v := keeps_zfree v
  match' _ _ _ := (keeps_getBytes _ _ _).bind fun _ => (keeps_getBytes _ _ _).bind fun _ => keeps_pure _

theorem wp_intMethods_dup {s : State Globals} {v : Addr} {bs : List Byte} (f : Addr) (hbs : Holds s.mem v bs) :
    wp Safe (intMethods.dup f v) (fun r s' =>
      Fresh s.mem r ∧ bs.length + 8 < 2 ^ 64 ∧ s'.mem = put s.mem r bs) s := by
  have hfits := hbs.fits
  have hsize : (BitVec.ofNat 64 bs.length).toNat = bs.length := by
    rw [BitVec.toNat_ofNat]
    omega
  change wp Safe (_ >>= _) _ _
  rw [wp_bind, wp_zsizeof hbs, wp_bind]
  refine wp_zmalloc rfl (by omega) fun p raw _ hlen hfresh => ?_
  have hlen' : (raw.drop 8).length = bs.length := by
    rw [List.length_drop, hlen, hsize, Nat.add_sub_cancel_left]
  have hp : Holds (put s.mem p (raw.drop 8)) p (raw.drop 8) := hfresh.put (by omega)
  have hv : Holds (put s.mem p (raw.drop 8)) v bs := hbs.put_ne (hfresh.ne hbs)
  have hcopy : bs.length = (raw.drop 8).length := by rw [hlen']
  rw [hsize, wp_bind, wp_getBytes hv (by omega), slice_self, wp_bind, wp_setBytes hp (by omega), wp_pure]
  refine ⟨hfresh, by omega, ?_⟩
  rw [splice_self hcopy, put, put, Finmap.insert_insert]
  rfl

theorem dups_int (f : Addr) : Dups intMethods f := by
  rintro v s ⟨bs, hbs⟩
  exact (wp_intMethods_dup f hbs).mono fun r s' hpost => Or.inr ⟨bs, hpost⟩

/-- The match method of the tests reads four bytes of a value and four of the key. -/
theorem searchable_int {s : State Globals} {x : DList} {key : Addr} {ks : List Byte} (hx : x.Hangs s.mem)
    (hv : ∀ v ∈ x.values, ∃ bs, Holds s.mem v bs ∧ 4 ≤ bs.length) (hkey : Holds s.mem key ks) (hks : 4 ≤ ks.length) :
    Searchable intMethods s x.addr key := by
  intro f hf hne n v hn hval
  obtain ⟨xs, w, ys, hns⟩ := hn.split hx
  have hnode := (linked_split.mp (hns ▸ hx.links)).2.1
  obtain rfl : w = v := by simpa using (getField_ok hnode rfl).symm.trans hval
  obtain ⟨bs, hbs, hlen⟩ := hv w (by simp [DList.values, hns])
  refine ⟨if slice bs 0 4 = slice ks 0 4 then 1 else 0, fun s' hs => wp.eq_ok ?_⟩
  change wp Never (_ >>= _) _ _
  rw [wp_bind, wp_getBytes (hs.holds hbs) (by omega), wp_bind, wp_getBytes (hs.holds hkey) (by omega), wp_pure]
  exact ⟨rfl, rfl⟩

abbrev tourExec (op : COp) : M Addr := op.exec (bump 0) intMethods 1 2

/-- A list with two values is searched, walked while it is changed, and copied, and both lists are released. -/
def single₁ : State Globals := after (newList (bump 0) 1 2 3) zinit
def single₂ : State Globals := after (tourExec (.listAddNodeTail 0x1008 4 [7, 0, 0, 0])) single₁
def walk₁ : State Globals := after (tourExec (.listAddNodeTail 0x1008 4 [8, 0, 0, 0])) single₂
def walked : DList := ⟨0x1008, [(0x3008, 0x2008), (0x5008, 0x4008)], 1, 2, 3⟩

def tour₄ : State Globals := after (tourExec (.listSearchKey 0x1008 0x4008)) walk₁
def tour₅ : State Globals := after (tourExec (.listGetIterator 0x1008 FORWARD)) tour₄
def tour₆ : State Globals := after (tourExec (.listNext 0xA008)) tour₅
def tour₇ : State Globals := after (tourExec (.listDelNode 0x1008 0x3008)) tour₆
def tour₈ : State Globals := after (tourExec (.listDup 0x1008)) tour₇
def tour₉ : State Globals := after (tourExec (.listRewindTail 0x1008 0xA008)) tour₈
def tour₁₀ : State Globals := after (tourExec (.listNext 0xA008)) tour₉
def tour₁₁ : State Globals := after (tourExec (.listReleaseIter 0xA008)) tour₁₀
def tour₁₂ : State Globals := after (tourExec (.listRelease 0x1008)) tour₁₁
def tour₁₃ : State Globals := after (tourExec (.safe_listRelease 0xE008)) tour₁₂

def tourRun : List ((State Globals × Handles) × COp) :=
  [((zinit, ⟨0, 0⟩), .listCreate 3), ((single₁, ⟨{0x1008}, 0⟩), .listAddNodeTail 0x1008 4 [7, 0, 0, 0]),
    ((single₂, ⟨{0x1008}, 0⟩), .listAddNodeTail 0x1008 4 [8, 0, 0, 0]),
    ((walk₁, ⟨{0x1008}, 0⟩), .listSearchKey 0x1008 0x4008),
    ((tour₄, ⟨{0x1008}, 0⟩), .listGetIterator 0x1008 FORWARD),
    ((tour₅, ⟨{0x1008}, {0xA008}⟩), .listNext 0xA008),
    ((tour₆, ⟨{0x1008}, {0xA008}⟩), .listDelNode 0x1008 0x3008),
    ((tour₇, ⟨{0x1008}, {0xA008}⟩), .listDup 0x1008),
    ((tour₈, ⟨{0xE008, 0x1008}, {0xA008}⟩), .listRewindTail 0x1008 0xA008),
    ((tour₉, ⟨{0xE008, 0x1008}, {0xA008}⟩), .listNext 0xA008),
    ((tour₁₀, ⟨{0xE008, 0x1008}, {0xA008}⟩), .listReleaseIter 0xA008),
    ((tour₁₁, ⟨{0xE008, 0x1008}, 0⟩), .listRelease 0x1008),
    ((tour₁₂, ⟨{0xE008}, 0⟩), .safe_listRelease 0xE008)]

theorem tour_step (r : Addr) {s s' : State Globals} {h h' : Handles} {op : COp} (hlegal : op.Legal intMethods s h)
    (hok : result (tourExec op) s = some r) (hs : s' = after (tourExec op) s) (hh : h' = op.handles h r) :
    cstep (bump 0) intMethods 1 2 (s, h) op (s', h') := ⟨hlegal, r, hs ▸ ok_after hok, hh⟩

theorem searchable_walked : Searchable intMethods walk₁ 0x1008 0x4008 := by
  have hheader : Holds walk₁.mem 0x1008 (words walked.header) := ⟨by decide +kernel, by decide, by decide, by decide⟩
  have hleft : NodeAt walk₁.mem NULL 0x3008 0x5008 0x2008 := ⟨by decide +kernel, by decide, by decide, by decide⟩
  have hright : NodeAt walk₁.mem 0x3008 0x5008 NULL 0x4008 := ⟨by decide +kernel, by decide, by decide, by decide⟩
  have hvalue₁ : Holds walk₁.mem 0x2008 [7, 0, 0, 0] := ⟨by decide +kernel, by decide, by decide, by decide⟩
  have hvalue₂ : Holds walk₁.mem 0x4008 [8, 0, 0, 0] := ⟨by decide +kernel, by decide, by decide, by decide⟩
  have hvalues : ∀ v ∈ walked.values, ∃ bs, Holds walk₁.mem v bs ∧ 4 ≤ bs.length := by
    intro v hv
    rcases List.mem_cons.mp hv with rfl | hv
    · exact ⟨_, hvalue₁, by decide⟩
    · obtain rfl := List.mem_singleton.mp hv
      exact ⟨_, hvalue₂, by decide⟩
  exact searchable_int (x := walked) ⟨hheader, hleft, hright, trivial⟩ hvalues hvalue₂ (by decide)

theorem run_tour : Run (cstep (bump 0) intMethods 1 2) (zinit, ⟨0, 0⟩) tourRun (tour₁₃, ⟨0, 0⟩) := by
  have hmem : (0x1008 : Addr) ∈ ({0x1008} : Multiset Addr) := Multiset.mem_singleton_self _
  have hit : (0xA008 : Addr) ∈ ({0xA008} : Multiset Addr) := Multiset.mem_singleton_self _
  have hboth : (0x1008 : Addr) ∈ ({0xE008, 0x1008} : Multiset Addr) := by simp
  have hfirst : ∀ {s p}, result (listFirst 0x1008) s = some p → p ≠ NULL → Member s 0x1008 p := fun h hne =>
    Member.head (readOnly_getField.ok_of_result h) hne
  have h₁ : cstep (bump 0) intMethods 1 2 (zinit, ⟨0, 0⟩) (.listCreate 3) (single₁, ⟨{0x1008}, 0⟩) :=
    tour_step 0x1008 trivial (by decide +kernel) rfl rfl
  have h₂ : cstep (bump 0) intMethods 1 2 (single₁, ⟨{0x1008}, 0⟩) (.listAddNodeTail 0x1008 4 [7, 0, 0, 0])
      (single₂, ⟨{0x1008}, 0⟩) := tour_step 0x1008 ⟨hmem, by decide, by decide⟩ (by decide +kernel) rfl rfl
  have h₃ : cstep (bump 0) intMethods 1 2 (single₂, ⟨{0x1008}, 0⟩) (.listAddNodeTail 0x1008 4 [8, 0, 0, 0])
      (walk₁, ⟨{0x1008}, 0⟩) := tour_step 0x1008 ⟨hmem, by decide, by decide⟩ (by decide +kernel) rfl rfl
  have h₄ : cstep (bump 0) intMethods 1 2 (walk₁, ⟨{0x1008}, 0⟩) (.listSearchKey 0x1008 0x4008)
      (tour₄, ⟨{0x1008}, 0⟩) := tour_step 0x5008 ⟨hmem, searchable_walked⟩ (by decide +kernel) rfl rfl
  have h₅ : cstep (bump 0) intMethods 1 2 (tour₄, ⟨{0x1008}, 0⟩) (.listGetIterator 0x1008 FORWARD)
      (tour₅, ⟨{0x1008}, {0xA008}⟩) := tour_step 0xA008 hmem (by decide +kernel) rfl rfl
  have h₆ : cstep (bump 0) intMethods 1 2 (tour₅, ⟨{0x1008}, {0xA008}⟩) (.listNext 0xA008)
      (tour₆, ⟨{0x1008}, {0xA008}⟩) := by
    have hnext : result (getField 0xA008 listIter.next) tour₅ = some 0x3008 := by decide +kernel
    have hhead : result (listFirst 0x1008) tour₅ = some 0x3008 := by decide +kernel
    exact tour_step 0x3008 ⟨hit, _, readOnly_getField.ok_of_result hnext, Or.inr ⟨_, hmem, hfirst hhead (by decide)⟩⟩
      (by decide +kernel) rfl rfl
  have h₇ : cstep (bump 0) intMethods 1 2 (tour₆, ⟨{0x1008}, {0xA008}⟩) (.listDelNode 0x1008 0x3008)
      (tour₇, ⟨{0x1008}, {0xA008}⟩) := by
    have hhead : result (listFirst 0x1008) tour₆ = some 0x3008 := by decide +kernel
    exact tour_step 0x1008 ⟨hmem, hfirst hhead (by decide)⟩ (by decide +kernel) rfl rfl
  have h₈ : cstep (bump 0) intMethods 1 2 (tour₇, ⟨{0x1008}, {0xA008}⟩) (.listDup 0x1008)
      (tour₈, ⟨{0xE008, 0x1008}, {0xA008}⟩) := tour_step 0xE008 hmem (by decide +kernel) rfl rfl
  have h₉ : cstep (bump 0) intMethods 1 2 (tour₈, ⟨{0xE008, 0x1008}, {0xA008}⟩) (.listRewindTail 0x1008 0xA008)
      (tour₉, ⟨{0xE008, 0x1008}, {0xA008}⟩) := tour_step NULL ⟨hboth, hit⟩ (by decide +kernel) rfl rfl
  have h₁₀ : cstep (bump 0) intMethods 1 2 (tour₉, ⟨{0xE008, 0x1008}, {0xA008}⟩) (.listNext 0xA008)
      (tour₁₀, ⟨{0xE008, 0x1008}, {0xA008}⟩) := by
    have hnext : result (getField 0xA008 listIter.next) tour₉ = some 0x5008 := by decide +kernel
    have hhead : result (listFirst 0x1008) tour₉ = some 0x5008 := by decide +kernel
    exact tour_step 0x5008 ⟨hit, _, readOnly_getField.ok_of_result hnext, Or.inr ⟨_, hboth, hfirst hhead (by decide)⟩⟩
      (by decide +kernel) rfl rfl
  have h₁₁ : cstep (bump 0) intMethods 1 2 (tour₁₀, ⟨{0xE008, 0x1008}, {0xA008}⟩) (.listReleaseIter 0xA008)
      (tour₁₁, ⟨{0xE008, 0x1008}, 0⟩) := tour_step NULL hit (by decide +kernel) rfl rfl
  have h₁₂ : cstep (bump 0) intMethods 1 2 (tour₁₁, ⟨{0xE008, 0x1008}, 0⟩) (.listRelease 0x1008)
      (tour₁₂, ⟨{0xE008}, 0⟩) := tour_step NULL hboth (by decide +kernel) rfl rfl
  have h₁₃ : cstep (bump 0) intMethods 1 2 (tour₁₂, ⟨{0xE008}, 0⟩) (.safe_listRelease 0xE008)
      (tour₁₃, ⟨0, 0⟩) := tour_step NULL (Multiset.mem_singleton_self (0xE008 : Addr)) (by decide +kernel) rfl rfl
  have hfour := (((Run.nil.snoc h₁).snoc h₂).snoc h₃).snoc h₄
  exact ((((((((hfour.snoc h₅).snoc h₆).snoc h₇).snoc h₈).snoc h₉).snoc h₁₀).snoc h₁₁).snoc h₁₂).snoc h₁₃

theorem lists_leak_nothing_tour :
    (∀ op : COp, op.Legal intMethods tour₁₃ ⟨0, 0⟩ →
      wp Safe (op.exec (bump 0) intMethods 1 2) (fun _ _ => True) tour₁₃) ∧
    ((⟨0, 0⟩ : Handles) = ⟨0, 0⟩ → tour₁₃.mem = zinit.mem ∧
      tour₁₃.glob.used_memory = zinit.glob.used_memory ∧
      ∃ es, tour₁₃.trace = es ++ zinit.trace ∧ ledger zinit.mem.keys es = some zinit.mem.keys) :=
  lists_leak_nothing (bump 0) intMethods 1 2 (by decide) (by decide) (dups_int 1) (fun _ => rfl) client_int
    zinit tour₁₃ ⟨0, 0⟩ tourRun run_tour

end Redis
