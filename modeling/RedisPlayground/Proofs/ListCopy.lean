import RedisPlayground.Proofs.ListDups

/-! What a program that uses lists owns, object by object: lists, iterators and
values that are not in a list yet. The functions of `adlist.cc` are described on
these objects. -/

namespace Redis

open CMem

inductive Obj where
  | list (x : DList)
  | iter (it next : Addr) (w : Word)
  | value (v : Addr)

def Obj.foot : Obj → Multiset Addr
  | .list x => x.foot
  | .iter it _ _ => {it}
  | .value v => {v}

def Obj.Ok (m : Mem) : Obj → Prop
  | .list x => x.Ok m
  | .iter it next w => Holds m it (words [next, w])
  | .value v => ∃ bs, Holds m v bs

variable {L : Libc} {F : Methods} {m m' m₀ : Mem} {x y : DList} {o : Obj} {s : State Globals}
  {p v l f a b it : Addr} {w : Word} {ns : List (Addr × Addr)} {E : Stop → Prop}
  {W : Multiset Obj}

theorem Obj.Ok.live (h : o.Ok m) (hp : p ∈ o.foot) : ∃ bs, Holds m p bs := by
  cases o with
  | list x => exact DList.Ok.live h hp
  | iter it next w =>
    obtain rfl := Multiset.mem_singleton.mp hp
    exact ⟨_, h⟩
  | value v =>
    obtain rfl := Multiset.mem_singleton.mp hp
    exact h

theorem Obj.Ok.congr (hm : ∀ p ∈ o.foot, block m' p = block m p) (h : o.Ok m) : o.Ok m' := by
  cases o with
  | list x => exact DList.Ok.congr h hm
  | iter it next w => exact Holds.congr h (hm it (Multiset.mem_singleton_self it))
  | value v =>
    obtain ⟨bs, hbs⟩ := h
    exact ⟨bs, hbs.congr (hm v (Multiset.mem_singleton_self v))⟩

def objShape : Shape Mem Addr (List Byte) Obj where
  view := block
  foot := Obj.foot
  Ok := Obj.Ok
  live h hp := by
    obtain ⟨bs, hbs⟩ := h.live hp
    exact hbs.live
  congr := Obj.Ok.congr

@[simp] theorem objShape_list : objShape.foot (.list x) = x.foot := rfl
@[simp] theorem objShape_iter {next : Addr} : objShape.foot (.iter it next w) = {it} := rfl
@[simp] theorem objShape_value : objShape.foot (.value v) = {v} := rfl

/-- What a dup method does: it returns a fresh copy of the value, or NULL. -/
def Dups (F : Methods) (f : Addr) : Prop :=
  ∀ v (s : State Globals), (∃ bs, Holds s.mem v bs) → wp Safe (F.dup f v) (fun r s' =>
    r = NULL ∧ s'.mem = s.mem ∨
      ∃ bs, Fresh s.mem r ∧ bs.length + 8 < 2 ^ 64 ∧ s'.mem = put s.mem r bs) s

/-- The heap, object by object, next to the memory `m₀` the program began with. -/
abbrev Own (m₀ m : Mem) (W : Multiset Obj) : Prop := objShape.Sat m₀ m W

section Rules

/-- What was there before is still there. -/
theorem Own.keep {bs : List Byte} (h : Own m₀ m W) (hp : Holds m₀ p bs) : Holds m p bs :=
  hp.congr (h.old hp.live)

theorem Own.list_ok (h : Own m₀ m W) (hx : .list x ∈ W) : x.Ok m ∧ x.foot.Nodup :=
  ⟨h.ok _ hx, h.foot_nodup hx⟩

theorem Own.zfree_iter {next : Addr} {Q : Unit → State Globals → Prop}
    (h : Own m₀ s.mem (.iter it next w ::ₘ W)) (hQ : ∀ m g t, Own m₀ m W → Q () ⟨m, g, t⟩) :
    wp E (zfree it) Q s := by
  have hi : Holds s.mem it (words [next, w]) := h.ok _ (Multiset.mem_cons_self _ _)
  refine (wp_zfree hi).mpr (hQ _ _ _ (h.destroy ?_))
  exact updates_del (S := 0) (Multiset.nodup_singleton it)

theorem Own.add_iter {s' : State Globals} {n : Addr} (h : Own m₀ s.mem W) (hnew : block s.mem it = none)
    (hc : Cells s.mem s'.mem [(it, [n, w])]) : Own m₀ s'.mem (.iter it n w ::ₘ W) := by
  refine h.create (hc.updates (by simp) (by simp) (by simp) fun q hq _ => ?_) (hc.get_holds 0 rfl)
  rw [Multiset.mem_singleton.mp hq]
  exact hnew

theorem Own.listNext {Q : Addr → State Globals → Prop} (h : Own m₀ s.mem (.iter it p w ::ₘ W))
    (hnode : NodeAt s.mem a p b v) (hne : p ≠ it)
    (hQ : ∀ m, Own m₀ m (.iter it (if w.setWidth 32 = FORWARD then b else a) w ::ₘ W) →
      Q p { s with mem := m }) : wp E (listNext it) Q s := by
  have hi : Holds s.mem it (words [p, w]) := h.ok _ (Multiset.mem_cons_self _ _)
  refine wp_listNext (Cells.one hi) hnode hne fun m hc => hQ m (h.replace ?_ (hc.get_holds 0 rfl))
  exact hc.updates (Multiset.nodup_singleton it) (fun q hq => hq) (by simp) (fun q hq hn => absurd hq hn)

/-- An iterator is put before another node, in a direction. -/
theorem Own.rewind {n : Addr} {dir : BitVec 32} {Q : Unit → State Globals → Prop}
    (h : Own m₀ s.mem (.iter it p w ::ₘ W))
    (hQ : ∀ m w', w'.setWidth 32 = dir → Own m₀ m (.iter it n w' ::ₘ W) → Q () { s with mem := m }) :
    wp E (do
      setField it listIter.next n
      setInt it listIter.direction dir) Q s := by
  have hi : Holds s.mem it (words [p, w]) := h.ok _ (Multiset.mem_cons_self _ _)
  refine wp_bind.mpr ((Cells.one hi).set 0 rfl rfl fun m hc => ?_)
  refine hc.setInt 0 rfl rfl fun m w' hw' hc => hQ m w' hw' (h.replace ?_ (hc.get_holds 0 rfl))
  exact hc.updates (Multiset.nodup_singleton it) (fun q hq => hq) (by simp) (fun q hq hn => absurd hq hn)

theorem Own.listRelease {Q : Unit → State Globals → Prop} (h : Own m₀ s.mem (.list x ::ₘ W))
    (hfree : x.free ≠ NULL → ∀ u, F.free x.free u = zfree u)
    (hQ : ∀ s', Own m₀ s'.mem W → Q () s') : wp E (listRelease F x.addr) Q s := by
  obtain ⟨hok, hn⟩ := h.list_ok (Multiset.mem_cons_self _ _)
  exact (hok.wp_listRelease_zfree hfree hn).mono fun _ s' hu => hQ s' (h.destroy hu)

/-- A value of its own becomes the value of a node. -/
theorem Own.add_step {s' : State Globals} {ns : List (Addr × Addr)} (hf : x.free ≠ NULL)
    (h : Own m₀ s.mem (.list x ::ₘ .value v ::ₘ W))
    (hu : Updates s.mem s'.mem (x.foot + ↑(owns x.free [v])) (x.setNodes ns).foot)
    (hok : (x.setNodes ns).Ok s'.mem) : Own m₀ s'.mem (.list (x.setNodes ns) ::ₘ W) := by
  rw [owns_of_ne hf, Multiset.coe_singleton] at hu
  exact h.join hu hok

theorem Own.added (hf : x.free ≠ NULL) (h : Own m₀ s.mem (.list x ::ₘ .value v ::ₘ W)) :
    (x.foot + ↑(owns x.free [v])).Nodup ∧ ∀ u ∈ owns x.free [v], ∃ bs, Holds s.mem u bs := by
  rw [owns_of_ne hf]
  refine ⟨Multiset.nodup_of_le ?_ h.nodup, fun u hu => ?_⟩
  · rw [Shape.owned_cons, Shape.owned_cons, ← add_assoc]
    exact Multiset.le_add_right _ _
  · rw [List.mem_singleton.mp hu]
    exact h.ok (.value v) (Multiset.mem_cons_of_mem (Multiset.mem_cons_self _ _))

theorem Own.listAddNodeHead {Q : Addr → State Globals → Prop} (hf : x.free ≠ NULL)
    (h : Own m₀ s.mem (.list x ::ₘ .value v ::ₘ W))
    (hQ : ∀ p s', Own m₀ s'.mem (.list (x.setNodes ((p, v) :: x.nodes)) ::ₘ W) → Q x.addr s') :
    wp Safe (listAddNodeHead L x.addr v) Q s := by
  obtain ⟨hn, hv⟩ := h.added hf
  have hok := h.ok (.list x) (Multiset.mem_cons_self _ _)
  refine (hok.wp_listAddNodeHead hn hv).mono fun r s' hpost => ?_
  obtain ⟨rfl, p, -, hu, hok⟩ := hpost
  exact hQ p s' (h.add_step hf hu hok)

theorem Own.listAddNodeTail {Q : Addr → State Globals → Prop} (hf : x.free ≠ NULL)
    (h : Own m₀ s.mem (.list x ::ₘ .value v ::ₘ W))
    (hQ : ∀ p s', Own m₀ s'.mem (.list (x.setNodes (x.nodes ++ [(p, v)])) ::ₘ W) → Q x.addr s') :
    wp Safe (listAddNodeTail L x.addr v) Q s := by
  obtain ⟨hn, hv⟩ := h.added hf
  have hok := h.ok (.list x) (Multiset.mem_cons_self _ _)
  refine (hok.wp_listAddNodeTail hn hv).mono fun r s' hpost => ?_
  obtain ⟨rfl, p, -, hu, hok⟩ := hpost
  exact hQ p s' (h.add_step hf hu hok)

/-- The dup method gives the program a value of its own, or nothing. -/
theorem Own.dup {Q : Addr → State Globals → Prop} {u : Addr} (hD : Dups F f) (h : Own m₀ s.mem W)
    (hu : ∃ bs, Holds s.mem u bs) (hnull : ∀ s', Own m₀ s'.mem W → Q NULL s')
    (hnew : ∀ r s', r ≠ NULL → Own m₀ s'.mem (.value r ::ₘ W) → Q r s') : wp Safe (callDup F f u) Q s := by
  have hdup := hD u { s with trace := .call f u :: s.trace } hu
  rw [callDup, wp_bind, wp_record]
  refine hdup.mono fun r s' hpost => ?_
  rcases hpost with ⟨rfl, hm⟩ | ⟨bs, hfresh, hfits, hm⟩
  · exact hnull s' (by rw [hm]; exact h)
  · refine hnew r s' hfresh.ne_null ?_
    rw [hm]
    exact h.create (updates_put hfresh.block) ⟨bs, hfresh.put hfits⟩

end Rules

theorem Own.eq_of_empty (h : Own m₀ m 0) : m = m₀ := mem_ext fun p => congrFun h.view_eq p

/-- Next to a list that owns its values `listDup` leaves one more that owns its values, or nothing. -/
theorem Own.listDup (hdup : x.dup ≠ NULL) (hfree : x.free ≠ NULL) (hD : Dups F x.dup)
    (hF : ∀ u, F.free x.free u = zfree u) (h : x.Ok s.mem) :
    wp Safe (listDup L F x.addr) (fun r s' => r = NULL ∧ s'.mem = s.mem ∨
      ∃ ns : List (Addr × Addr), ns.length = x.nodes.length ∧
        Own s.mem s'.mem {.list ⟨r, ns, x.dup, x.free, x.match'⟩}) s := by
  have hlive : ∀ v ∈ x.values, ∃ bs, Holds s.mem v bs := fun v hv =>
    h.values v (by rwa [owns_of_ne hfree])
  have hC : Copies F x.dup s.mem x.values (fun _ _ => True)
      (fun us vs s' => ∀ u ∈ us, u ∈ vs ∨ block s'.mem u = none) := by
    refine ⟨fun _ _ _ => trivial, fun {us v s'} hv _ hext => ?_⟩
    obtain ⟨bs, hbs⟩ := hlive v (List.mem_of_getElem? hv)
    have hcall := hD v { s' with trace := .call x.dup v :: s'.trace } ⟨bs, hext.holds hbs⟩
    rw [callDup, wp_bind, wp_record]
    refine hcall.mono fun r s'' hpost => ?_
    rcases hpost with ⟨rfl, hm⟩ | ⟨bs, hfresh, hfits, hm⟩
    · exact Or.inl ⟨rfl, hm, fun u hu => Or.inl hu⟩
    · exact Or.inr ⟨bs, hfresh, hfits, hm, trivial⟩
  have hU : Unmakes F x.free (fun us vs s' => ∀ u ∈ us, u ∈ vs ∨ block s'.mem u = none) := by
    refine ⟨fun hR hs _ u hu => ?_, fun {us v vs s'} hR hlive => ?_⟩
    · rw [hs u hu]
      exact hR u hu
    · refine freesOwned_zfree (fun _ => hF) hlive fun s'' hother hgone u hu => ?_
      rw [owns_of_ne hfree] at hother hgone
      by_cases huv : u ∈ [v]
      · exact Or.inr (hgone u huv)
      · rw [hother u huv]
        exact (hR u hu).imp_left fun hmem => (List.mem_cons.mp hmem).resolve_left (by simpa using huv)
  refine (wp_listDup (fun _ _ _ => trivial) (fun _ => hC) (fun _ => hU) h.hangs fun _ _ => trivial).mono
    fun r s' hpost => ?_
  rcases hpost with ⟨ns, hcopied⟩ | ⟨rfl, us, hundone⟩
  · refine Or.inr ⟨ns, hcopied.length, ?_, fun o ho => ?_⟩
    · rw [Shape.owned_singleton, objShape_list, DList.foot_eq]
      have hupdate := hcopied.update
      rw [owns_of_ne hdup] at hupdate
      rw [owns_of_ne hfree]
      exact hupdate
    · rw [Multiset.mem_singleton.mp ho]
      have hmade := hcopied.made
      rw [owns_of_ne hdup] at hmade
      exact ⟨hcopied.hangs.header, hcopied.hangs.links, fun v hv => hmade v (mem_owns.mp hv).2⟩
  · refine Or.inl ⟨rfl, mem_ext fun q => ?_⟩
    by_cases hq : q ∈ us
    · rw [hundone.fresh q hq]
      exact (hundone.ghost q hq).resolve_left List.not_mem_nil
    · exact hundone.frame q hq

end Redis
