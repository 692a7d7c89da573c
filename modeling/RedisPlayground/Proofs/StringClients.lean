import RedisPlayground.Memory.Components
import RedisPlayground.Proofs.StringRuns
import RedisPlayground.Proofs.ListBooks
import RedisPlayground.Proofs.StringCuts

/-! The strings of a client as a component: the calls of `sds.cc` and `sdsfree`.
Each call owns the string it works on and no other block. -/

namespace Redis

open CMem

variable {L : Libc} {s s' : State Globals} {ls : Finset Addr} {A : Strings} {p r : Addr} {bs : List Byte}
  {op : SOp} {m m' : Mem}

section Books

theorem keeps_reader {α : Type} {x : M α} (hx : ReadOnly x) : Keeps x := settled_law.readOnly hx

variable (L)

theorem keeps_sdsnewlen (init : CharPtr) (n : Word) : Keeps (sdsnewlen L init n) := by
  have hfill : ∀ p, Keeps (sdsfill p init n) := by
    intro p
    cases init with
    | null => exact keeps_setBytes _ _ _
    | _ => exact (keeps_reader readOnly_readChars).bind fun _ => keeps_setBytes _ _ _
  exact (keeps_zmalloc L _).bind fun sh => (keeps_stop _).ite <| (keeps_setField _ _ _).bind fun _ =>
    (keeps_setField _ _ _).bind fun _ => ((keeps_pure _).ite (hfill _)).bind fun _ =>
    (keeps_setBytes _ _ _).bind fun _ => keeps_pure _

theorem keeps_sdsMakeRoomFor (p : Addr) (n : Word) : Keeps (sdsMakeRoomFor L p n) :=
  (keeps_getField _ _).bind fun _ => (keeps_pure _).ite <| (keeps_getField _ _).bind fun _ =>
    (keeps_zremalloc L _ _).bind fun _ => (keeps_stop _).ite <| (keeps_getField _ _).bind fun _ =>
    (keeps_setField _ _ _).bind fun _ => keeps_pure _

theorem keeps_sdscatlen (p : Addr) (t : CharPtr) (n : Word) : Keeps (sdscatlen L p t n) :=
  (keeps_reader readOnly_sdslenSize).bind fun _ => (keeps_sdsMakeRoomFor L _ _).bind fun _ =>
    (keeps_pure _).ite <| (keeps_reader readOnly_readChars).bind fun _ =>
    (keeps_setBytes _ _ _).bind fun _ => (keeps_setField _ _ _).bind fun _ => (keeps_getField _ _).bind fun _ =>
    (keeps_setField _ _ _).bind fun _ => (keeps_setBytes _ _ _).bind fun _ => keeps_pure _

theorem keeps_sdscpylen (p : Addr) (t : CharPtr) (n : Word) : Keeps (sdscpylen L p t n) := by
  have hroom : Keeps (sdscpyRoom L p n) :=
    (keeps_getField _ _).bind fun _ => (keeps_getField _ _).bind fun _ => Keeps.ite
      ((keeps_sdsMakeRoomFor L _ _).bind fun _ => (keeps_stop _).ite <| (keeps_getField _ _).bind fun _ =>
        (keeps_getField _ _).bind fun _ => keeps_pure _)
      (keeps_pure _)
  exact hroom.bind fun _ => (keeps_reader readOnly_readChars).bind fun _ =>
    (keeps_setBytes _ _ _).bind fun _ => (keeps_setBytes _ _ _).bind fun _ => (keeps_setField _ _ _).bind fun _ =>
    (keeps_setField _ _ _).bind fun _ => keeps_pure _

omit L in
theorem keeps_sdskeep (p : Addr) (start : ℕ) (n : Word) : Keeps (sdskeep p start n) :=
  (keeps_getBytes _ _ _).bind fun _ => (keeps_setBytes _ _ _).bind fun _ => (keeps_getField _ _).bind fun _ =>
    (keeps_getField _ _).bind fun _ => (keeps_setField _ _ _).bind fun _ => (keeps_setField _ _ _).bind fun _ =>
    keeps_setBytes _ _ _

omit L in
theorem keeps_sdsmap (f : Byte → Byte) (p : Addr) :
    Keeps (do let len ← sdslenSize p; sdsmapLoop f p len.toNat) := by
  have hloop : ∀ n, Keeps (sdsmapLoop f p n) := by
    intro n
    induction n with
    | zero => exact keeps_pure _
    | succ n ih =>
      exact ih.bind fun _ => (keeps_reader readOnly_getChar).bind fun _ => keeps_setBytes _ _ _
  exact (keeps_reader readOnly_sdslenSize).bind fun _ => hloop _

theorem keeps_sop (op : SOp) : Keeps (op.exec L) := by
  cases op with
  | sdsnewlen init n => exact keeps_sdsnewlen L init n
  | sdsnew init =>
    cases init with
    | null => exact keeps_sdsnewlen L _ _
    | _ => exact (keeps_reader readOnly_strlen).bind fun _ => keeps_sdsnewlen L _ _
  | sdsempty => exact keeps_sdsnewlen L _ _
  | sdsdup p => exact (keeps_reader readOnly_sdslenSize).bind fun _ => keeps_sdsnewlen L _ _
  | sdscat p t => exact (keeps_reader readOnly_strlen).bind fun _ => keeps_sdscatlen L p t _
  | sdscatlen p t n => exact keeps_sdscatlen L p t n
  | sdscpy p t => exact (keeps_reader readOnly_strlen).bind fun _ => keeps_sdscpylen L p t _
  | sdscpylen p t n => exact keeps_sdscpylen L p t n
  | sdsclear p =>
    exact Keeps.bind ((keeps_getField _ _).bind fun _ => (keeps_getField _ _).bind fun _ =>
      (keeps_setField _ _ _).bind fun _ => keeps_setField _ _ _) fun _ => keeps_pure _
  | sdstrim p cset =>
    exact (keeps_reader readOnly_sdslen).bind fun _ =>
      (keeps_reader readOnly_sdstrimFront).bind fun _ =>
      (keeps_reader readOnly_sdstrimBack).bind fun _ => (keeps_sdskeep _ _ _).bind fun _ => keeps_pure _
  | sdsrange p start last =>
    exact (keeps_reader readOnly_sdslenSize).bind fun _ =>
      (keeps_pure _).ite <| (keeps_sdskeep _ _ _).bind fun _ => keeps_pure _
  | sdstolower p => exact (keeps_sdsmap tolower p).bind fun _ => keeps_pure _
  | sdstoupper p => exact (keeps_sdsmap toupper p).bind fun _ => keeps_pure _

end Books

section Footprints

/-- The block of the string a call works on, and the strings it leaves alone. -/
def SOp.touches (op : SOp) : Multiset Addr := op.dest.elim 0 fun p => {base p}

def SOp.rest (ls : Finset Addr) (op : SOp) : Finset Addr := op.dest.elim ls fun p => ls.erase p

theorem SOp.live_eq : op.live ls r = insert r (op.rest ls) := by
  cases op <;> rfl

theorem sop_updates (h : Keeping (s, ls) A) (hlegal : op.Legal s ls bs) :
    wp Safe (op.exec L) (fun r s' => Updates s.mem s'.mem op.touches {base r}) s := by
  cases op with
  | sdsnewlen init n =>
    obtain ⟨hlen, hlt, hinit⟩ := hlegal
    rw [← hlen] at hinit
    exact wp_sdsnewlen rfl hlt hlen.symm (hinit.imp_right h.reads) fun r s' hu _ => hu
  | sdsnew init =>
    obtain ⟨hlt, ⟨rfl, rfl⟩ | hinit⟩ := hlegal
    · exact wp_sdsnewlen rfl hlt rfl (Or.inl ⟨rfl, rfl⟩) fun r s' hu _ => hu
    · have hexec : (SOp.sdsnew init).exec L = strlen init >>= fun n => sdsnewlen L init n := by
        cases init with
        | null => exact hinit.1.elim
        | _ => rfl
      rw [hexec, wp_bind]
      exact wp_strlen hinit.2 (wp_sdsnewlen rfl hlt (length_toNat (by omega))
        (Or.inr (h.reads_str hinit)) fun r s' hu _ => hu)
  | sdsempty =>
    have hnil : ([] : List Byte).length < 2 ^ 31 := by decide
    exact wp_sdsnewlen rfl hnil rfl (Or.inr ⟨by decide, rfl⟩) fun r s' hu _ => hu
  | sdsdup p =>
    obtain ⟨c, room, -, hp⟩ := h.find hlegal
    exact wp_sdsdup rfl hp fun r s' hu _ => hu
  | sdscat p t =>
    obtain ⟨hp, ht, hroom⟩ := hlegal
    obtain ⟨c, room, -, hp⟩ := h.find hp
    have hlt := hp.room_lt hroom
    rw [SOp.exec, sdscat, wp_bind]
    exact wp_strlen ht.2 (wp_sdscatlen rfl hp (length_toNat (by omega)) hlt (h.drop.reads_str ht)
      (avoids_of_from ht.1) fun r s' _ hu _ => hu)
  | sdscatlen p t n =>
    obtain ⟨hp, ht, hroom⟩ := hlegal
    obtain ⟨c, room, -, hp⟩ := h.find hp
    have hlt := hp.room_lt hroom
    have hreads := h.drop.reads ht
    have hlen := hreads.length
    rw [← hlen] at hlt hreads
    exact wp_sdscatlen rfl hp hlen.symm hlt hreads (avoids_of_from ht.1) fun r s' _ hu _ => hu
  | sdscpy p t =>
    obtain ⟨hp, ht, hlt⟩ := hlegal
    obtain ⟨c, room, -, hp⟩ := h.find hp
    rw [SOp.exec, sdscpy, wp_bind]
    exact wp_strlen ht.2 (wp_sdscpylen rfl hp (length_toNat (by omega)) hlt (h.drop.reads_str ht)
      (avoids_of_from ht.1) fun r s' _ hu _ => hu)
  | sdscpylen p t n =>
    obtain ⟨hp, ht, hlt⟩ := hlegal
    obtain ⟨c, room, -, hp⟩ := h.find hp
    have hreads := h.drop.reads ht
    have hlen := hreads.length
    rw [← hlen] at hlt hreads
    exact wp_sdscpylen rfl hp hlen.symm hlt hreads (avoids_of_from ht.1) fun r s' _ hu _ => hu
  | sdsclear p =>
    obtain ⟨c, room, -, hp⟩ := h.find hlegal
    rw [SOp.exec, wp_bind]
    exact wp_sdsclear hp fun s' hu _ => wp_pure.mpr hu
  | sdstrim p cset => exact hlegal.elim
  | sdsrange p start last => exact hlegal.elim
  | sdstolower p =>
    obtain ⟨c, room, -, hp⟩ := h.find hlegal
    rw [SOp.exec, wp_bind]
    exact wp_sdstolower hp fun s' hu _ => wp_pure.mpr hu
  | sdstoupper p =>
    obtain ⟨c, room, -, hp⟩ := h.find hlegal
    rw [SOp.exec, wp_bind]
    exact wp_sdstoupper hp fun s' hu _ => wp_pure.mpr hu

/-- The blocks of some strings. -/
def buffers (ls : Finset Addr) : Multiset Addr := ls.val.map base

theorem mem_buffers : base p ∈ buffers ls ↔ p ∈ ls := by
  simp [buffers, base_sds_inj]

theorem buffers_nodup : (buffers ls).Nodup := ls.nodup.map fun _ _ h => base_sds_inj.mp h

theorem buffers_insert (hr : r ∉ ls) : buffers (insert r ls) = {base r} + buffers ls := by
  rw [buffers, Finset.insert_val_of_notMem hr, Multiset.map_cons, Multiset.singleton_add, buffers]

theorem buffers_erase (hp : p ∈ ls) : buffers ls = {base p} + buffers (ls.erase p) := by
  rw [← buffers_insert (Finset.notMem_erase p ls), Finset.insert_erase hp]

theorem Keeping.live_buffers (h : Keeping (s, ls) A) : ∀ q ∈ buffers ls, block s.mem q ≠ none := by
  intro q hq
  obtain ⟨p, hp, rfl⟩ := Multiset.mem_map.mp hq
  obtain ⟨c, room, -, hstr⟩ := h.find hp
  exact hstr.str.live

theorem SOp.dest_mem (hlegal : op.Legal s ls bs) (hp : op.dest = some p) : p ∈ ls := by
  cases op <;> simp only [SOp.dest, Option.some.injEq, reduceCtorEq] at hp <;> subst hp
  all_goals first
    | exact hlegal.1
    | exact hlegal
    | exact hlegal.elim

theorem SOp.buffers_eq (hlegal : op.Legal s ls bs) : buffers ls = op.touches + buffers (op.rest ls) := by
  cases hdest : op.dest with
  | none => rw [touches, rest, hdest, Option.elim_none, Option.elim_none, zero_add]
  | some p =>
    rw [touches, rest, hdest, Option.elim_some, Option.elim_some]
    exact buffers_erase (dest_mem hlegal hdest)

end Footprints

/-- A call on a string, with the bytes behind its source argument, a cut, or the release of one. -/
inductive TOp where
  | call (op : SOp) (given : List Byte)
  | sdstrim (p : Addr) (cset : CharPtr) (given : List Byte)
  | sdsrange (p : Addr) (start last : Word)
  | sdsfree (p : Addr)

def strings (L : Libc) : Component Globals (Finset Addr) TOp Addr where
  exec
    | .call op _ => op.exec L
    | .sdstrim p cset _ => Redis.sdstrim p cset
    | .sdsrange p start last => Redis.sdsrange p start last
    | .sdsfree p => do
      Redis.sdsfree p
      return NULL
  Legal s ls
    | .call op bs => op.Legal s ls bs
    | .sdstrim p cset cs => p ∈ ls ∧ Terminated s p ∧ cstring cset s = .ok (cs, s)
    | .sdsrange p start last => p ∈ ls ∧ ∀ len, sdslenSize p s = .ok (len, s) →
        InRange len.toNat (fromEnd start.toInt len.toNat) (fromEnd last.toInt len.toNat)
    | .sdsfree p => p ∈ ls
  handles ls
    | .call op _, r => op.live ls r
    | .sdstrim _ _ _, _ | .sdsrange _ _ _, _ => ls
    | .sdsfree p, _ => ls.erase p

/-- The same calls on byte strings. -/
inductive TextStep : Strings → TOp × Addr → Strings → Prop where
  | call {A A' op bs r} : StrStep A ⟨op, bs, r⟩ A' → TextStep A (.call op bs, r) A'
  | trim {A p cset cs c} : A p = some c →
      TextStep A (.sdstrim p cset cs, p) (A.move p p (strip (matched cs) c))
  | range {A p i j c} : A p = some c → TextStep A (.sdsrange p i j, p)
      (A.move p p (part c (fromEnd i.toInt c.length) (fromEnd j.toInt c.length)))
  | free {A p r c} : A p = some c → TextStep A (.sdsfree p, r) (Function.update A p none)

/-- The strings of a client as one object. -/
def stringsShape : Shape Mem Addr (List Byte) (Finset Addr × Strings) where
  view := block
  foot o := buffers o.1
  Ok m o := (∀ p, p ∈ o.1 ↔ o.2 p ≠ none) ∧ ∀ p c, o.2 p = some c → ∃ room, IsStr m p c room
  live {m o p} hok hp := by
    obtain ⟨q, hq, rfl⟩ := Multiset.mem_map.mp hp
    obtain ⟨c, hc⟩ := Option.ne_none_iff_exists'.mp ((hok.1 q).mp hq)
    obtain ⟨room, hstr⟩ := hok.2 q c hc
    exact hstr.str.live
  congr {m m' o} hm hok := by
    refine ⟨hok.1, fun p c hc => ?_⟩
    obtain ⟨room, hstr⟩ := hok.2 p c hc
    exact ⟨room, hstr.congr (hm _ (mem_buffers.mpr ((hok.1 p).mpr (hc ▸ Option.some_ne_none c))))⟩

theorem keeps_strings (L : Libc) (op : TOp) : Keeps ((strings L).exec op) := by
  cases op with
  | call op bs => exact keeps_sop L op
  | sdstrim p cset cs => exact keeps_sop L (.sdstrim p cset)
  | sdsrange p start last => exact keeps_sop L (.sdsrange p start last)
  | sdsfree p => exact ((keeps_pure _).ite (keeps_zfree _)).bind fun _ => keeps_pure _

/-- A string that is cut in its place. -/
theorem Keeping.cut {c room : List Byte} (h : Keeping (s, ls) A) (hp : p ∈ ls)
    (hu : Updates s.mem s'.mem {base p} {base p}) (hstr : IsStr s'.mem p c room) :
    stringsShape.Ok s'.mem (ls, A.move p p c) ∧ Updates s.mem s'.mem (buffers ls) (buffers ls) := by
  have hK := (h.move hu hstr).2
  rw [Finset.insert_erase hp] at hK
  refine ⟨⟨hK.live, hK.str⟩, ?_⟩
  have hsplit := buffers_erase hp
  have hnodup : ({base p} + buffers (ls.erase p)).Nodup := hsplit ▸ buffers_nodup
  have hadd := hu.add hnodup fun q hq => h.live_buffers q (hsplit ▸ Multiset.mem_add.mpr (Or.inr hq))
  rwa [← hsplit] at hadd

theorem strings_component (L : Libc) : Refines Safe (strings L) stringsShape
    (fun ls A o => o = (ls, A)) TextStep where
  step := by
    rintro s ls A _ op rfl hok - hlegal
    have hK : Keeping (s, ls) A := ⟨hok.1, hok.2⟩
    cases op with
    | call op bs =>
      have hlegal : op.Legal s ls bs := hlegal
      refine ((sop_step hK hlegal).and_any ((sop_updates hK hlegal).weaken fun _ _ => trivial)).mono ?_
      rintro r s' ⟨⟨A', hA, hK'⟩, hu⟩
      have hsplit := SOp.buffers_eq hlegal
      have hnodup : (op.touches + buffers (op.rest ls)).Nodup := hsplit ▸ buffers_nodup
      have hlive : ∀ q ∈ buffers (op.rest ls), block s.mem q ≠ none := fun q hq =>
        hK.live_buffers q (hsplit ▸ Multiset.mem_add.mpr (Or.inr hq))
      have hr : r ∉ op.rest ls := fun hmem =>
        (hu.notMem hnodup hlive _ (mem_buffers.mpr hmem)).2 (Multiset.mem_singleton_self _)
      refine ⟨A', _, .call hA, rfl, ⟨hK'.live, hK'.str⟩, ?_⟩
      change Updates s.mem s'.mem (buffers ls) (buffers (op.live ls r))
      rw [hsplit, SOp.live_eq, buffers_insert hr]
      exact hu.add hnodup hlive
    | sdstrim p cset cs =>
      obtain ⟨hp, hnul, hcs⟩ := hlegal
      obtain ⟨c, room, hA, hstr⟩ := hK.find hp
      refine wp_sdstrim_str hstr hnul hcs fun s' room' hu hstr' => ?_
      exact ⟨_, _, .trim hA, rfl, hK.cut hp hu hstr'⟩
    | sdsrange p start last =>
      obtain ⟨hp, hin⟩ := hlegal
      obtain ⟨c, room, hA, hstr⟩ := hK.find hp
      have hin := hin _ (wp.eq_ok ((wp_sdslenSize hstr.str hstr.len_lt).mpr ⟨rfl, rfl⟩))
      rw [length_toNat (hstr.len_lt.trans (by decide))] at hin
      refine wp_sdsrange_str hstr hin fun s' room' hu hstr' => ?_
      exact ⟨_, _, .range hA, rfl, hK.cut hp hu hstr'⟩
    | sdsfree p =>
      have hp : p ∈ ls := hlegal
      obtain ⟨c, room, hA, hstr⟩ := hK.find hp
      change wp Safe (do sdsfree p; return NULL) _ s
      rw [sdsfree, wp_bind, if_neg hstr.ne_null]
      refine (wp_zfree hstr.str).mpr (wp_pure.mpr ⟨_, _, .free hA, rfl, ?_, ?_⟩)
      · have hother : ∀ q c, Function.update A p none q = some c → ∃ room, IsStr (del s.mem (base p)) q c room := by
          intro q c hq
          have hqp : q ≠ p := by
            rintro rfl
            rw [Function.update_self] at hq
            contradiction
          rw [Function.update_of_ne hqp] at hq
          obtain ⟨room, hq⟩ := hK.str q c hq
          exact ⟨room, hq.congr (block_del_ne fun heq => hqp (base_sds_inj.mp heq))⟩
        exact ⟨(hK.drop (p := p)).live, hother⟩
      · change Updates s.mem (del s.mem (base p)) (buffers ls) (buffers (ls.erase p))
        have hcons : buffers ls = base p ::ₘ buffers (ls.erase p) := by
          rw [buffers_erase hp, Multiset.singleton_add]
        rw [hcons]
        exact updates_del (hcons ▸ buffers_nodup)

end Redis
