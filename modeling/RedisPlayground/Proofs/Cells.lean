import RedisPlayground.Memory.Objects
import RedisPlayground.Proofs.Blocks

/-! Symbolic execution on blocks of words. `Cells m₀ m cs` says that `m` holds
the blocks `cs` and elsewhere what `m₀` does. A rule names the block it works on
by its position in `cs`, so that its side conditions hold by computation. -/

namespace Redis

open CMem

/-- An update of the heap, by the pointers `zmalloc` gave out. -/
abbrev Updates (m m' : Mem) (S S' : Multiset Addr) : Prop := Update (block m) (block m') S S'

structure Cells (m₀ m : Mem) (cs : List (Addr × List Word)) : Prop where
  nodup : (cs.map Prod.fst).Nodup
  holds : ∀ c ∈ cs, Holds m c.1 (words c.2)
  frame : ∀ q ∉ cs.map Prod.fst, block m q = block m₀ q

variable {m₀ m m' : Mem} {cs : List (Addr × List Word)} {p q : Addr} {bs : List Byte}
  {ws : List Word} {S S' : Multiset Addr}

theorem Cells.nil : Cells m m [] := ⟨List.nodup_nil, by simp, fun _ _ => rfl⟩

theorem Cells.one (h : Holds m p (words ws)) : Cells m m [(p, ws)] :=
  ⟨List.nodup_singleton p, by simpa using h, fun _ _ => rfl⟩

theorem Cells.get_holds (h : Cells m₀ m cs) (k : ℕ) (hk : cs[k]? = some (p, ws)) :
    Holds m p (words ws) := h.holds _ (List.mem_of_getElem? hk)

/-- A block the execution does not work on. -/
theorem Cells.other (h : Cells m₀ m cs) (hq : q ∉ cs.map Prod.fst) (hb : Holds m₀ q bs) :
    Holds m q bs := hb.congr (h.frame q hq)

/-- Another block is taken into the execution. -/
theorem Cells.add (h : Cells m₀ m cs) (hp : p ∉ cs.map Prod.fst) (hb : Holds m₀ p (words ws)) :
    Cells m₀ m ((p, ws) :: cs) := by
  refine ⟨List.nodup_cons.mpr ⟨hp, h.nodup⟩, fun c hc => ?_, fun q hq => ?_⟩
  · rcases List.mem_cons.mp hc with rfl | hc
    · exact h.other hp hb
    · exact h.holds c hc
  · exact h.frame q fun hmem => hq (List.mem_cons_of_mem _ hmem)

theorem map_fst_set {k : ℕ} {c : Addr × List Word} (hk : cs[k]? = some (p, ws)) (hc : c.1 = p) :
    (cs.set k c).map Prod.fst = cs.map Prod.fst := by
  refine List.ext_getElem? fun i => ?_
  rw [List.getElem?_map, List.getElem?_map, List.getElem?_set]
  by_cases hi : k = i
  · subst hi
    obtain ⟨hlt, -⟩ := List.getElem?_eq_some_iff.mp hk
    rw [if_pos rfl, if_pos hlt, hk]
    exact congrArg some hc
  · rw [if_neg hi]

theorem Cells.put {k : ℕ} {vs : List Word} (h : Cells m₀ m cs) (hk : cs[k]? = some (p, ws))
    (hlen : vs.length = ws.length) : Cells m₀ (put m p (words vs)) (cs.set k (p, vs)) := by
  obtain ⟨hlt, hget⟩ := List.getElem?_eq_some_iff.mp hk
  have hp : p ∈ cs.map Prod.fst := List.mem_map.mpr ⟨_, List.mem_of_getElem? hk, rfl⟩
  have hfst := map_fst_set hk (c := (p, vs)) rfl
  refine ⟨by rw [hfst]; exact h.nodup, fun c hc => ?_, fun q hq => ?_⟩
  · obtain ⟨i, hi⟩ := List.mem_iff_getElem?.mp hc
    rw [List.getElem?_set] at hi
    by_cases hki : k = i
    · rw [if_pos hki, if_pos hlt, Option.some.injEq] at hi
      rw [← hi]
      exact (h.get_holds k hk).put_words hlen
    · rw [if_neg hki] at hi
      refine (h.holds c (List.mem_of_getElem? hi)).put_ne fun heq => hki ?_
      refine (List.getElem?_inj (by rw [List.length_map]; exact hlt) h.nodup).mp ?_
      rw [List.getElem?_map, List.getElem?_map, hk, hi, Option.map_some, Option.map_some, heq]
  · rw [hfst] at hq
    rw [block_put_ne (ne_of_mem_of_not_mem hp hq).symm]
    exact h.frame q hq

/-- A block that is new. -/
theorem Cells.put_new (h : Cells m₀ m cs) (hp : Fresh m p) (hn : 8 * ws.length + 8 < 2 ^ 64) :
    p ∉ cs.map Prod.fst ∧ Cells m₀ (Redis.put m p (words ws)) ((p, ws) :: cs) := by
  have hnot : p ∉ cs.map Prod.fst := by
    rintro hmem
    obtain ⟨c, hc, rfl⟩ := List.mem_map.mp hmem
    exact hp.ne (h.holds c hc) rfl
  refine ⟨hnot, List.nodup_cons.mpr ⟨hnot, h.nodup⟩, fun c hc => ?_, fun q hq => ?_⟩
  · rcases List.mem_cons.mp hc with rfl | hc
    · exact hp.put (by rwa [words_length])
    · exact (h.holds c hc).put_ne (hp.ne (h.holds c hc))
  · rw [List.map_cons, List.mem_cons, not_or] at hq
    rw [block_put_ne hq.1]
    exact h.frame q hq.2

/-- A block is given up: it is gone from the memory and from what it is compared with. -/
theorem Cells.del (h : Cells m₀ m ((p, ws) :: cs)) : Cells (del m₀ p) (del m p) cs := by
  have hn := List.nodup_cons.mp h.nodup
  refine ⟨hn.2, fun c hc => ?_, fun q hq => ?_⟩
  · refine (h.holds c (List.mem_cons_of_mem _ hc)).del_ne fun heq => hn.1 ?_
    exact List.mem_map.mpr ⟨c, hc, heq⟩
  · by_cases hqp : q = p
    · rw [hqp, block_del_self, block_del_self]
    · rw [block_del_ne hqp, block_del_ne hqp]
      exact h.frame q (by simpa [hqp] using hq)

theorem Cells.updates (h : Cells m₀ m cs) (hS : S'.Nodup) (hsub : ∀ q ∈ S, q ∈ S')
    (hcs : ∀ q ∈ cs.map Prod.fst, q ∈ S') (hnew : ∀ q ∈ S', q ∉ S → block m₀ q = none) :
    Updates m₀ m S S' where
  nodup := hS
  fresh := hnew
  freed q hq hn := absurd (hsub q hq) hn
  frame q _ hn := h.frame q fun hmem => hn (hcs q hmem)

theorem updates_del (hn : (p ::ₘ S).Nodup) : Updates m (Redis.del m p) (p ::ₘ S) S where
  nodup := (Multiset.nodup_cons.mp hn).2
  fresh q hq hnot := absurd (Multiset.mem_cons_of_mem hq) hnot
  freed q hq hnot := by
    rcases Multiset.mem_cons.mp hq with rfl | hq
    · exact block_del_self
    · exact absurd hq hnot
  frame q hnot _ := block_del_ne fun heq => hnot (heq ▸ Multiset.mem_cons_self _ _)

theorem updates_put (h : block m p = none) : Updates m (Redis.put m p bs) 0 {p} where
  nodup := Multiset.nodup_singleton p
  fresh q hq _ := by rw [Multiset.mem_singleton.mp hq, h]
  freed q hq := absurd hq (Multiset.notMem_zero q)
  frame q _ hq := block_put_ne fun heq => hq (Multiset.mem_singleton.mpr heq)

theorem updates_put_self : Updates m (Redis.put m p bs) {p} {p} where
  nodup := Multiset.nodup_singleton p
  fresh _ hq hn := absurd hq hn
  freed _ hq hn := absurd hq hn
  frame _ hq _ := block_put_ne fun heq => hq (Multiset.mem_singleton.mpr heq)

section Rules

variable {E : Stop → Prop} {s : State Globals} {i : ℕ} {w : Word} {L : Libc}

theorem Cells.get {Q : Word → State Globals → Prop} (h : Cells m₀ s.mem cs) (k : ℕ)
    (hk : cs[k]? = some (p, ws)) (hw : ws[i]? = some w) (hQ : Q w s) : wp E (getField p i) Q s :=
  (wp_getField (h.get_holds k hk) hw).mpr hQ

theorem Cells.set {Q : Unit → State Globals → Prop} {v : Word} (h : Cells m₀ s.mem cs) (k : ℕ)
    (hk : cs[k]? = some (p, ws)) (hw : ws[i]? = some v)
    (hQ : ∀ m, Cells m₀ m (cs.set k (p, ws.set i w)) → Q () { s with mem := m }) :
    wp E (setField p i w) Q s := by
  obtain ⟨hi, -⟩ := List.getElem?_eq_some_iff.mp hw
  exact (wp_setField (h.get_holds k hk) hi).mpr (hQ _ (h.put hk List.length_set))

theorem Cells.getInt {Q : BitVec 32 → State Globals → Prop} (h : Cells m₀ s.mem cs) (k : ℕ)
    (hk : cs[k]? = some (p, ws)) (hw : ws[i]? = some w) (hQ : Q (w.setWidth 32) s) :
    wp E (getInt p i) Q s :=
  (wp_getInt (h.get_holds k hk) hw).mpr hQ

theorem Cells.setInt {Q : Unit → State Globals → Prop} {v : Word} {n : BitVec 32}
    (h : Cells m₀ s.mem cs) (k : ℕ) (hk : cs[k]? = some (p, ws)) (hw : ws[i]? = some v)
    (hQ : ∀ m w, w.setWidth 32 = n → Cells m₀ m (cs.set k (p, ws.set i w)) →
      Q () { s with mem := m }) :
    wp E (setInt p i n) Q s := by
  obtain ⟨hi, -⟩ := List.getElem?_eq_some_iff.mp hw
  exact wp_setInt (h.get_holds k hk) hi fun w hw => hQ _ w hw (h.put hk List.length_set)

/-- A new block of words joins at the front. -/
theorem Cells.zmalloc {Q : Addr → State Globals → Prop} {size : Word} {n : ℕ} (hE : E .abort)
    (h : Cells m₀ s.mem cs) (hsize : size.toNat = 8 * n) (hn : n < 2 ^ 60)
    (hQ : ∀ p ws m g t, ws.length = n → block s.mem p = none → p ∉ cs.map Prod.fst →
      Cells m₀ m ((p, ws) :: cs) → Q p ⟨m, g, t⟩) :
    wp E (zmalloc L size) Q s := by
  refine wp_zmalloc hE (by omega) fun p raw _ hlen hfresh => ?_
  obtain ⟨ws, hws, hraw⟩ := exists_words (k := n)
    (show (raw.drop 8).length = 8 * n by rw [List.length_drop]; omega)
  obtain ⟨hp, hc⟩ := h.put_new hfresh (show 8 * ws.length + 8 < _ by omega)
  rw [hraw]
  exact hQ p ws _ _ _ hws hfresh.block hp hc

theorem Cells.zfree {Q : Unit → State Globals → Prop} (h : Cells m₀ s.mem ((p, ws) :: cs))
    (hQ : ∀ m g t, Cells (Redis.del m₀ p) m cs → Q () ⟨m, g, t⟩) : wp E (zfree p) Q s :=
  (wp_zfree (h.get_holds 0 rfl)).mpr (hQ _ _ _ h.del)

end Rules

end Redis
