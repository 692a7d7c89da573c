import RedisPlayground.Memory.Tokens
import RedisPlayground.Proofs.DupFailures

/-! Values that are freed twice. `listDup` gives the copy the free method of the original, and without
a dup method the values too. Otherwise each list has values of its own, and a pointer that was passed
to a free method is not passed to one again before it is given out for another value. -/

namespace Redis

open CMem

/-- Where the block behind a value starts. -/
abbrev blockOf (v : Addr) : Addr := v - PREFIX_SIZE

/-- From `s` to `s'` the pointer `v` was given out, and no function pointer was called. -/
def HandsOut (v : Addr) (s s' : State Globals) : Prop :=
  ∃ es, s'.trace = es ++ s.trace ∧ calls es = [] ∧ ∃ e ∈ es, e.gives (blockOf v)

/-- What the dup method `f` does: it returns NULL, or a fresh value, a block that it got from the
allocator and that is all it leaves on the heap. -/
def DupsFresh (F : Methods) (f : Addr) : Prop :=
  ∀ v (s : State Globals), (∃ bs, Holds s.mem v bs) → wp Safe (F.dup f v) (fun r s' => Silent s s' ∧
    (r = NULL ∧ s'.mem = s.mem ∨
      ∃ bs, Fresh s.mem r ∧ bs.length + 8 < 2 ^ 64 ∧ s'.mem = put s.mem r bs ∧ HandsOut r s s')) s

/-- Since the calls `t₀` no value was freed twice, and each of the values `K` can still be freed. -/
structure Unfreed (frees : Addr → Prop) (t₀ : List Event) (K : Multiset Addr) (s : State Globals) : Prop where
  nodup : K.Nodup
  log : ∃ es, s.trace = es ++ t₀ ∧ SpentOnce frees blockOf es ∧ ∀ v ∈ K, Unspent frees blockOf v es

variable {L : Libc} {F : Methods} {dups frees : Addr → Prop} {t₀ : List Event} {K K' : Multiset Addr}
  {s s' s'' s₀ : State Globals} {x y : DList} {f v r : Addr} {us vs : List Addr} {m m' m₀ : Mem}

theorem HandsOut.silent (h : HandsOut v s s') (h' : Silent s' s'') : HandsOut v s s'' := by
  obtain ⟨es, htrace, hes, e, he, hgives⟩ := h
  obtain ⟨es', htrace', hes'⟩ := h'
  refine ⟨es' ++ es, by rw [htrace', htrace, List.append_assoc], ?_, e, List.mem_append_right _ he, hgives⟩
  rw [calls_append, hes, hes']
  rfl

theorem HandsOut.after (h : HandsOut v s' s'') (h' : Silent s s') : HandsOut v s s'' := by
  obtain ⟨es, htrace, hes, e, he, hgives⟩ := h
  obtain ⟨es', htrace', hes'⟩ := h'
  refine ⟨es ++ es', by rw [htrace, htrace', List.append_assoc], ?_, e, List.mem_append_left _ he, hgives⟩
  rw [calls_append, hes, hes']
  rfl

/-- `zmalloc` gives out what it returns. -/
theorem zmalloc_handsOut (L : Libc) (size : Word) (s : State Globals) :
    wp Any (zmalloc L size) (fun p s' => HandsOut p s s') s := by
  rw [zmalloc, wp_bind]
  refine wp_malloc (fun _ => ?_) fun b raw hb => ?_
  · rw [if_pos rfl]
    trivial
  · obtain ⟨-, -, hnull, -⟩ := L.malloc_spec hb
    rw [if_neg hnull, wp_bind]
    apply wp_writeAt_of trivial
    intro bs _ _ _
    rw [wp_bind, increment_used_memory, wp_modify, wp_pure]
    refine ⟨[_], rfl, rfl, _, List.mem_cons_self, ?_, ?_⟩
    · simp only [blockOf, add_sub_cancel_right]
    · simpa only [blockOf, add_sub_cancel_right] using hnull

namespace Unfreed

theorem init (t₀ : List Event) (hs : s.trace = t₀) : Unfreed frees t₀ 0 s :=
  ⟨Multiset.nodup_zero, [], hs, spentOnce_nil, by simp⟩

theorem mono (h : Unfreed frees t₀ K s) (hle : K' ≤ K) : Unfreed frees t₀ K' s := by
  obtain ⟨es, htrace, honce, hK⟩ := h.log
  exact ⟨Multiset.nodup_of_le hle h.nodup, es, htrace, honce, fun v hv => hK v (Multiset.mem_of_le hle hv)⟩

theorem silent (h : Unfreed frees t₀ K s) (hs : Silent s s') : Unfreed frees t₀ K s' := by
  obtain ⟨es, htrace, honce, hK⟩ := h.log
  obtain ⟨es', htrace', hes'⟩ := hs
  refine ⟨h.nodup, es' ++ es, by rw [htrace', htrace, List.append_assoc], honce.silent hes', fun v hv => ?_⟩
  exact (hK v hv).silent hes'

/-- A new value. -/
theorem give (h : Unfreed frees t₀ K s) (hs : HandsOut r s s') (hr : r ∉ K) : Unfreed frees t₀ (r ::ₘ K) s' := by
  obtain ⟨es, htrace, honce, hK⟩ := h.log
  obtain ⟨es', htrace', hes', e, he, hgives⟩ := hs
  refine ⟨Multiset.nodup_cons.mpr ⟨hr, h.nodup⟩, es' ++ es, by rw [htrace', htrace, List.append_assoc],
    honce.silent hes', fun v hv => ?_⟩
  rcases Multiset.mem_cons.mp hv with rfl | hv
  · exact Unspent.given hes' he hgives
  · exact (hK v hv).silent hes'

theorem call (h : Unfreed frees t₀ K s) (hf : ¬ frees f) :
    Unfreed frees t₀ K { s with trace := .call f v :: s.trace } := by
  obtain ⟨es, htrace, honce, hK⟩ := h.log
  refine ⟨h.nodup, .call f v :: es, by rw [htrace]; rfl, honce.call fun hf' => absurd hf' hf, fun u hu => ?_⟩
  exact (hK u hu).call fun hf' => absurd hf' hf

/-- A value is passed to a free method. -/
theorem spend (h : Unfreed frees t₀ (v ::ₘ K) s) : Unfreed frees t₀ K { s with trace := .call f v :: s.trace } := by
  obtain ⟨hv, hn⟩ := Multiset.nodup_cons.mp h.nodup
  obtain ⟨es, htrace, honce, hK⟩ := h.log
  refine ⟨hn, .call f v :: es, by rw [htrace]; rfl, honce.call fun _ => hK v (Multiset.mem_cons_self v K),
    fun u hu => ?_⟩
  exact (hK u (Multiset.mem_cons_of_mem hu)).call fun _ => ne_of_mem_of_not_mem hu hv

/-- A list gives up one of the values it owns. -/
theorem freed (h : Unfreed frees t₀ (K + ↑(owns f [v])) s) (hF : f ≠ NULL → FreesOne F f)
    (hlive : ∀ u ∈ owns f [v], ∃ bs, Holds s.mem u bs) :
    FreesOwned Safe F f v (Unfreed frees t₀ K) s := by
  unfold FreesOwned Redis.freed
  by_cases hnull : f = NULL
  · rw [if_pos hnull]
    exact wp_pure.mpr ⟨fun _ _ => rfl, h.mono (Multiset.le_add_right _ _)⟩
  · have hown : owns f [v] = [v] := owns_of_ne hnull
    rw [hown] at h hlive ⊢
    rw [if_neg hnull, callFree, wp_bind, wp_record]
    have hcall := hF hnull v { s with trace := .call f v :: s.trace } (hlive v (List.mem_singleton_self v))
    refine hcall.mono fun _ s' hpost => ⟨fun q hq => hpost.2 q (by simpa using hq), ?_⟩
    rw [Multiset.coe_singleton, add_comm, Multiset.singleton_add] at h
    exact h.spend.silent hpost.1

end Unfreed

/-- What is known while a dup method makes the values `us`, beside the values `K`. -/
structure Making (frees : Addr → Prop) (t₀ : List Event) (K : Multiset Addr) (us : List Addr)
    (s : State Globals) : Prop where
  unfreed : Unfreed frees t₀ (K + ↑us) s
  live : ∀ u ∈ us, ∃ bs, Holds s.mem u bs

theorem Making.keep (h : Making frees t₀ K us s) (hs : Spares us s.mem s'.mem) (hsilent : Silent s s') :
    Making frees t₀ K us s' := by
  refine ⟨h.unfreed.silent hsilent, fun u hu => ?_⟩
  obtain ⟨bs, hbs⟩ := h.live u hu
  exact ⟨bs, hbs.congr (hs u hu)⟩

/-- The values that are made are new. -/
theorem DupsFresh.copies (hD : DupsFresh F f) (hf : ¬ frees f) (hvs : ∀ v ∈ vs, ∃ bs, Holds m₀ v bs)
    (hK : ∀ v ∈ K, block m₀ v ≠ none) :
    Copies F f m₀ vs (Making frees t₀ K) (fun _ us s => Unfreed frees t₀ (K + ↑us) s) where
  keep := Making.keep
  dup := by
    intro us v s hv hJ hext
    obtain ⟨bs, hbs⟩ := hvs v (List.mem_of_getElem? hv)
    have hdup := hD v { s with trace := .call f v :: s.trace } ⟨bs, hext.holds hbs⟩
    have hcalled : Unfreed frees t₀ (K + ↑us) { s with trace := .call f v :: s.trace } := hJ.unfreed.call hf
    rw [callDup, wp_bind, wp_record]
    refine hdup.mono fun r s' hpost => ?_
    obtain ⟨hsilent, ⟨rfl, hm⟩ | ⟨cs, hfresh, hfits, hm, hgives⟩⟩ := hpost
    · exact Or.inl ⟨rfl, hm, hcalled.silent hsilent⟩
    · have hnew : r ∉ K + ↑us := by
        rw [Multiset.mem_add, not_or]
        constructor
        · intro hmem
          apply hK r hmem
          rw [← hext r (hK r hmem)]
          exact hfresh.block
        · intro hmem
          obtain ⟨ds, hds⟩ := hJ.live r hmem
          exact hds.live hfresh.block
      have hsum : K + ↑(us ++ [r]) = r ::ₘ (K + ↑us) := by
        rw [← Multiset.coe_add, Multiset.coe_singleton, ← Multiset.singleton_add]
        abel
      refine Or.inr ⟨cs, hfresh, hfits, hm, ?_, fun u hu => ?_⟩
      · rw [hsum]
        exact hcalled.give hgives hnew
      · rw [hm]
        rcases List.mem_append.mp hu with hu | hu
        · obtain ⟨ds, hds⟩ := hJ.live u hu
          exact ⟨ds, hds.put_ne (hfresh.ne hds)⟩
        · rw [List.mem_singleton.mp hu]
          exact ⟨cs, hfresh.put hfits⟩

/-- The values of a copy that is not finished are given up one by one. -/
theorem unmakes_of_freesOne (hF : f ≠ NULL → FreesOne F f) :
    Unmakes F f (fun _ us s => Unfreed frees t₀ (K + ↑us) s) where
  keep := fun hR _ hsilent => hR.silent hsilent
  free := by
    intro us v vs s hR hlive
    refine Unfreed.freed (hR.mono ?_) hF hlive
    rw [add_assoc, ← Multiset.cons_coe, ← Multiset.singleton_add, add_comm ({v} : Multiset Addr)]
    exact Multiset.add_le_add_left (Multiset.add_le_add_left owns_le)

/-- What a client does. It gets a value before it adds it to a list. -/
inductive VOp where
  | listCreate (dup free match' : Addr)
  | newValue (size : Word) (bytes : List Byte)
  | listAddNodeHead (l value : Addr)
  | listAddNodeTail (l value : Addr)
  | listDelNode (l node : Addr)
  | listDup (l : Addr)
  | listRelease (l : Addr)
  | safe_listRelease (l : Addr)

def VOp.exec (L : Libc) (F : Methods) : VOp → M Addr
  | .listCreate dup free match' => newList L dup free match'
  | .newValue size bytes => Redis.newValue L size bytes
  | .listAddNodeHead l value => Redis.listAddNodeHead L l value
  | .listAddNodeTail l value => Redis.listAddNodeTail L l value
  | .listDelNode l node => do
    Redis.listDelNode F l node
    return l
  | .listDup l => Redis.listDup L F l
  | .listRelease l => do
    Redis.listRelease F l
    return NULL
  | .safe_listRelease l => Redis.safe_listRelease F l

/-- The lists a client has, and the values that it has not added to one. -/
structure Hand where
  lists : Multiset Addr
  values : Multiset Addr

/-- A list has each method or NULL in its place. A list with a free method gets values that the
client has; each is added once. A dup method is called on values that are there. -/
def VOp.Legal (dups frees : Addr → Prop) (s : State Globals) (h : Hand) : VOp → Prop
  | .listCreate dup free _ => (dup = NULL ∨ dups dup) ∧ (free = NULL ∨ frees free)
  | .newValue size bytes => size.toNat + 8 < 2 ^ 64 ∧ bytes.length ≤ size.toNat
  | .listAddNodeHead l value | .listAddNodeTail l value =>
    l ∈ h.lists ∧ (value ∈ h.values ∨ getField l list.free s = .ok (NULL, s))
  | .listDelNode l node => l ∈ h.lists ∧ Member s l node
  | .listDup l => l ∈ h.lists ∧ (getField l list.dup s = .ok (NULL, s) ∨
      ∀ n v, Member s l n → listNodeValue n s = .ok (v, s) → ∃ bs, Holds s.mem v bs)
  | .listRelease l | .safe_listRelease l => l ∈ h.lists

/-- What the client has after an operation that left `r` with it. -/
def VOp.hand (h : Hand) (r : Addr) : VOp → Hand
  | .listCreate _ _ _ => { h with lists := r ::ₘ h.lists }
  | .newValue _ _ => { h with values := r ::ₘ h.values }
  | .listAddNodeHead _ value | .listAddNodeTail _ value => { h with values := h.values.erase value }
  | .listDelNode _ _ => h
  | .listDup _ => if r = NULL then h else { h with lists := r ::ₘ h.lists }
  | .listRelease l | .safe_listRelease l => { h with lists := h.lists.erase l }

def vstep (L : Libc) (F : Methods) (dups frees : Addr → Prop) (x : State Globals × Hand) (op : VOp)
    (x' : State Globals × Hand) : Prop :=
  op.Legal dups frees x.1 x.2 ∧ ∃ r, op.exec L F x.1 = .ok (r, x'.1) ∧ x'.2 = op.hand x.2 r

/-- A list that is copied has a dup method, or no free method, or no values. -/
def VOp.Unshared (s : State Globals) : VOp → Prop
  | .listDup l => getField l list.dup s ≠ .ok (NULL, s) ∨ getField l list.free s = .ok (NULL, s) ∨
      listLength l s = .ok (0, s)
  | _ => True

/-- The objects of a client: the lists `A` and the values `V`. -/
def objs (A : Multiset DList) (V : Multiset Addr) : Multiset Obj := A.map Obj.list + V.map Obj.value

/-- The values that are still to be freed: those that a list owns, and those the client has. -/
def tokens (A : Multiset DList) (V : Multiset Addr) : Multiset Addr :=
  (A.bind fun x => ↑(owns x.free x.values)) + V

/-- The invariant: lists and values are there, and no value that is owned was freed. -/
structure Possesses (dups frees : Addr → Prop) (t₀ : List Event) (y : State Globals × Hand)
    (A : Multiset DList) : Prop where
  parted : objShape.Parted y.1.mem (objs A y.2.values)
  unfreed : Unfreed frees t₀ (tokens A y.2.values) y.1
  lists : y.2.lists = A.map DList.addr
  methods : ∀ x ∈ A, (x.dup = NULL ∨ dups x.dup) ∧ (x.free = NULL ∨ frees x.free)

variable {A : Multiset DList} {V : Multiset Addr} {ls : Multiset Addr} {l : Addr}

@[simp] theorem objs_list : objs (x ::ₘ A) V = .list x ::ₘ objs A V := by
  rw [objs, Multiset.map_cons, Multiset.cons_add, objs]

@[simp] theorem objs_value : objs A (v ::ₘ V) = .value v ::ₘ objs A V := by
  rw [objs, Multiset.map_cons, Multiset.add_cons, objs]

@[simp] theorem tokens_list : tokens (x ::ₘ A) V = ↑(owns x.free x.values) + tokens A V := by
  rw [tokens, Multiset.cons_bind, add_assoc, tokens]

@[simp] theorem tokens_value : tokens A (v ::ₘ V) = v ::ₘ tokens A V := by
  rw [tokens, Multiset.add_cons, tokens]

/-- What is to be freed is there. -/
theorem tokens_live (h : objShape.Parted m (objs A V)) : ∀ v ∈ tokens A V, block m v ≠ none := by
  intro v hv
  apply h.live v
  rcases Multiset.mem_add.mp hv with hv | hv
  · obtain ⟨x, hx, hv⟩ := Multiset.mem_bind.mp hv
    have hfoot : v ∈ objShape.foot (.list x) := DList.mem_foot.mpr (Or.inr (Or.inr hv))
    refine Multiset.mem_of_le (Shape.foot_le_owned ?_) hfoot
    exact Multiset.mem_add.mpr (Or.inl (Multiset.mem_map_of_mem _ hx))
  · have hfoot : v ∈ objShape.foot (.value v) := Multiset.mem_singleton_self v
    refine Multiset.mem_of_le (Shape.foot_le_owned ?_) hfoot
    exact Multiset.mem_add.mpr (Or.inr (Multiset.mem_map_of_mem _ hv))

namespace Possesses

theorem init : Possesses dups frees s₀.trace (s₀, ⟨0, 0⟩) 0 :=
  ⟨Shape.Parted.init, Unfreed.init _ rfl, rfl, by simp⟩

theorem find (h : Possesses dups frees t₀ (s, ⟨ls, V⟩) A) (hl : l ∈ ls) : ∃ x A', A = x ::ₘ A' ∧ x.addr = l := by
  have hlists : ls = A.map DList.addr := h.lists
  rw [hlists] at hl
  obtain ⟨x, hx, hl⟩ := Multiset.mem_map.mp hl
  obtain ⟨A', hA⟩ := Multiset.exists_cons_of_mem hx
  exact ⟨x, A', hA, hl⟩

theorem list_ok (h : Possesses dups frees t₀ (s, ⟨ls, V⟩) (x ::ₘ A)) : x.Ok s.mem ∧ x.foot.Nodup := by
  have hparted : objShape.Parted s.mem (objs (x ::ₘ A) V) := h.parted
  have hx : Obj.list x ∈ objs (x ::ₘ A) V := by
    rw [objs_list]
    exact Multiset.mem_cons_self _ _
  exact ⟨hparted.ok _ hx, Multiset.nodup_of_le (Shape.foot_le_owned (X := objShape) hx) hparted.nodup⟩

/-- The client forgets a value, if it has it. -/
theorem erase (h : Possesses dups frees t₀ (s, ⟨ls, V⟩) A) (v : Addr) :
    Possesses dups frees t₀ (s, ⟨ls, V.erase v⟩) A := by
  by_cases hv : v ∈ V
  · obtain ⟨V', rfl⟩ := Multiset.exists_cons_of_mem hv
    obtain ⟨hparted, hunfreed, hlists, hmethods⟩ := h
    rw [Multiset.erase_cons_head]
    refine ⟨?_, ?_, hlists, hmethods⟩
    · rw [objs_value] at hparted
      exact hparted.destroy fun _ _ => rfl
    · rw [tokens_value] at hunfreed
      exact hunfreed.mono (Multiset.le_cons_self _ _)
  · rwa [Multiset.erase_of_notMem hv]

/-- One list gets other nodes. -/
theorem setNodes {ns : List (Addr × Addr)} {V' : Multiset Addr}
    (h : Possesses dups frees t₀ (s, ⟨ls, V⟩) (x ::ₘ A))
    (hparted : objShape.Parted s'.mem (objs (x.setNodes ns ::ₘ A) V'))
    (hunfreed : Unfreed frees t₀ (tokens (x.setNodes ns ::ₘ A) V') s') :
    Possesses dups frees t₀ (s', ⟨ls, V'⟩) (x.setNodes ns ::ₘ A) := by
  refine ⟨hparted, hunfreed, ?_, ?_⟩
  · rw [h.lists, Multiset.map_cons, Multiset.map_cons]
    rfl
  · intro y hy
    rcases Multiset.mem_cons.mp hy with rfl | hy
    · exact h.methods x (Multiset.mem_cons_self _ _)
    · exact h.methods y (Multiset.mem_cons_of_mem hy)

/-- A value that is added to a list with a free method is there, and nothing of the list. -/
theorem added (h : Possesses dups frees t₀ (s, ⟨ls, V⟩) (x ::ₘ A)) (hv : v ∈ V ∨ x.free = NULL) :
    (x.foot + ↑(owns x.free [v])).Nodup ∧ ∀ u ∈ owns x.free [v], ∃ bs, Holds s.mem u bs := by
  by_cases hf : x.free = NULL
  · have hnone : owns x.free [v] = [] := by rw [hf, owns_null]
    rw [hnone]
    exact ⟨by simpa using h.list_ok.2, by simp⟩
  · obtain ⟨V', rfl⟩ := Multiset.exists_cons_of_mem (hv.resolve_right hf)
    have hparted : objShape.Parted s.mem (objs (x ::ₘ A) (v ::ₘ V')) := h.parted
    rw [objs_value, objs_list] at hparted
    rw [owns_of_ne hf]
    constructor
    · refine Multiset.nodup_of_le ?_ hparted.nodup
      rw [Shape.owned_cons, Shape.owned_cons, objShape_value, objShape_list, ← add_assoc,
        add_comm ({v} : Multiset Addr), Multiset.coe_singleton]
      exact Multiset.le_add_right _ _
    · intro u hu
      rw [List.mem_singleton.mp hu]
      exact hparted.ok (.value v) (Multiset.mem_cons_self _ _)

/-- The value now belongs to the list, if that has a free method. -/
theorem add {ns : List (Addr × Addr)} (h : Possesses dups frees t₀ (s, ⟨ls, V⟩) (x ::ₘ A))
    (hv : v ∈ V ∨ x.free = NULL)
    (hvalues : (↑(owns x.free (x.setNodes ns).values) : Multiset Addr) = ↑(owns x.free [v]) + ↑(owns x.free x.values))
    (hu : Updates s.mem s'.mem (x.foot + ↑(owns x.free [v])) (x.setNodes ns).foot)
    (hok : (x.setNodes ns).Ok s'.mem) (hs : Silent s s') :
    Possesses dups frees t₀ (s', ⟨ls, V.erase v⟩) (x.setNodes ns ::ₘ A) := by
  by_cases hf : x.free = NULL
  · have herase := h.erase v
    have hparted : objShape.Parted s.mem (objs (x ::ₘ A) (V.erase v)) := herase.parted
    have hunfreed : Unfreed frees t₀ (tokens (x ::ₘ A) (V.erase v)) s := herase.unfreed
    have hnone : ∀ us, owns x.free us = [] := fun us => by rw [hf, owns_null]
    rw [hnone, Multiset.coe_nil, add_zero] at hu
    refine herase.setNodes ?_ ?_
    · rw [objs_list] at hparted ⊢
      exact hparted.replace hu.change hok
    · rw [tokens_list, hnone] at hunfreed
      have hnone' : owns (x.setNodes ns).free (x.setNodes ns).values = [] := hnone _
      rw [tokens_list, hnone']
      exact hunfreed.silent hs
  · obtain ⟨V', rfl⟩ := Multiset.exists_cons_of_mem (hv.resolve_right hf)
    have hparted : objShape.Parted s.mem (objs (x ::ₘ A) (v ::ₘ V')) := h.parted
    have hunfreed : Unfreed frees t₀ (tokens (x ::ₘ A) (v ::ₘ V')) s := h.unfreed
    have hown : owns x.free [v] = [v] := owns_of_ne hf
    rw [hown, Multiset.coe_singleton] at hu hvalues
    rw [Multiset.erase_cons_head]
    refine h.setNodes ?_ ?_
    · rw [objs_value, objs_list, Multiset.cons_swap] at hparted
      rw [objs_list]
      exact hparted.join hu.change hok
    · rw [tokens_value, tokens_list, ← Multiset.singleton_add, ← add_assoc] at hunfreed
      rw [tokens_list]
      change Unfreed frees t₀ (↑(owns x.free (x.setNodes ns).values) + tokens A V') s'
      rw [hvalues]
      exact hunfreed.silent hs

end Possesses

theorem owns_node {p : Addr} {xs ys : List (Addr × Addr)} :
    (↑(owns f (x.setNodes (xs ++ (p, v) :: ys)).values) : Multiset Addr) =
      ↑(owns f [v]) + ↑(owns f (x.setNodes (xs ++ ys)).values) := by
  simp only [DList.values, DList.setNodes, List.map_append, List.map_cons, owns_append,
    owns_cons _ _ (ys.map Prod.snd), ← Multiset.coe_add]
  abel

theorem silent_newList {dup free match' : Addr} : Obeys Silent (newList L dup free match') :=
  silent_law.bind (silent_law.listCreate L) fun _ => silent_law.bind (silent_law.setField _ _ _) fun _ =>
    silent_law.bind (silent_law.setField _ _ _) fun _ => silent_law.bind (silent_law.setField _ _ _) fun _ =>
    silent_law.pure _

theorem newValue_handsOut (size : Word) (bytes : List Byte) (s : State Globals) :
    wp Any (newValue L size bytes) (fun v s' => HandsOut v s s') s := by
  rw [Redis.newValue, wp_bind]
  refine (zmalloc_handsOut L size s).mono fun v s₁ hgives => ?_
  rw [wp_bind]
  exact (silent_law.setBytes v 0 bytes s₁).mono fun _ s₂ hsilent => wp_pure.mpr (hgives.silent hsilent)

namespace Possesses

/-- The client gets a list. -/
theorem addList (h : Possesses dups frees t₀ (s, ⟨ls, V⟩) A)
    (hx : (x.dup = NULL ∨ dups x.dup) ∧ (x.free = NULL ∨ frees x.free)) (hn : x.foot.Nodup)
    (hfresh : ∀ p ∈ x.foot, block s.mem p = none) (hold : Extends s.mem s'.mem) (hok : x.Ok s'.mem)
    (hunfreed : Unfreed frees t₀ (tokens A V + ↑(owns x.free x.values)) s') :
    Possesses dups frees t₀ (s', ⟨x.addr ::ₘ ls, V⟩) (x ::ₘ A) := by
  have hparted : objShape.Parted s.mem (objs A V) := h.parted
  have hlists : ls = A.map DList.addr := h.lists
  refine ⟨?_, ?_, ?_, Multiset.forall_mem_cons.mpr ⟨hx, h.methods⟩⟩
  · rw [objs_list]
    exact hparted.create hn hfresh hold hok
  · rw [tokens_list, add_comm]
    exact hunfreed
  · rw [Multiset.map_cons, hlists]

/-- A list and its values are given up. -/
theorem dropList (h : Possesses dups frees t₀ (s, ⟨ls, V⟩) (x ::ₘ A))
    (hframe : ∀ p ∉ x.foot, block s'.mem p = block s.mem p) (hunfreed : Unfreed frees t₀ (tokens A V) s') :
    Possesses dups frees t₀ (s', ⟨ls.erase x.addr, V⟩) A := by
  have hparted : objShape.Parted s.mem (objs (x ::ₘ A) V) := h.parted
  have hlists : ls = (x ::ₘ A).map DList.addr := h.lists
  rw [objs_list] at hparted
  refine ⟨hparted.destroy hframe, hunfreed, ?_, (Multiset.forall_mem_cons.mp h.methods).2⟩
  rw [hlists, Multiset.map_cons, Multiset.erase_cons_head]

end Possesses

section Steps

variable (hD : ∀ f, dups f → ¬ frees f ∧ DupsFresh F f) (hF : ∀ f, frees f → FreesOne F f)

theorem newList_step {dup free match' : Addr} (h : Possesses dups frees t₀ (s, ⟨ls, V⟩) A)
    (hlegal : (dup = NULL ∨ dups dup) ∧ (free = NULL ∨ frees free)) :
    wp Safe (newList L dup free match') (fun r s' =>
      ∃ A', Possesses dups frees t₀ (s', ⟨r ::ₘ ls, V⟩) A') s := by
  refine (wp_newList.and_any (silent_newList s)).mono fun l s' hpost => ?_
  obtain ⟨⟨hnew, hc⟩, hsilent⟩ := hpost
  obtain ⟨hu, hok⟩ : Updates s.mem s'.mem 0 (DList.foot ⟨l, [], dup, free, match'⟩) ∧
    DList.Ok s'.mem ⟨l, [], dup, free, match'⟩ := DList.Ok.create hnew hc
  refine ⟨_, h.addList (x := ⟨l, [], dup, free, match'⟩) hlegal hu.nodup ?_ (fun p hp => hu.old hp) hok ?_⟩
  · exact fun p hp => hu.fresh p hp (Multiset.notMem_zero p)
  · have hnone : owns free (DList.values ⟨l, [], dup, free, match'⟩) = [] := owns_nil
    rw [hnone, Multiset.coe_nil, add_zero]
    exact h.unfreed.silent hsilent

theorem newValue_step {size : Word} {bytes : List Byte} (h : Possesses dups frees t₀ (s, ⟨ls, V⟩) A)
    (hsize : size.toNat + 8 < 2 ^ 64) (hbytes : bytes.length ≤ size.toNat) :
    wp Safe (newValue L size bytes) (fun r s' => ∃ A', Possesses dups frees t₀ (s', ⟨ls, r ::ₘ V⟩) A') s := by
  refine ((wp_newValue hsize hbytes).and_any (newValue_handsOut size bytes s)).mono fun v s' hpost => ?_
  obtain ⟨⟨bs, hfresh, hfits, hm⟩, hgives⟩ := hpost
  have hparted : objShape.Parted s.mem (objs A V) := h.parted
  have hnew : v ∉ tokens A V := fun hv => tokens_live hparted v hv hfresh.block
  refine ⟨A, ?_, ?_, h.lists, h.methods⟩
  · rw [objs_value]
    refine hparted.create (Multiset.nodup_singleton v) (fun p hp => ?_) (fun p hp => ?_) ?_
    · rw [Multiset.mem_singleton.mp hp]
      exact hfresh.block
    · change block s'.mem p = block s.mem p
      rw [hm, block_put_ne]
      rintro rfl
      exact hp hfresh.block
    · rw [hm]
      exact ⟨bs, hfresh.put hfits⟩
  · rw [tokens_value]
    exact h.unfreed.give hgives hnew

include hF in
theorem Possesses.freesOne (h : Possesses dups frees t₀ (s, ⟨ls, V⟩) (x ::ₘ A)) (hf : x.free ≠ NULL) :
    FreesOne F x.free :=
  hF x.free ((h.methods x (Multiset.mem_cons_self _ _)).2.resolve_left hf)

/-- A field of a list's header. -/
theorem header_field (h : x.Ok s.mem) {i : ℕ} {w u : Word} (hw : x.header[i]? = some w)
    (hu : getField x.addr i s = .ok (u, s)) : w = u :=
  Option.some.inj (hw.symm.trans ((getField_iff h.header).mp hu))

theorem listAddNodeHead_step (h : Possesses dups frees t₀ (s, ⟨ls, V⟩) A) (hl : l ∈ ls)
    (hv : v ∈ V ∨ getField l list.free s = .ok (NULL, s)) :
    wp Safe (listAddNodeHead L l v) (fun _ s' => ∃ A', Possesses dups frees t₀ (s', ⟨ls, V.erase v⟩) A') s := by
  obtain ⟨x, A, rfl, rfl⟩ := h.find hl
  obtain ⟨hok, -⟩ := h.list_ok
  have hv : v ∈ V ∨ x.free = NULL := hv.imp_right (header_field hok rfl)
  obtain ⟨hn, hlive⟩ := h.added hv
  refine ((hok.wp_listAddNodeHead hn hlive).and_any (silent_law.listAddNodeHead L _ _ s)).mono fun r s' hpost => ?_
  obtain ⟨⟨-, p, -, hu, hok'⟩, hsilent⟩ := hpost
  exact ⟨_, h.add hv (@owns_node _ _ _ p [] x.nodes) hu hok' hsilent⟩

theorem listAddNodeTail_step (h : Possesses dups frees t₀ (s, ⟨ls, V⟩) A) (hl : l ∈ ls)
    (hv : v ∈ V ∨ getField l list.free s = .ok (NULL, s)) :
    wp Safe (listAddNodeTail L l v) (fun _ s' => ∃ A', Possesses dups frees t₀ (s', ⟨ls, V.erase v⟩) A') s := by
  obtain ⟨x, A, rfl, rfl⟩ := h.find hl
  obtain ⟨hok, -⟩ := h.list_ok
  have hv : v ∈ V ∨ x.free = NULL := hv.imp_right (header_field hok rfl)
  obtain ⟨hn, hlive⟩ := h.added hv
  refine ((hok.wp_listAddNodeTail hn hlive).and_any (silent_law.listAddNodeTail L _ _ s)).mono fun r s' hpost => ?_
  obtain ⟨⟨-, p, -, hu, hok'⟩, hsilent⟩ := hpost
  refine ⟨_, h.add hv ?_ hu hok' hsilent⟩
  rw [owns_node, List.append_nil]
  rfl

include hF in
theorem listDelNode_step {n : Addr} (h : Possesses dups frees t₀ (s, ⟨ls, V⟩) A) (hl : l ∈ ls) (hn : Member s l n) :
    wp Safe (listDelNode F l n) (fun _ s' => ∃ A', Possesses dups frees t₀ (s', ⟨ls, V⟩) A') s := by
  obtain ⟨x, A, rfl, rfl⟩ := h.find hl
  obtain ⟨hok, hfoot⟩ := h.list_ok
  obtain ⟨xs, v, ys, hns⟩ := hn.split hok.hangs
  have heq : x.setNodes (xs ++ (n, v) :: ys) = x := by rw [← hns]; rfl
  have hfree := h.freesOne hF
  have hparted : objShape.Parted s.mem (objs (x ::ₘ A) V) := h.parted
  have hunfreed : Unfreed frees t₀ (tokens (x ::ₘ A) V) s := h.unfreed
  have hrest : tokens (x ::ₘ A) V = tokens (x.setNodes (xs ++ ys) ::ₘ A) V + ↑(owns x.free [v]) := by
    calc tokens (x ::ₘ A) V
        = tokens (x.setNodes (xs ++ (n, v) :: ys) ::ₘ A) V := by rw [heq]
      _ = (↑(owns x.free [v]) + ↑(owns x.free (x.setNodes (xs ++ ys)).values)) + tokens A V := by
        rw [tokens_list, ← owns_node]
        rfl
      _ = (↑(owns x.free (x.setNodes (xs ++ ys)).values) + tokens A V) + ↑(owns x.free [v]) := by abel
      _ = tokens (x.setNodes (xs ++ ys) ::ₘ A) V + ↑(owns x.free [v]) := by
        rw [tokens_list]
        rfl
  rw [objs_list] at hparted
  rw [hrest] at hunfreed
  rw [← heq] at hok hfoot
  refine (hok.wp_listDelNode (R := Unfreed frees t₀ (tokens (x.setNodes (xs ++ ys) ::ₘ A) V)) hfoot
    fun s₁ hlive hsilent => (hunfreed.silent hsilent).freed hfree hlive).mono fun _ s' hpost => ?_
  obtain ⟨s₂, hunfreed, hremoved, hchange, hok⟩ := hpost
  rw [heq] at hchange
  refine ⟨_, h.setNodes ?_ (hunfreed.silent hremoved.silent)⟩
  rw [objs_list]
  exact hparted.replace hchange hok

include hF in
theorem listRelease_step (h : Possesses dups frees t₀ (s, ⟨ls, V⟩) A) (hl : l ∈ ls) :
    wp Safe (listRelease F l) (fun _ s' => ∃ A', Possesses dups frees t₀ (s', ⟨ls.erase l, V⟩) A') s := by
  obtain ⟨x, A, rfl, rfl⟩ := h.find hl
  obtain ⟨hok, hfoot⟩ := h.list_ok
  have hfree := h.freesOne hF
  have hunfreed : Unfreed frees t₀ (tokens (x ::ₘ A) V) s := h.unfreed
  rw [tokens_list, add_comm] at hunfreed
  have heach : FreesEach Safe F x (fun vs => Unfreed frees t₀ (tokens A V + ↑(owns x.free vs))) := by
    refine ⟨fun hR _ hsilent => hR.silent hsilent, fun {v vs s} hR hlive => Unfreed.freed ?_ hfree hlive⟩
    rw [owns_cons, ← Multiset.coe_add, add_comm (↑(owns x.free [v]) : Multiset Addr), ← add_assoc] at hR
    exact hR
  refine (hok.wp_listRelease hfoot heach hunfreed).mono fun _ s' hpost => ?_
  obtain ⟨hunfreed, -, hframe⟩ := hpost
  rw [owns_nil, Multiset.coe_nil, add_zero] at hunfreed
  exact ⟨A, h.dropList hframe hunfreed⟩

/-- What a copy owns, the dup method made. -/
theorem owns_copy (hok : x.Ok s.mem) (hx : (VOp.listDup x.addr).Unshared s) (hlen : y.nodes.length = x.nodes.length) :
    (↑(owns x.free y.values) : Multiset Addr) ≤ ↑(owns x.dup y.values) := by
  rcases hx with hdup | hfree | hempty
  · have hne : x.dup ≠ NULL := fun hnull => hdup (getField_ok hok.header (congrArg some hnull))
    rw [owns_of_ne hne]
    exact owns_le
  · have hnull : x.free = NULL := header_field hok rfl hfree
    rw [hnull, owns_null]
    exact Multiset.zero_le _
  · have hzero : BitVec.ofNat 64 x.nodes.length = 0 := header_field hok rfl hempty
    have hnone : x.nodes.length = 0 := by
      have hlt := hok.hangs.length_lt
      have hmod := congrArg BitVec.toNat hzero
      rwa [BitVec.toNat_ofNat, Nat.mod_eq_of_lt hlt] at hmod
    have hvalues : y.values = [] := by
      rw [DList.values, List.eq_nil_of_length_eq_zero (hlen.trans hnone), List.map_nil]
    rw [hvalues, owns_nil, owns_nil]

include hD hF in
theorem listDup_step (h : Possesses dups frees t₀ (s, ⟨ls, V⟩) A)
    (hlegal : (VOp.listDup l).Legal dups frees s ⟨ls, V⟩) (hx : (VOp.listDup l).Unshared s) :
    wp Safe (listDup L F l) (fun r s' =>
      ∃ A', Possesses dups frees t₀ (s', (VOp.listDup l).hand ⟨ls, V⟩ r) A') s := by
  obtain ⟨hl, hvalues⟩ := hlegal
  obtain ⟨x, A, rfl, rfl⟩ := h.find hl
  obtain ⟨hok, -⟩ := h.list_ok
  obtain ⟨hdup, hfree⟩ := h.methods x (Multiset.mem_cons_self _ _)
  have hparted : objShape.Parted s.mem (objs (x ::ₘ A) V) := h.parted
  have hunfreed : Unfreed frees t₀ (tokens (x ::ₘ A) V) s := h.unfreed
  have hlive : x.dup ≠ NULL → ∀ v ∈ x.values, ∃ bs, Holds s.mem v bs := by
    intro hne v hv
    obtain ⟨⟨n, w⟩, hmem, rfl⟩ := List.mem_map.mp hv
    obtain ⟨xs, ys, hns⟩ := List.append_of_mem hmem
    have hnode := (linked_split.mp (hns ▸ hok.links)).2.1
    have hset : ¬ getField x.addr list.dup s = .ok (NULL, s) := fun hnull => hne (header_field hok rfl hnull)
    exact hvalues.resolve_left hset n w (Member.of_split hok.hangs hns) (getField_ok hnode rfl)
  have hC : x.dup ≠ NULL → Copies F x.dup s.mem x.values (Making frees t₀ (tokens (x ::ₘ A) V))
      (fun _ us s => Unfreed frees t₀ (tokens (x ::ₘ A) V + ↑us) s) := by
    intro hne
    obtain ⟨hnot, hfresh⟩ := hD x.dup (hdup.resolve_left hne)
    exact hfresh.copies hnot (hlive hne) (tokens_live hparted)
  have hinit : ∀ s', Silent s s' → Making frees t₀ (tokens (x ::ₘ A) V) [] s' := by
    intro s' hsilent
    refine ⟨?_, by simp⟩
    rw [Multiset.coe_nil, add_zero]
    exact hunfreed.silent hsilent
  refine (wp_listDup Making.keep hC (fun _ => unmakes_of_freesOne (h.freesOne hF))
    hok.hangs hinit).mono fun r s' hpost => ?_
  rcases hpost with ⟨ns, hcopied⟩ | ⟨rfl, us, hundone⟩
  · have hle := owns_copy (y := ⟨r, ns, x.dup, x.free, x.match'⟩) hok hx hcopied.length
    have hfoot : DList.foot ⟨r, ns, x.dup, x.free, x.match'⟩ ≤
        ↑(DList.blocks ⟨r, ns, x.dup, x.free, x.match'⟩) +
          ↑(owns x.dup (DList.values ⟨r, ns, x.dup, x.free, x.match'⟩)) := by
      rw [DList.foot_eq]
      exact Multiset.add_le_add_left hle
    have hr : r ≠ NULL := hcopied.hangs.header.ne_null
    rw [VOp.hand, if_neg hr]
    refine ⟨_, h.addList (x := ⟨r, ns, x.dup, x.free, x.match'⟩) ⟨hdup, hfree⟩
      (Multiset.nodup_of_le hfoot hcopied.update.nodup) (fun p hp => ?_) (fun p hp => hcopied.update.old hp)
      ⟨hcopied.hangs.header, hcopied.hangs.links, fun v hv => ?_⟩ ?_⟩
    · exact hcopied.update.fresh p (Multiset.mem_of_le hfoot hp) (Multiset.notMem_zero p)
    · exact hcopied.made v (Multiset.mem_of_le hle hv)
    · exact hcopied.ghost.unfreed.mono (Multiset.add_le_add_left hle)
  · have hR : Unfreed frees t₀ (tokens (x ::ₘ A) V + ↑([] : List Addr)) s' := hundone.ghost
    rw [Multiset.coe_nil, add_zero] at hR
    refine ⟨x ::ₘ A, hparted.congr fun p hp => hundone.frame p fun hmem => hp ?_, hR, h.lists, h.methods⟩
    exact hundone.fresh p hmem

include hD hF in
/-- A legal step keeps the client in possession, as long as no copy shares values that are to be freed. -/
theorem vop_step {op : VOp} {h : Hand} (hI : Possesses dups frees t₀ (s, h) A) (hlegal : op.Legal dups frees s h)
    (hx : op.Unshared s) :
    wp Safe (op.exec L F) (fun r s' => ∃ A', Possesses dups frees t₀ (s', op.hand h r) A') s := by
  obtain ⟨ls, V⟩ := h
  cases op with
  | listCreate dup free mt => exact newList_step hI hlegal
  | newValue size bytes => exact newValue_step hI hlegal.1 hlegal.2
  | listAddNodeHead l v => exact listAddNodeHead_step hI hlegal.1 hlegal.2
  | listAddNodeTail l v => exact listAddNodeTail_step hI hlegal.1 hlegal.2
  | listDelNode l n =>
    exact wp_bind.mpr ((listDelNode_step hF hI hlegal.1 hlegal.2).mono fun _ _ hpost => wp_pure.mpr hpost)
  | listDup l => exact listDup_step hD hF hI hlegal hx
  | listRelease l =>
    exact wp_bind.mpr ((listRelease_step hF hI hlegal).mono fun _ _ hpost => wp_pure.mpr hpost)
  | safe_listRelease l =>
    rw [VOp.exec, safe_listRelease_eq]
    exact wp_bind.mpr ((listRelease_step hF hI hlegal).mono fun _ _ hpost => wp_pure.mpr hpost)

end Steps

/-- No value is freed twice, as long as every list that is copied has a dup method, or no free method,
or no values. A copy that has the free method and the values of the original frees them as well. -/
theorem no_value_freed_twice (L : Libc) (F : Methods) (dups frees : Addr → Prop) [DecidablePred frees]
    (hD : ∀ f, dups f → ¬ frees f ∧ DupsFresh F f) (hF : ∀ f, frees f → FreesOne F f) (s₀ s : State Globals)
    (h : Hand) (tr : List ((State Globals × Hand) × VOp))
    (hrun : Run (vstep L F dups frees) (s₀, ⟨0, 0⟩) tr (s, h)) (hx : ∀ y ∈ tr, y.2.Unshared y.1.1) :
    (∃ es, s.trace = es ++ s₀.trace ∧ SpentOnce frees blockOf es ∧
      (NeverReused frees blockOf es → (spent frees es).Nodup)) ∧
    ∀ op : VOp, op.Legal dups frees s h → op.Unshared s → wp Safe (op.exec L F) (fun _ _ => True) s := by
  have hI : (∀ y ∈ tr, y.2.Unshared y.1.1) → ∃ A, Possesses dups frees s₀.trace (s, h) A := by
    refine hrun.invariant (P := fun tr x => (∀ y ∈ tr, y.2.Unshared y.1.1) →
      ∃ A, Possesses dups frees s₀.trace x A) (fun _ => ⟨0, Possesses.init⟩) ?_
    rintro tr ⟨s, h⟩ op ⟨s', h'⟩ ih ⟨hlegal, r, hok, rfl⟩ hx
    rw [List.forall_mem_append, List.forall_mem_singleton] at hx
    obtain ⟨A, hI⟩ := ih hx.1
    exact (vop_step hD hF hI hlegal hx.2).of_ok hok
  obtain ⟨A, hI⟩ := hI hx
  obtain ⟨es, htrace, honce, -⟩ := hI.unfreed.log
  refine ⟨⟨es, htrace, honce, honce.nodup⟩, fun op hlegal hop => ?_⟩
  exact (vop_step hD hF hI hlegal hop).mono fun _ _ _ => trivial

/-- A list with the free method 2 and the dup method `dup` gets one value. -/
def held₁ (F : Methods) (dup : Addr) : State Globals := after (VOp.exec (bump 0) F (.listCreate dup 2 NULL)) zinit
def held₂ (F : Methods) (dup : Addr) : State Globals :=
  after (VOp.exec (bump 0) F (.newValue 4 [7, 0, 0, 0])) (held₁ F dup)
def held₃ (F : Methods) (dup : Addr) : State Globals :=
  after (VOp.exec (bump 0) F (.listAddNodeTail 0x1008 0x2008)) (held₂ F dup)

/-- It is copied, and both lists are released. -/
def held₄ (F : Methods) (dup : Addr) : State Globals := after (VOp.exec (bump 0) F (.listDup 0x1008)) (held₃ F dup)
def held₅ (F : Methods) (dup : Addr) : State Globals :=
  after (VOp.exec (bump 0) F (.listRelease 0x1008)) (held₄ F dup)
def held₆ (F : Methods) (dup : Addr) : State Globals :=
  after (VOp.exec (bump 0) F (.safe_listRelease 0x4008)) (held₅ F dup)

def heldRun (F : Methods) (dup : Addr) : List ((State Globals × Hand) × VOp) :=
  [((zinit, ⟨0, 0⟩), .listCreate dup 2 NULL), ((held₁ F dup, ⟨{0x1008}, 0⟩), .newValue 4 [7, 0, 0, 0]),
    ((held₂ F dup, ⟨{0x1008}, {0x2008}⟩), .listAddNodeTail 0x1008 0x2008),
    ((held₃ F dup, ⟨{0x1008}, 0⟩), .listDup 0x1008), ((held₄ F dup, ⟨{0x4008, 0x1008}, 0⟩), .listRelease 0x1008),
    ((held₅ F dup, ⟨{0x4008}, 0⟩), .safe_listRelease 0x4008)]

theorem vstep_ok {op : VOp} {h h' : Hand} (hlegal : op.Legal dups frees s h) (hok : op.exec L F s = .ok (r, s'))
    (hh : h' = op.hand h r) : vstep L F dups frees (s, h) op (s', h') := ⟨hlegal, r, hok, hh⟩

theorem run_held {F : Methods} {dup : Addr}
    (h₁ : result (VOp.exec (bump 0) F (.listCreate dup 2 NULL)) zinit = some 0x1008)
    (h₂ : result (VOp.exec (bump 0) F (.newValue 4 [7, 0, 0, 0])) (held₁ F dup) = some 0x2008)
    (h₃ : result (VOp.exec (bump 0) F (.listAddNodeTail 0x1008 0x2008)) (held₂ F dup) = some 0x1008)
    (h₄ : result (VOp.exec (bump 0) F (.listDup 0x1008)) (held₃ F dup) = some 0x4008)
    (h₅ : result (VOp.exec (bump 0) F (.listRelease 0x1008)) (held₄ F dup) = some NULL)
    (h₆ : result (VOp.exec (bump 0) F (.safe_listRelease 0x4008)) (held₅ F dup) = some NULL)
    (hdup : dup = NULL ∨ dup = 1)
    (hlegal : (VOp.listDup 0x1008).Legal (· = 1) (· = 2) (held₃ F dup) ⟨{0x1008}, 0⟩) :
    Run (vstep (bump 0) F (· = 1) (· = 2)) (zinit, ⟨0, 0⟩) (heldRun F dup) (held₆ F dup, ⟨0, 0⟩) := by
  have hs₁ : vstep (bump 0) F (· = 1) (· = 2) (zinit, ⟨0, 0⟩) (.listCreate dup 2 NULL) (held₁ F dup, ⟨{0x1008}, 0⟩) :=
    vstep_ok ⟨hdup, Or.inr rfl⟩ (ok_after h₁) rfl
  have hs₂ : vstep (bump 0) F (· = 1) (· = 2) (held₁ F dup, ⟨{0x1008}, 0⟩) (.newValue 4 [7, 0, 0, 0])
      (held₂ F dup, ⟨{0x1008}, {0x2008}⟩) := vstep_ok ⟨by decide, by decide⟩ (ok_after h₂) rfl
  have hs₃ : vstep (bump 0) F (· = 1) (· = 2) (held₂ F dup, ⟨{0x1008}, {0x2008}⟩) (.listAddNodeTail 0x1008 0x2008)
      (held₃ F dup, ⟨{0x1008}, 0⟩) :=
    vstep_ok ⟨Multiset.mem_singleton_self _, Or.inl (Multiset.mem_singleton_self _)⟩ (ok_after h₃) rfl
  have hs₄ : vstep (bump 0) F (· = 1) (· = 2) (held₃ F dup, ⟨{0x1008}, 0⟩) (.listDup 0x1008)
      (held₄ F dup, ⟨{0x4008, 0x1008}, 0⟩) := vstep_ok hlegal (ok_after h₄) rfl
  have hs₅ : vstep (bump 0) F (· = 1) (· = 2) (held₄ F dup, ⟨{0x4008, 0x1008}, 0⟩) (.listRelease 0x1008)
      (held₅ F dup, ⟨{0x4008}, 0⟩) := by
    have hmem : (0x1008 : Addr) ∈ ({0x4008, 0x1008} : Multiset Addr) := by decide
    exact vstep_ok hmem (ok_after h₅) rfl
  have hs₆ : vstep (bump 0) F (· = 1) (· = 2) (held₅ F dup, ⟨{0x4008}, 0⟩) (.safe_listRelease 0x4008)
      (held₆ F dup, ⟨0, 0⟩) := vstep_ok (Multiset.mem_singleton_self _) (ok_after h₆) rfl
  exact (((((Run.nil.snoc hs₁).snoc hs₂).snoc hs₃).snoc hs₄).snoc hs₅).snoc hs₆

theorem dupsFresh_int (f : Addr) : DupsFresh intMethods f := by
  rintro v s ⟨bs, hbs⟩
  have hgives : wp Any (intMethods.dup f v) (fun r s' => HandsOut r s s') s := by
    change wp Any (_ >>= _) _ _
    rw [wp_bind]
    have hsize : ReadOnly (zsizeof v) := (readOnly_readAt _ _ _).bind fun _ => readOnly_pure _
    refine (silent_law.readOnly hsize s).mono fun size s₁ hsilent₁ => ?_
    rw [wp_bind]
    refine (zmalloc_handsOut (bump 0) size s₁).mono fun r s₂ hgives => ?_
    rw [wp_bind]
    refine (silent_law.readOnly (readOnly_getBytes _) s₂).mono fun bs s₃ hsilent₂ => ?_
    rw [wp_bind]
    refine (silent_law.setBytes _ _ _ s₃).mono fun _ s₄ hsilent₃ => ?_
    exact wp_pure.mpr (((hgives.after hsilent₁).silent hsilent₂).silent hsilent₃)
  have hdup := (wp_intMethods_dup f hbs).and_any (silent_law.intMethods_dup f v s)
  refine (hdup.and_any hgives).mono fun r s' hpost => ?_
  obtain ⟨⟨⟨hfresh, hfits, hm⟩, hsilent⟩, hgives⟩ := hpost
  exact ⟨hsilent, Or.inr ⟨bs, hfresh, hfits, hm, hgives⟩⟩

theorem no_value_freed_twice_held :
    (∃ es, (held₆ intMethods 1).trace = es ++ zinit.trace ∧ SpentOnce (· = 2) blockOf es ∧
      (NeverReused (· = 2) blockOf es → (spent (· = 2) es).Nodup)) ∧
    ∀ op : VOp, op.Legal (· = 1) (· = 2) (held₆ intMethods 1) ⟨0, 0⟩ → op.Unshared (held₆ intMethods 1) →
      wp Safe (op.exec (bump 0) intMethods) (fun _ _ => True) (held₆ intMethods 1) := by
  have hheader : Holds (held₃ intMethods 1).mem 0x1008 (words [0x3008, 0x3008, 1, 1, 2, NULL]) :=
    ⟨by decide +kernel, by decide, by decide, by decide⟩
  have hnode : NodeAt (held₃ intMethods 1).mem NULL 0x3008 NULL 0x2008 :=
    ⟨by decide +kernel, by decide, by decide, by decide⟩
  have hvalue : Holds (held₃ intMethods 1).mem 0x2008 [7, 0, 0, 0] :=
    ⟨by decide +kernel, by decide, by decide, by decide⟩
  have hlegal : (VOp.listDup 0x1008).Legal (· = 1) (· = 2) (held₃ intMethods 1) ⟨{0x1008}, 0⟩ := by
    refine ⟨Multiset.mem_singleton_self _, Or.inr fun n v hn hv => ⟨[7, 0, 0, 0], ?_⟩⟩
    have hangs : DList.Hangs (held₃ intMethods 1).mem ⟨0x1008, [(0x3008, 0x2008)], 1, 2, NULL⟩ :=
      ⟨hheader, hnode, trivial⟩
    obtain ⟨xs, w, ys, hns⟩ := hn.split hangs
    have hns : [((0x3008 : Addr), (0x2008 : Addr))] = xs ++ (n, w) :: ys := hns
    have hmem : (n, w) ∈ [((0x3008 : Addr), (0x2008 : Addr))] := by
      rw [hns]
      exact List.mem_append_right _ List.mem_cons_self
    obtain ⟨rfl, rfl⟩ := Prod.mk.inj (List.mem_singleton.mp hmem)
    have hv' : (0x2008 : Addr) = v := by simpa using (getField_iff hnode).mp hv
    rwa [← hv']
  have hrun : Run (vstep (bump 0) intMethods (· = 1) (· = 2)) (zinit, ⟨0, 0⟩) (heldRun intMethods 1)
      (held₆ intMethods 1, ⟨0, 0⟩) :=
    run_held (by decide +kernel) (by decide +kernel) (by decide +kernel) (by decide +kernel) (by decide +kernel)
      (by decide +kernel) (Or.inr rfl) hlegal
  have hset : getField 0x1008 list.dup (held₃ intMethods 1) ≠ .ok (NULL, held₃ intMethods 1) := by
    intro hnull
    have heq := (getField_iff hheader).mp hnull
    simp [list.dup, NULL] at heq
  refine no_value_freed_twice (bump 0) intMethods (· = 1) (· = 2) (fun f hf => ⟨?_, dupsFresh_int f⟩)
    (fun f _ => freesOne_zfree fun _ => rfl) zinit _ _ _ hrun ?_
  · rw [hf]
    decide
  · simp only [heldRun, List.forall_mem_cons]
    exact ⟨trivial, trivial, trivial, Or.inl hset, trivial, trivial, by simp⟩

/-- Where the list has no dup method, both releases free its value, which the free method of the tests
cannot bear. -/
theorem value_freed_twice :
    (∀ f, f = 1 → ¬ f = 2 ∧ DupsFresh noMethods f) ∧ (∀ f, f = 2 → FreesOne noMethods f) ∧
    Run (vstep (bump 0) noMethods (· = 1) (· = 2)) (zinit, ⟨0, 0⟩) (heldRun noMethods NULL)
      (held₆ noMethods NULL, ⟨0, 0⟩) ∧
    spent (· = 2) (held₆ noMethods NULL).trace = [0x2008, 0x2008] ∧
    ¬ SpentOnce (· = 2) blockOf (held₆ noMethods NULL).trace ∧
    result (VOp.exec (bump 0) intMethods (.listRelease 0x1008)) (held₄ intMethods NULL) = some NULL ∧
    safe_listRelease intMethods 0x4008 (held₅ intMethods NULL) = .error .ub := by
  have hheader : Holds (held₃ noMethods NULL).mem 0x1008 (words [0x3008, 0x3008, 1, NULL, 2, NULL]) :=
    ⟨by decide +kernel, by decide, by decide, by decide⟩
  have hsplit : (held₆ noMethods NULL).trace = (held₆ noMethods NULL).trace.take 2 ++ .call 2 0x2008 ::
      ([.free 0x1000, .free 0x3000] ++ .call 2 0x2008 :: (held₆ noMethods NULL).trace.drop 6) := by decide +kernel
  refine ⟨fun f hf => ⟨?_, ?_⟩, fun f _ => ?_, run_held ?_ ?_ ?_ ?_ ?_ ?_ (Or.inl rfl) ?_, ?_, fun honce => ?_, ?_,
    error_of_fault ?_⟩
  · rw [hf]
    decide
  · intro v s _
    exact wp_pure.mpr ⟨silent_law.refl s, Or.inl ⟨rfl, rfl⟩⟩
  · intro v s _
    exact wp_pure.mpr ⟨silent_law.refl s, fun _ _ => rfl⟩
  iterate 6 decide +kernel
  · exact ⟨Multiset.mem_singleton_self _, Or.inl (getField_ok hheader rfl)⟩
  · decide +kernel
  · obtain ⟨e, he, hgives⟩ := honce _ _ _ _ hsplit rfl _ _ _ rfl rfl
    rcases List.mem_cons.mp he with rfl | he
    · exact hgives
    · rw [List.mem_singleton.mp he] at hgives
      exact hgives
  · decide +kernel
  · decide +kernel

end Redis
