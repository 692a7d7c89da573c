import RedisPlayground.Memory.Components
import RedisPlayground.Proofs.DictLookups
import RedisPlayground.Proofs.DictReleases
import RedisPlayground.Proofs.ListLeaks

/-! The dicts of a client as a component. A dict owns its private data; its keys
and values are only words to it. -/

namespace Redis

open CMem

/-- `data` is the size and the first bytes of the private data, if there is any. -/
inductive DCall where
  | dictCreate (type : Addr) (data : Option (Word × List Byte))
  | dictAdd (d key val : Addr)
  | dictRelease (d : Addr)

def newData (L : Libc) : Option (Word × List Byte) → M Addr
  | none => return NULL
  | some (size, bytes) => newValue L size bytes

def dicts (L : Libc) (T : Addr → Option dictType) : Component Globals (Multiset Addr) DCall Addr where
  exec
    | .dictCreate type data => do
      let privdata ← newData L data
      Redis.dictCreate L type privdata
    | .dictAdd d key val => Redis.dictAdd L T d key val
    | .dictRelease d => do
      Redis.dictRelease d
      return NULL
  Legal _ ds
    | .dictCreate type data => (∃ hash, T type = some ⟨some hash⟩) ∧
        ∀ size bytes, data = some (size, bytes) → size.toNat + 8 < 2 ^ 64 ∧ bytes.length ≤ size.toNat
    | .dictAdd d _ _ | .dictRelease d => d ∈ ds
  handles ds
    | .dictCreate _ _, r => r ::ₘ ds
    | .dictAdd _ _ _, _ => ds
    | .dictRelease d, _ => ds.erase d

/-- A dict by its type and what was added to it, the latest first. -/
structure Filed where
  addr : Addr
  type : Addr
  history : History

/-- The same calls on the histories. -/
inductive DictStep : Multiset Filed → DCall × Addr → Multiset Filed → Prop where
  | create {A type data d} : d ∉ A.map Filed.addr → DictStep A (.dictCreate type data, d) (⟨d, type, []⟩ ::ₘ A)
  | add {A d type H key val} : DictStep (⟨d, type, H⟩ ::ₘ A) (.dictAdd d key val, d) (⟨d, type, (key, val) :: H⟩ ::ₘ A)
  | release {A x r} : DictStep (x ::ₘ A) (.dictRelease x.addr, r) A

def DDict.told (x : DDict) : Filed := ⟨x.addr, x.type, x.entries.map Prod.snd⟩

variable {L : Libc} {T : Addr → Option dictType} {hash : Addr → Word} {s s' : State Globals} {x : DDict}
  {p d key val : Addr} {m m' m₀ : Mem} {W : Multiset DDict} {ds : Multiset Addr} {A : Multiset Filed}
  {data : Option (Word × List Byte)}

/-- A dict that a client may use and release. -/
structure DDict.Usable (T : Addr → Option dictType) (m : Mem) (x : DDict) : Prop where
  ok : x.Ok (hashOf T x.type) m
  hash : ∃ hash, T x.type = some ⟨some hash⟩
  data : x.privdata ≠ NULL → ∃ bs, Holds m x.privdata bs
  ht1 : x.ht1 = ⟨NULL, 0, 0, 0⟩

theorem mem_released : p ∈ x.released ↔ p ∈ dataBlock x.privdata ∨ p ∈ x.foot := by
  rw [DDict.released_eq, Multiset.mem_add]

theorem dataBlock_self (h : p ≠ NULL) : p ∈ dataBlock p := by
  rw [dataBlock, if_neg h]
  exact Multiset.mem_singleton_self p

def dictShape (T : Addr → Option dictType) : Shape Mem Addr (List Byte) DDict where
  view := block
  foot := DDict.released
  Ok := DDict.Usable T
  live h hp := by
    rcases mem_released.mp hp with hp | hp
    · obtain ⟨hne, rfl⟩ := mem_dataBlock hp
      obtain ⟨bs, hbs⟩ := h.data hne
      exact hbs.live
    · obtain ⟨bs, hbs⟩ := h.ok.live hp
      exact hbs.live
  congr hm h := by
    refine ⟨h.ok.congr fun p hp => hm p (mem_released.mpr (Or.inr hp)), h.hash, fun hne => ?_, h.ht1⟩
    obtain ⟨bs, hbs⟩ := h.data hne
    exact ⟨bs, hbs.congr (hm _ (mem_released.mpr (Or.inl (dataBlock_self hne))))⟩

@[simp] theorem dictShape_foot : (dictShape T).foot x = dataBlock x.privdata + x.foot := DDict.released_eq

theorem DDict.Usable.hashOf (h : x.Usable T m) : T x.type = some ⟨some (hashOf T x.type)⟩ := by
  obtain ⟨hash, hT⟩ := h.hash
  rw [Redis.hashOf, hT]

theorem wp_newData {Q : Addr → State Globals → Prop}
    (hdata : ∀ size bytes, data = some (size, bytes) → size.toNat + 8 < 2 ^ 64 ∧ bytes.length ≤ size.toNat)
    (hQ : ∀ v s', Updates s.mem s'.mem 0 (dataBlock v) → (v ≠ NULL → ∃ bs, Holds s'.mem v bs) → Q v s') :
    wp Safe (newData L data) Q s := by
  rcases data with - | ⟨size, bytes⟩
  · refine wp_pure.mpr (hQ NULL s ?_ fun h => absurd rfl h)
    rw [dataBlock, if_pos rfl]
    exact Update.refl Multiset.nodup_zero
  · obtain ⟨hsize, hbytes⟩ := hdata size bytes rfl
    refine (wp_newValue hsize hbytes).mono fun v s' hpost => ?_
    obtain ⟨bs, hfresh, hfits, hm⟩ := hpost
    refine hQ v s' ?_ fun _ => ⟨bs, hm ▸ hfresh.put hfits⟩
    rw [dataBlock, if_neg hfresh.ne_null, hm]
    exact updates_put hfresh.block

/-- The rest of a component's heap can be left out. -/
theorem exists_without (m : Mem) (S : Multiset Addr) :
    ∃ m₁, (∀ p ∈ S, block m₁ p = none) ∧ ∀ p ∉ S, block m₁ p = block m p := by
  induction S using Multiset.induction with
  | empty => exact ⟨m, by simp, fun _ _ => rfl⟩
  | cons q S ih =>
    obtain ⟨m₁, hgone, hkept⟩ := ih
    refine ⟨del m₁ q, fun p hp => ?_, fun p hp => ?_⟩
    · by_cases hpq : p = q
      · rw [hpq, block_del_self]
      · rw [block_del_ne hpq]
        exact hgone p ((Multiset.mem_cons.mp hp).resolve_left hpq)
    · rw [Multiset.mem_cons, not_or] at hp
      rw [block_del_ne hp.1, hkept p hp.2]

/-- The dicts of a client next to the memory `m₀` it began with. -/
abbrev OwnDicts (T : Addr → Option dictType) (m₀ m : Mem) (W : Multiset DDict) : Prop := (dictShape T).Sat m₀ m W

section Rules

theorem OwnDicts.usable (h : OwnDicts T m₀ m (x ::ₘ W)) :
    x.Usable T m ∧ (x.foot + dataBlock x.privdata).Nodup ∧ ∀ p ∈ dataBlock x.privdata, block m p ≠ none := by
  have hx : x.Usable T m := h.ok x (Multiset.mem_cons_self x W)
  have hfoot := h.foot_nodup (Multiset.mem_cons_self x W)
  rw [dictShape_foot, add_comm] at hfoot
  refine ⟨hx, hfoot, fun p hp => ?_⟩
  obtain ⟨hne, rfl⟩ := mem_dataBlock hp
  obtain ⟨bs, hbs⟩ := hx.data hne
  exact hbs.live

theorem OwnDicts.addr_notMem (h : OwnDicts T m₀ m (x ::ₘ W)) : x.addr ∉ W.map DDict.addr := by
  have hfoot : ∀ y : DDict, y.addr ∈ (dictShape T).foot y := fun y => by
    rw [dictShape_foot]
    exact Multiset.mem_add.mpr (Or.inr (DDict.mem_foot.mpr (Or.inl rfl)))
  intro hmem
  obtain ⟨y, hy, heq⟩ := Multiset.mem_map.mp hmem
  have hn := h.nodup
  rw [Shape.owned_cons, Multiset.nodup_add] at hn
  exact Multiset.disjoint_left.mp hn.2.2 (hfoot x) (Multiset.mem_of_le (Shape.foot_le_owned hy) (heq ▸ hfoot y))

/-- A new dict takes its private data with it. -/
theorem OwnDicts.dictCreate {type : Addr} {Q : Addr → State Globals → Prop} (h : OwnDicts T m₀ s.mem W)
    (hT : ∃ hash, T type = some ⟨some hash⟩)
    (hdata : ∀ size bytes, data = some (size, bytes) → size.toNat + 8 < 2 ^ 64 ∧ bytes.length ≤ size.toNat)
    (hQ : ∀ d v table w s', OwnDicts T m₀ s'.mem (DDict.new d type v table w ::ₘ W) → Q d s') :
    wp Safe (do let privdata ← newData L data; dictCreate L type privdata) Q s := by
  refine wp_bind.mpr (wp_newData hdata fun v s₁ hu hv => ?_)
  refine wp_dictCreate.mono fun d s' hpost => ?_
  obtain ⟨table, w, hok, hu'⟩ := hpost
  have hlive : ∀ p ∈ dataBlock v, block s₁.mem p ≠ none := by
    intro p hp
    obtain ⟨hne, rfl⟩ := mem_dataBlock hp
    obtain ⟨bs, hbs⟩ := hv hne
    exact hbs.live
  have hn : (0 + dataBlock v).Nodup := by
    rw [zero_add]
    exact hu.nodup
  have hboth := hu'.add hn hlive
  rw [zero_add, add_comm] at hboth
  refine hQ d v table w s' (h.create ?_ ⟨hok _, hT, fun hne => ?_, rfl⟩)
  · rw [dictShape_foot]
    exact hu.trans hboth
  · obtain ⟨bs, hbs⟩ := hv hne
    exact ⟨bs, hbs.congr (hu'.same hn hlive v (dataBlock_self hne))⟩

theorem OwnDicts.dictAdd {Q : Addr → State Globals → Prop} (h : OwnDicts T m₀ s.mem (x ::ₘ W))
    (hQ : ∀ p s', OwnDicts T m₀ s'.mem (x.add p key val ::ₘ W) → Q x.addr s') :
    wp Safe (dictAdd L T x.addr key val) Q s := by
  obtain ⟨hx, hn, hlive⟩ := h.usable
  refine (wp_dictAdd (E := Safe) rfl (Or.inl hx.hashOf) hx.ok (Multiset.nodup_add.mp hn).1).mono fun r s' hpost => ?_
  obtain ⟨rfl, p, -, hu, hok⟩ := hpost
  have hboth := hu.add hn hlive
  rw [add_comm, add_comm (x.add p key val).foot] at hboth
  refine hQ p s' (h.replace ?_ ⟨hok, hx.hash, fun hne => ?_, hx.ht1⟩)
  · rw [dictShape_foot, dictShape_foot]
    exact hboth
  · obtain ⟨bs, hbs⟩ := hx.data hne
    exact ⟨bs, hbs.congr (hu.same hn hlive _ (dataBlock_self hne))⟩

theorem OwnDicts.dictRelease {Q : Unit → State Globals → Prop} (h : OwnDicts T m₀ s.mem (x ::ₘ W))
    (hQ : ∀ s', OwnDicts T m₀ s'.mem W → Q () s') : wp Safe (dictRelease x.addr) Q s := by
  obtain ⟨hx, hn, -⟩ := h.usable
  obtain ⟨hfoot, -, hdisj⟩ := Multiset.nodup_add.mp hn
  obtain ⟨bs, hbs⟩ : ∃ bs, x.privdata ≠ NULL → Holds s.mem x.privdata bs := by
    by_cases hne : x.privdata = NULL
    · exact ⟨[], fun h => absurd hne h⟩
    · obtain ⟨bs, hbs⟩ := hx.data hne
      exact ⟨bs, fun _ => hbs⟩
  have hpriv : x.privdata ≠ NULL → Holds s.mem x.privdata bs ∧ x.privdata ∉ x.foot := fun hne =>
    ⟨hbs hne, Multiset.disjoint_right.mp hdisj (dataBlock_self hne)⟩
  refine (wp_dictRelease hx.ok hfoot hx.ht1 hpriv).mono fun _ s' hfreed => hQ s' (h.destroy ?_)
  exact ⟨Multiset.nodup_zero, fun p hp => absurd hp (Multiset.notMem_zero p), fun p hp _ => hfreed.gone p hp,
    fun p hp _ => hfreed.frame p hp⟩

end Rules

/-- The handles of the client are the dicts on its heap. -/
structure Dicted (ds : Multiset Addr) (A : Multiset Filed) (W : Multiset DDict) : Prop where
  handles : ds = W.map DDict.addr
  told : A = W.map DDict.told

theorem find_dict (hd : d ∈ W.map DDict.addr) : ∃ x W', W = x ::ₘ W' ∧ x.addr = d := by
  obtain ⟨x, hx, rfl⟩ := Multiset.mem_map.mp hd
  obtain ⟨W', hW⟩ := Multiset.exists_cons_of_mem hx
  exact ⟨x, W', hW, rfl⟩

theorem keeps_dicts (L : Libc) (T : Addr → Option dictType) (op : DCall) : Keeps ((dicts L T).exec op) := by
  cases op with
  | dictCreate type data =>
    have hdata : Keeps (newData L data) := by
      cases data with
      | none => exact keeps_pure _
      | some data => exact keeps_newValue _ _
    exact hdata.bind fun _ => settled_law.dictCreate L _ _
  | dictAdd d key val => exact settled_law.dictAdd L T d key val
  | dictRelease d => exact Keeps.bind (settled_law.dictRelease d) fun _ => keeps_pure _

theorem dicts_component (L : Libc) (T : Addr → Option dictType) :
    Refines Safe (dicts L T) (dictShape T).many Dicted DictStep := by
  refine Refines.of_sat (fun m S => ?_) ?_
  · obtain ⟨m₁, hgone, hkept⟩ := exists_without m S
    exact ⟨m₁, hgone, hkept⟩
  intro m₁ s ds A W op hW hD hlegal
  obtain ⟨rfl, rfl⟩ := hD
  cases op with
  | dictCreate type data =>
    refine OwnDicts.dictCreate hW hlegal.1 hlegal.2 fun d v table w s' hW' => ?_
    refine ⟨_, _, .create ?_, ⟨?_, ?_⟩, hW'⟩
    · rw [Multiset.map_map]
      exact hW'.addr_notMem
    · exact (Multiset.map_cons DDict.addr (DDict.new d type v table w) W).symm
    · exact (Multiset.map_cons DDict.told (DDict.new d type v table w) W).symm
  | dictAdd d key val =>
    obtain ⟨x, W', rfl, rfl⟩ := find_dict hlegal
    refine OwnDicts.dictAdd hW fun p s' hW' => ⟨_, _, ?_, ⟨?_, (Multiset.map_cons _ _ _).symm⟩, hW'⟩
    · rw [Multiset.map_cons]
      exact .add
    · exact (Multiset.map_cons _ x W').trans (Multiset.map_cons DDict.addr (x.add p key val) W').symm
  | dictRelease d =>
    obtain ⟨x, W', rfl, rfl⟩ := find_dict hlegal
    refine wp_bind.mpr (OwnDicts.dictRelease hW fun s' hW' => wp_pure.mpr ⟨_, W', ?_, ⟨?_, rfl⟩, hW'⟩)
    · rw [Multiset.map_cons]
      exact .release
    · change (Multiset.map DDict.addr (x ::ₘ W')).erase x.addr = _
      rw [Multiset.map_cons, Multiset.erase_cons_head]

end Redis
