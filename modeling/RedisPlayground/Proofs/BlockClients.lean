import RedisPlayground.Memory.Components
import RedisPlayground.Proofs.ZmallocRuns
import RedisPlayground.Proofs.Strings
import RedisPlayground.Proofs.DictClients

/-! The blocks of a client as a component: a block keeps the bytes that were
stored into it until it is freed, and its first bytes when it is moved. -/

namespace Redis

open CMem

def blocks (L : Libc) : Component Globals (Multiset Addr) ZOp Addr where
  exec op := op.exec L
  Legal s ps
    | .zmalloc size => size.toNat + 8 < 2 ^ 64
    | .zremalloc p size => (p = NULL ∨ p ∈ ps) ∧ size.toNat + 8 < 2 ^ 64
    | .zfree p | .safe_zfree p => p = NULL ∨ p ∈ ps
    | .store p off bytes => p ∈ ps ∧ ∃ n, zsizeof p s = .ok (n, s) ∧ off + bytes.length ≤ n.toNat
  handles ps
    | .zmalloc _, r => r ::ₘ ps
    | .zremalloc p _, r => r ::ₘ ps.erase p
    | .zfree p, _ | .safe_zfree p, _ => ps.erase p
    | .store _ _ _, _ => ps

/-- The same calls on pointers with the bytes behind them. -/
inductive BlockStep : Multiset (Addr × List Byte) → ZOp × Addr → Multiset (Addr × List Byte) → Prop where
  | zmalloc {A size r bs} : r ∉ A.map Prod.fst → bs.length = size.toNat →
      BlockStep A (.zmalloc size, r) ((r, bs) ::ₘ A)
  | zremalloc_null {A size r bs} : r ∉ A.map Prod.fst → bs.length = size.toNat →
      BlockStep A (.zremalloc NULL size, r) ((r, bs) ::ₘ A)
  | zremalloc {A p old size r bs} : r ∉ A.map Prod.fst → bs.length = size.toNat →
      bs.take old.length = old.take size.toNat →
      BlockStep ((p, old) ::ₘ A) (.zremalloc p size, r) ((r, bs) ::ₘ A)
  | zfree {A p old r} : BlockStep ((p, old) ::ₘ A) (.zfree p, r) A
  | zfree_null {A r} : BlockStep A (.zfree NULL, r) A
  | safe_zfree {A p old} : BlockStep ((p, old) ::ₘ A) (.safe_zfree p, NULL) A
  | safe_zfree_null {A} : BlockStep A (.safe_zfree NULL, NULL) A
  | store {A p old off xs} : off + xs.length ≤ old.length →
      BlockStep ((p, old) ::ₘ A) (.store p off xs, p) ((p, splice old off xs) ::ₘ A)

def blockShape : Shape Mem Addr (List Byte) (Addr × List Byte) where
  view := block
  foot o := {o.1}
  Ok m o := Holds m o.1 o.2
  live h hp := Multiset.mem_singleton.mp hp ▸ h.live
  congr hm h := h.congr (hm _ (Multiset.mem_singleton_self _))

variable {L : Libc} {s s' : State Globals} {p r : Addr} {size : Word} {old bs : List Byte} {m m₀ : Mem}
  {A : Multiset (Addr × List Byte)} {off : ℕ}

@[simp] theorem blockShape_foot {o : Addr × List Byte} : blockShape.foot o = {o.1} := rfl

theorem keeps_blocks (L : Libc) (op : ZOp) : Keeps ((blocks L).exec op) := by
  cases op with
  | zmalloc size => exact keeps_zmalloc L size
  | zremalloc p size => exact keeps_zremalloc L p size
  | zfree p => exact (keeps_zfree p).bind fun _ => keeps_pure _
  | safe_zfree p => exact settled_law.safe_zfree p
  | store p off bytes => exact (keeps_setBytes _ _ _).bind fun _ => keeps_pure _

/-- The blocks of a client next to the memory `m₀` it began with. -/
abbrev OwnBlocks (m₀ m : Mem) (A : Multiset (Addr × List Byte)) : Prop := blockShape.Sat m₀ m A

theorem OwnBlocks.notMem (h : OwnBlocks m₀ m ((r, bs) ::ₘ A)) : r ∉ A.map Prod.fst := by
  intro hmem
  obtain ⟨o, ho, rfl⟩ := Multiset.mem_map.mp hmem
  have hn := h.nodup
  rw [Shape.owned_cons, Multiset.nodup_add] at hn
  exact Multiset.disjoint_left.mp hn.2.2 (Multiset.mem_singleton_self o.1)
    (Multiset.mem_of_le (Shape.foot_le_owned ho) (Multiset.mem_singleton_self o.1))

theorem OwnBlocks.null_notMem (h : OwnBlocks m₀ m A) : NULL ∉ A.map Prod.fst := by
  intro hmem
  obtain ⟨o, ho, hnull⟩ := Multiset.mem_map.mp hmem
  have ho : Holds m o.1 o.2 := h.ok o ho
  exact ho.ne_null hnull

theorem OwnBlocks.zmalloc {Q : Addr → State Globals → Prop} (h : OwnBlocks m₀ s.mem A)
    (hsize : size.toNat + 8 < 2 ^ 64)
    (hQ : ∀ r bs s', bs.length = size.toNat → OwnBlocks m₀ s'.mem ((r, bs) ::ₘ A) → Q r s') :
    wp Safe (zmalloc L size) Q s := by
  refine wp_zmalloc rfl hsize fun r raw _ hlen hfresh => ?_
  have hlen' : (raw.drop 8).length = size.toNat := by
    rw [List.length_drop, hlen, Nat.add_sub_cancel_left]
  refine hQ r (raw.drop 8) _ hlen' (h.create (updates_put hfresh.block) ?_)
  exact hfresh.put (by omega)

theorem OwnBlocks.zremalloc {Q : Addr → State Globals → Prop} (h : OwnBlocks m₀ s.mem ((p, old) ::ₘ A))
    (hsize : size.toNat + 8 < 2 ^ 64)
    (hQ : ∀ r bs s', bs.length = size.toNat → bs.take old.length = old.take size.toNat →
      OwnBlocks m₀ s'.mem ((r, bs) ::ₘ A) → Q r s') : wp Safe (zremalloc L p size) Q s := by
  have hp : Holds s.mem p old := h.ok (p, old) (Multiset.mem_cons_self _ _)
  refine wp_zremalloc (fun _ => rfl) hp hsize fun r bs hlen htake _ hfresh => ?_
  exact hQ r bs _ hlen htake (h.replace (updates_move hfresh.block) (hfresh.put (by omega)))

theorem OwnBlocks.zfree {Q : Unit → State Globals → Prop} (h : OwnBlocks m₀ s.mem ((p, old) ::ₘ A))
    (hQ : ∀ s', OwnBlocks m₀ s'.mem A → Q () s') : wp Safe (zfree p) Q s := by
  have hp : Holds s.mem p old := h.ok (p, old) (Multiset.mem_cons_self _ _)
  refine (wp_zfree hp).mpr (hQ _ (h.destroy ?_))
  exact updates_del (S := 0) (Multiset.nodup_singleton p)

theorem OwnBlocks.store {Q : Unit → State Globals → Prop} {xs : List Byte}
    (h : OwnBlocks m₀ s.mem ((p, old) ::ₘ A)) (hlen : off + xs.length ≤ old.length)
    (hQ : ∀ s', OwnBlocks m₀ s'.mem ((p, splice old off xs) ::ₘ A) → Q () s') :
    wp Safe (setBytes p off xs) Q s := by
  have hp : Holds s.mem p old := h.ok (p, old) (Multiset.mem_cons_self _ _)
  refine (wp_setBytes hp hlen).mpr (hQ _ (h.replace updates_put_self ?_))
  exact hp.put (splice_length hlen)

/-- The handles of the client are the pointers to its blocks. -/
structure Pointed (ps : Multiset Addr) (A W : Multiset (Addr × List Byte)) : Prop where
  told : A = W
  handles : ps = W.map Prod.fst

theorem find_block (hp : p ∈ A.map Prod.fst) : ∃ old B, A = (p, old) ::ₘ B := by
  obtain ⟨⟨q, old⟩, ho, rfl⟩ := Multiset.mem_map.mp hp
  obtain ⟨B, hB⟩ := Multiset.exists_cons_of_mem ho
  exact ⟨old, B, hB⟩

theorem Pointed.cons : Pointed (r ::ₘ A.map Prod.fst) ((r, bs) ::ₘ A) ((r, bs) ::ₘ A) :=
  ⟨rfl, (Multiset.map_cons Prod.fst (r, bs) A).symm⟩

theorem Pointed.erase : Pointed ((((p, old) ::ₘ A).map Prod.fst).erase p) A A :=
  ⟨rfl, by rw [Multiset.map_cons, Multiset.erase_cons_head]⟩

theorem Pointed.erase_null (hA : NULL ∉ A.map Prod.fst) : Pointed ((A.map Prod.fst).erase NULL) A A :=
  ⟨rfl, Multiset.erase_of_notMem hA⟩

theorem blocks_component (L : Libc) : Refines Safe (blocks L) blockShape.many Pointed BlockStep := by
  refine Refines.of_sat (fun m S => ?_) ?_
  · obtain ⟨m₁, hgone, hkept⟩ := exists_without m S
    exact ⟨m₁, hgone, hkept⟩
  intro m₁ s ps A W op hW hP hlegal
  obtain ⟨rfl, rfl⟩ := hP
  have hnull := OwnBlocks.null_notMem hW
  cases op with
  | zmalloc size =>
    exact OwnBlocks.zmalloc hW hlegal fun r bs s' hlen hW' => ⟨_, _, .zmalloc hW'.notMem hlen, Pointed.cons, hW'⟩
  | zremalloc p size =>
    obtain ⟨hp | hp, hsize⟩ := hlegal
    · subst hp
      have hexec : zremalloc L NULL size = zmalloc L size := if_pos rfl
      change wp Safe (zremalloc L NULL size) _ s
      rw [hexec]
      refine OwnBlocks.zmalloc hW hsize fun r bs s' hlen hW' =>
        ⟨_, _, .zremalloc_null hW'.notMem hlen, ?_, hW'⟩
      change Pointed (r ::ₘ (A.map Prod.fst).erase NULL) _ _
      rw [Multiset.erase_of_notMem hnull]
      exact Pointed.cons
    · obtain ⟨old, B, rfl⟩ := find_block hp
      refine OwnBlocks.zremalloc hW hsize fun r bs s' hlen htake hW' =>
        ⟨_, _, .zremalloc hW'.notMem hlen htake, ?_, hW'⟩
      change Pointed (r ::ₘ (((p, old) ::ₘ B).map Prod.fst).erase p) _ _
      rw [Multiset.map_cons, Multiset.erase_cons_head]
      exact Pointed.cons
  | zfree p =>
    rcases hlegal with hp | hp
    · subst hp
      exact wp_bind.mpr (wp_zfree_null.mpr (wp_pure.mpr ⟨_, _, .zfree_null, Pointed.erase_null hnull, hW⟩))
    · obtain ⟨old, B, rfl⟩ := find_block hp
      exact wp_bind.mpr (OwnBlocks.zfree hW fun s' hW' => wp_pure.mpr ⟨_, _, .zfree, Pointed.erase, hW'⟩)
  | safe_zfree p =>
    rcases hlegal with hp | hp
    · subst hp
      exact wp_bind.mpr (wp_zfree_null.mpr (wp_pure.mpr ⟨_, _, .safe_zfree_null, Pointed.erase_null hnull, hW⟩))
    · obtain ⟨old, B, rfl⟩ := find_block hp
      exact wp_bind.mpr (OwnBlocks.zfree hW fun s' hW' => wp_pure.mpr ⟨_, _, .safe_zfree, Pointed.erase, hW'⟩)
  | store p off xs =>
    obtain ⟨hp, n, hn, hoff⟩ := hlegal
    obtain ⟨old, B, rfl⟩ := find_block hp
    have hold : Holds s.mem p old := hW.ok (p, old) (Multiset.mem_cons_self _ _)
    have hsize : zsizeof p s = .ok (BitVec.ofNat 64 old.length, s) := wp.eq_ok ((wp_zsizeof hold).mpr ⟨rfl, rfl⟩)
    obtain rfl : BitVec.ofNat 64 old.length = n := (Prod.mk.inj (Except.ok.inj (hsize.symm.trans hn))).1
    have hlen : off + xs.length ≤ old.length := by
      have hfits := hold.fits
      rw [BitVec.toNat_ofNat, Nat.mod_eq_of_lt (by omega)] at hoff
      exact hoff
    refine wp_bind.mpr (OwnBlocks.store hW hlen fun s' hW' => wp_pure.mpr ⟨_, _, .store hlen, ⟨rfl, ?_⟩, hW'⟩)
    exact (Multiset.map_cons _ _ _).trans (Multiset.map_cons Prod.fst (p, splice old off xs) B).symm

end Redis
