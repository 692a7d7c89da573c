import RedisPlayground.Proofs.DictTables

/-! The tables that `dictExpand` installs. It asks for the bytes of a table
without a look at the range of `size_t`. -/

namespace Redis

open CMem

/-- A table whose block has all the slots that its header speaks of. -/
structure TableFits (ht : dictht) (s : State Globals) : Prop where
  bytes : ∃ raw, block s.mem ht.table = some raw ∧ 8 + ht.size.toNat * 8 ≤ raw.length
  size : ∃ k, ht.size.toNat = 2 ^ k
  initial : DICT_HT_INITIAL_SIZE ≤ ht.size
  sizemask : ht.sizemask = ht.size - 1
  index : ∀ h, (h &&& ht.sizemask).toNat < ht.size.toNat ∧
    ∃ w, getField ht.table (h &&& ht.sizemask).toNat s = .ok (w, s)

/-- One of the tables of `d` is new since `s`, and it has its slots. -/
def Installed (d : Addr) (s s' : State Globals) : Prop :=
  ∃ j < 2, ∃ ht, getHt d j s' = .ok (ht, s') ∧ block s.mem ht.table = none ∧ TableFits ht s'

variable {L : Libc} {T : Addr → Option dictType} {hash : Addr → Word} {s s' s₀ s₁ : State Globals}
  {x : DDict} {d type privdata table rehash : Addr} {size n : Word} {ws : List Word} {H : History}
  {tr : List ((State Globals × History) × DOp)}

/-- A size up to 2^60 has a power of two whose bytes a `size_t` can say. -/
theorem nextPower_bytes (hsize : size.toNat ≤ 2 ^ 60) (hn : _dictNextPower size s = .ok (n, s)) :
    (n * 8).toNat = 8 * n.toNat ∧ ∃ k, 2 ≤ k ∧ n.toNat = 2 ^ k := by
  rw [dictNextPower_eq_nextPower] at hn
  obtain rfl := (Prod.mk.inj (Except.ok.inj hn)).1
  have hle : Nat.clog 2 (max size.toNat 4) ≤ 60 := (clog_le_iff (by decide)).mpr hsize
  have hpow : nextPower size.toNat = 2 ^ Nat.clog 2 (max size.toNat 4) :=
    congrArg _ (min_eq_right (hle.trans (by decide)))
  rw [hpow, pow_bytes (hle.trans (by decide)), toNat_pow (hle.trans (by decide)), if_pos hle]
  exact ⟨rfl, _, two_le_clog, rfl⟩

/-- For a larger one the bytes wrap around to none. -/
theorem nextPower_no_bytes (hsize : ¬ size.toNat ≤ 2 ^ 60) (hn : _dictNextPower size s = .ok (n, s)) :
    n * 8 = 0 ∧ n ≠ DICT_HT_INITIAL_SIZE := by
  rw [dictNextPower_eq_nextPower] at hn
  obtain rfl := (Prod.mk.inj (Except.ok.inj hn)).1
  have hlt : 60 < Nat.clog 2 (max size.toNat 4) := by
    by_contra hle
    exact hsize ((clog_le_iff (by decide)).mp (by omega))
  have hge : 60 < min 63 (Nat.clog 2 (max size.toNat 4)) := lt_min (by decide) hlt
  constructor
  · apply BitVec.eq_of_toNat_eq
    unfold nextPower
    rw [pow_bytes (min_le_left _ _)]
    exact if_neg (by exact not_le.mpr hge)
  · intro heq
    have hpow := congrArg BitVec.toNat heq
    rw [nextPower_toNat] at hpow
    have hlarge : 2 ^ 60 < nextPower size.toNat := Nat.pow_lt_pow_right (by decide) hge
    rw [hpow] at hlarge
    exact absurd hlarge (by decide)

theorem DDict.Ok.installed (h : x.Ok hash s.mem) (hn : x.foot.Nodup) (hnew : block s.mem table = none)
    (hc : Cells s.mem s'.mem [(table, ws), (x.addr, (x.expand table n rehash).header)])
    (hlen : ws.length = n.toNat) (hpow : ∃ k, 2 ≤ k ∧ n.toNat = 2 ^ k) : Installed x.addr s s' := by
  obtain ⟨k, hk, hpow⟩ := hpow
  have hbig : 2 ^ 2 ≤ 2 ^ k := Nat.pow_le_pow_right Nat.two_pos hk
  have hok := (h.expand hn hnew hc).2.2
  have htable : Holds s'.mem table (words ws) := hc.get_holds 0 rfl
  have hget : getHt x.addr 1 s' = .ok (⟨table, n, n - 1, 0⟩, s') := getHt_one hok
  refine ⟨1, by decide, _, hget, hnew, ?_, ⟨k, hpow⟩, ?_, rfl, fun h => ?_⟩
  · refine ⟨_, htable.block, ?_⟩
    rw [List.length_append, wordBytes_length, words_length, hlen, mul_comm]
  · rw [BitVec.le_def]
    change 4 ≤ n.toNat
    omega
  · have hne : n ≠ 0 := by
      rintro rfl
      change 0 = _ at hpow
      omega
    have hlt : (h &&& (n - 1)).toNat < n.toNat := mask_lt hne
    have hslot : ws[(h &&& (n - 1)).toNat]? = some _ := List.getElem?_eq_getElem (hlen ▸ hlt)
    exact ⟨hlt, _, getField_ok htable hslot⟩

theorem dictExpand_fits_iff (h : x.Ok hash s.mem) (hn : x.foot.Nodup) :
    wp Safe (dictExpand L x.addr size) (fun r s' => r = DICT_OK → Installed x.addr s s') s ↔
      size.toNat ≤ 2 ^ 60 ∨ L.malloc s.trace s.mem PREFIX_SIZE = none := by
  by_cases hsize : size.toNat ≤ 2 ^ 60
  · refine iff_of_true ?_ (Or.inl hsize)
    refine wp_dictExpand (fun _ _ _ => rfl) h (fun _ herr => absurd herr (by decide)) ?_
    intro n table raw ws rehash s' hpow _ _ _ hlen hnew hc _
    obtain ⟨hbytes, hpow⟩ := nextPower_bytes hsize hpow
    exact h.installed hn hnew hc (by rw [hlen, hbytes, Nat.mul_div_cancel_left _ (by decide)]) hpow
  · rw [or_iff_right hsize]
    constructor
    · intro hsafe
      by_contra hserved
      have hwrap : wp (· ≠ .abort) (dictExpand L x.addr size)
          (fun r s' => r = DICT_OK ∧ ¬ Installed x.addr s s') s := by
        apply wp_dictExpand _ h
        · intro heq
          exact absurd rfl (nextPower_no_bytes hsize heq).2
        · intro n table raw ws rehash s' hpow hne _ _ hlen hnew hc
          obtain ⟨hbytes, -⟩ := nextPower_no_bytes hsize hpow
          have hok := (h.expand hn hnew hc).2.2
          have hget₁ : getHt x.addr 1 s' = .ok (⟨table, n, n - 1, 0⟩, s') := getHt_one hok
          refine ⟨rfl, ?_⟩
          rintro ⟨j, hj, ht, hget, hfresh, hfits⟩
          interval_cases j
          · obtain rfl := (Prod.mk.inj (Except.ok.inj ((getHt_zero hok).symm.trans hget))).1
            exact h.slots.live hfresh
          · obtain rfl := (Prod.mk.inj (Except.ok.inj (hget₁.symm.trans hget))).1
            obtain ⟨raw', hraw', hle⟩ := hfits.bytes
            have htable : Holds s'.mem table (words ws) := hc.get_holds 0 rfl
            obtain rfl := Option.some.inj (hraw'.symm.trans htable.block)
            have hinitial := BitVec.le_def.mp hfits.initial
            rw [hbytes] at hlen
            rw [List.length_append, wordBytes_length, words_length, hlen] at hle
            change 4 ≤ n.toNat at hinitial
            change 8 + n.toNat * 8 ≤ 8 + 8 * (0 / 8) at hle
            omega
        · intro n hpow hnone
          rw [(nextPower_no_bytes hsize hpow).1, zero_add] at hnone
          exact absurd hnone hserved
      obtain ⟨r, s', hinstalled, hr, hnot⟩ := hsafe.clash hwrap
      exact hnot (hinstalled hr)
    · intro hrefused
      refine wp_dictExpand (fun _ _ _ => rfl) h (fun _ herr => absurd herr (by decide)) ?_
      intro n table raw ws rehash s' hpow _ hraw
      rw [(nextPower_no_bytes hsize hpow).1, zero_add, hrefused] at hraw
      contradiction

/-- In every run the table that an expansion installs has the slots that it says, exactly if the
requested size is at most 2^60, or the allocator refuses the 8 bytes that the others ask for. -/
theorem dict_tables_fit_iff (L : Libc) (T : Addr → Option dictType) (type privdata : Addr)
    (s₀ s₁ s : State Globals) (d : Addr) (hnew : dictCreate L type privdata s₀ = .ok (d, s₁))
    (H : History) (tr : List ((State Globals × History) × DOp))
    (h : Run (dstep L T d) (s₁, []) tr (s, H)) (size : Word) :
    wp Safe (dictExpand L d size) (fun r s' => r = DICT_OK → Installed d s s') s ↔
      size.toNat ≤ 2 ^ 60 ∨ L.malloc s.trace s.mem PREFIX_SIZE = none := by
  obtain ⟨x, rfl, rfl, ws, hx⟩ := Kept.run hnew h
  exact dictExpand_fits_iff hx.tabled.ok hx.tabled.nodup

theorem dict_tables_fit_iff_large :
    wp Safe (dictExpand (bump 0) 0x1008 100) (fun r s' => r = DICT_OK → Installed 0x1008 dict₃ s') dict₃ ↔
      (100 : Word).toNat ≤ 2 ^ 60 ∨ (bump 0).malloc dict₃.trace dict₃.mem PREFIX_SIZE = none :=
  dict_tables_fit_iff (bump 0) plainType 1 NULL zinit dict₀ dict₃ 0x1008 dictCreate_dict₀
    [(9, 90), (5, 50)] expandRun run_expand 100

theorem dictExpand_not_fits (h : x.Ok hash s.mem) (hn : x.foot.Nodup) (hsize : ¬ size.toNat ≤ 2 ^ 60)
    (hserved : (L.malloc s.trace s.mem PREFIX_SIZE).isSome) :
    ¬ wp Safe (dictExpand L x.addr size) (fun r s' => r = DICT_OK → Installed x.addr s s') s := by
  rw [dictExpand_fits_iff h hn, or_iff_right hsize]
  exact Option.isSome_iff_ne_none.mp hserved

/-- A table of 2^61 slots is installed in a block without one. -/
theorem dictExpand_unfit : dictCreate (bump 0) 1 NULL zinit = .ok (0x1008, dict₀) ∧
    ¬ wp Safe (dictExpand (bump 0) 0x1008 0x2000000000000000)
      (fun r s' => r = DICT_OK → Installed 0x1008 dict₀ s') dict₀ := by
  refine ⟨dictCreate_dict₀, ?_⟩
  obtain ⟨x, hd, -, ws, hx⟩ := Kept.run (T := plainType) dictCreate_dict₀ Run.nil
  have hserved : ((bump 0).malloc dict₀.trace dict₀.mem PREFIX_SIZE).isSome := by decide +kernel
  rw [← hd]
  exact dictExpand_not_fits hx.tabled.ok hx.tabled.nodup (by decide) hserved

end Redis
