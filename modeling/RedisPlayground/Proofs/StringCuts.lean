import RedisPlayground.Proofs.Ranges
import RedisPlayground.Proofs.TerminatorRuns
import RedisPlayground.Proofs.Trims

/-! `sdstrim` and `sdsrange` on a string with known content: what they cut off
becomes room, and a terminator is stored in front of it. -/

namespace Redis

open CMem

/-- The indices of a range that ends inside a string of `n` characters, or is empty. -/
def InRange (n : ℕ) (i j : ℤ) : Prop := n ≠ 0 → if i ≤ j then j < n else i ≤ n

instance {n : ℕ} {i j : ℤ} : Decidable (InRange n i j) :=
  inferInstanceAs (Decidable (n ≠ 0 → if i ≤ j then j < n else i ≤ n))

variable {s : State Globals} {p : Addr} {c room cs : List Byte} {n : ℕ} {w i j : Word} {E : Stop → Prop}
  {m : Mem} {cset : CharPtr}

theorem strBuf_len (h : IsStr m p c room) : (strBuf c room).len.toNat = c.length :=
  length_toNat (h.len_lt.trans (by decide))

theorem strBuf_chars : (strBuf c room).chars.length = c.length + room.length := List.length_append

theorem strBuf_content (h : IsStr m p c room) : (strBuf c room).content = c := by
  rw [Buf.content, strBuf_len h]
  exact List.take_left

/-- What is kept is the content, and what is cut off is room. -/
theorem IsStr.keep {m' : Mem} (h : IsStr m p c room) (hw : w.toNat ≤ c.length)
    (hn : n + w.toNat ≤ (strBuf c room).chars.length) (hm : StrAt m' p ((strBuf c room).keep n w)) :
    IsStr m' p (slice (c ++ room) n w.toNat) (0 :: (c ++ room).drop (w.toNat + 1)) := by
  have hpos := h.room_pos
  have hlt := h.size_lt
  have hlen := strBuf_len h
  have hslice : (slice (c ++ room) n w.toNat).length = w.toNat := slice_length hn
  have hrest : ((c ++ room).drop (w.toNat + 1)).length = c.length + room.length - (w.toNat + 1) := by
    rw [List.length_drop, List.length_append]
  have hfree : ((strBuf c room).free + ((strBuf c room).len - w)).toNat =
      (0 :: (c ++ room).drop (w.toNat + 1) : List Byte).length - 1 := by
    rw [List.length_cons, Nat.add_sub_cancel, hrest, BitVec.toNat_add, BitVec.toNat_sub, hlen, strBuf,
      length_toNat (by omega)]
    omega
  have hbuf : (strBuf c room).keep n w =
      strBuf (slice (c ++ room) n w.toNat) (0 :: (c ++ room).drop (w.toNat + 1)) :=
    (Buf.mk.injEq _ _ _ _ _ _).mpr ⟨eq_ofNat hslice.symm, eq_ofNat hfree, rfl⟩
  refine ⟨hbuf ▸ hm, List.mem_cons_self, h.ne_null, ?_, ?_⟩
  · rw [hslice]
    exact hw.trans_lt h.len_lt
  · rw [hslice, List.length_cons, hrest]
    omega

theorem wp_sdstrim_str {Q : Addr → State Globals → Prop} (h : IsStr s.mem p c room) (hnul : Terminated s p)
    (hcs : cstring cset s = .ok (cs, s))
    (hQ : ∀ s' rest, Updates s.mem s'.mem {base p} {base p} →
      IsStr s'.mem p (strip (matched cs) c) (0 :: rest) → Q p s') :
    wp E (sdstrim p cset) Q s := by
  have hpos := h.room_pos
  have hlen := strBuf_len h
  have hshort := h.len_lt
  have hint : (strBuf c room).intLen = c.length := by
    have hlow : (BitVec.ofNat 64 c.length).setWidth 32 = BitVec.ofNat 32 c.length :=
      BitVec.setWidth_ofNat_of_le (show 32 ≤ 64 by decide) c.length
    rw [Buf.intLen, strBuf, hlow, BitVec.toInt_eq_toNat_of_lt] <;> rw [BitVec.toNat_ofNat] <;> omega
  have hscanned : (strBuf c room).scanned = c := by
    rw [Buf.scanned, hint, strBuf_content h]
    exact List.take_of_length_le (by omega)
  have hwindow : strip (matched cs) (strBuf c room).window = strip (matched cs) c := by
    rw [strip_window ((terminated_iff h.str).mp hnul), hscanned]
  have hle : (strip (matched cs) c).length ≤ c.length := strip_sublist.length_le
  have hchars : (strBuf c room).chars.length = c.length + room.length := strBuf_chars
  apply wp_sdstrim h.str (by omega) hcs
  · rw [hwindow]
    exact Or.inr (by omega)
  · intro n w m hn _ hslice hm
    rw [hwindow] at hslice
    have hw := congrArg List.length hslice
    rw [slice_length hn] at hw
    have hkeep := h.keep (hw.trans_le hle) hn hm.str
    have hsame : slice (c ++ room) n w.toNat = strip (matched cs) c := hslice
    rw [hsame] at hkeep
    exact hQ _ _ hm.update hkeep

theorem wp_sdsrange_nil {Q : Addr → State Globals → Prop} (h : IsStr s.mem p [] room) (hQ : Q p s) :
    wp E (sdsrange p i j) Q s := by
  rw [sdsrange, wp_bind, wp_sdslenSize h.str (by decide), List.length_nil,
    if_pos (show (0#64 : Word) = 0 from rfl), wp_pure]
  exact hQ

theorem wp_sdsrange_cons {Q : Addr → State Globals → Prop} (h : IsStr s.mem p c room) (hne : c ≠ [])
    (hin : InRange c.length (fromEnd i.toInt c.length) (fromEnd j.toInt c.length))
    (hQ : ∀ s' rest, Updates s.mem s'.mem {base p} {base p} →
      IsStr s'.mem p (part c (fromEnd i.toInt c.length) (fromEnd j.toInt c.length)) (0 :: rest) → Q p s') :
    wp E (sdsrange p i j) Q s := by
  have hpos := h.room_pos
  have hshort := h.len_lt
  have hlen := strBuf_len h
  have hchars : (strBuf c room).chars.length = c.length + room.length := strBuf_chars
  have hk0 : 0 ≤ fromEnd i.toInt c.length := fromEnd_nonneg
  have hl0 : 0 ≤ fromEnd j.toInt c.length := fromEnd_nonneg
  have hc : 0 < c.length := List.length_pos_iff.mpr hne
  generalize hk : fromEnd i.toInt c.length = k at hin hQ hk0
  generalize hl : fromEnd j.toInt c.length = l at hin hQ hl0
  have hin := hin (Nat.ne_of_gt hc)
  have hcut : (l - k + 1).toNat ≤ c.length ∧ k.toNat + (l - k + 1).toNat ≤ c.length := by
    split at hin <;> omega
  have hlen0 : (strBuf c room).len ≠ 0 := fun h0 => by
    rw [h0] at hlen
    exact absurd hlen (Nat.ne_of_lt hc)
  refine wp_sdsrange h.str (by omega) hlen0 (hlen.symm ▸ hk) (hlen.symm ▸ hl) (Or.inr (by omega)) ?_
  intro _ _ w m hw hm
  have hkeep := h.keep (by omega) (by omega) hm.str
  have hpart : slice (c ++ room) k.toNat w.toNat = part c k l := by
    rw [hw, part_eq_slice hk0 hl0, slice_append_left hcut.2]
  rw [hpart] at hkeep
  exact hQ _ _ hm.update hkeep

theorem wp_sdsrange_str {Q : Addr → State Globals → Prop} (h : IsStr s.mem p c room)
    (hin : InRange c.length (fromEnd i.toInt c.length) (fromEnd j.toInt c.length))
    (hQ : ∀ s' room', Updates s.mem s'.mem {base p} {base p} →
      IsStr s'.mem p (part c (fromEnd i.toInt c.length) (fromEnd j.toInt c.length)) room' → Q p s') :
    wp E (sdsrange p i j) Q s := by
  by_cases hne : c = []
  · subst hne
    rw [part, List.take_nil, List.drop_nil] at hQ
    exact wp_sdsrange_nil h (hQ s room (Update.refl (Multiset.nodup_singleton _)) h)
  · exact wp_sdsrange_cons h hne hin fun s' rest hu hstr => hQ s' _ hu hstr

end Redis
