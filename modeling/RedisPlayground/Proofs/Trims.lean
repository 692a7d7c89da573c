import RedisPlayground.Memory.Margins
import RedisPlayground.Proofs.LongStrings

/-! When `sdstrim` removes what a set of characters matches, and nothing else. The
two scans begin at the value of `sdslen`, and `strchr` finds a NUL in every set. -/

namespace Redis

open CMem

/-- The characters `strchr` finds among `cs`. -/
def matched (cs : List Byte) (c : Byte) : Bool := decide (c = 0 ∨ c ∈ cs)

/-- The characters the scans look at. -/
def Buf.window (b : Buf) : List Byte := b.chars.take (b.intLen + 1).toNat

/-- The ones among them that belong to the content. -/
def Buf.scanned (b : Buf) : List Byte := b.content.take (b.intLen + 1).toNat

/-- The rest of the content. -/
def Buf.unscanned (b : Buf) : List Byte := b.content.drop (b.intLen + 1).toNat

variable {s : State Globals} {p : Addr} {b : Buf} {E : Stop → Prop} {n k : ℕ} {cset : CharPtr}
  {cs xs : List Byte} {c : Byte}

theorem wp_strchr {Q : Bool → State Globals → Prop} (hcs : cstring cset s = .ok (cs, s)) :
    wp E (strchr cset c) Q s ↔ Q (matched cs c) s := by
  unfold strchr
  rw [wp_bind, wp, hcs]
  rfl

theorem wp_getChar {Q : Byte → State Globals → Prop} (h : StrAt s.mem p b) (hn : n < b.chars.length) :
    wp E (getChar p n) Q s ↔ Q b.chars[n] s := by
  rw [getChar, wp_bind, ← base, wp_getChars h hn, slice_singleton hn]
  rfl

theorem wp_sdstrimFront {Q : ℤ → State Globals → Prop} (h : StrAt s.mem p b)
    (hcs : cstring cset s = .ok (cs, s)) (hn : k + n ≤ b.chars.length) :
    wp E (sdstrimFront p cset n k) Q s ↔
      Q (k + ((slice b.chars k n).takeWhile (matched cs)).length : ℕ) s := by
  induction n generalizing k with
  | zero => simp [sdstrimFront]
  | succ n ih =>
    have hslice : slice b.chars k (n + 1) = b.chars[k] :: slice b.chars (k + 1) n := by
      rw [slice, List.drop_eq_getElem_cons (by omega), List.take_succ_cons, slice]
    rw [sdstrimFront, Int.toNat_natCast, wp_bind, wp_getChar h (by omega), wp_bind, wp_strchr hcs, hslice,
      List.takeWhile_cons]
    by_cases hm : matched cs b.chars[k]
    · rw [if_pos hm, if_pos hm, ← Nat.cast_succ, ih (by omega), List.length_cons]
      rw [show k + 1 + ((slice b.chars (k + 1) n).takeWhile (matched cs)).length =
        k + (((slice b.chars (k + 1) n).takeWhile (matched cs)).length + 1) by omega]
    · rw [if_neg hm, if_neg hm, wp_pure, List.length_nil, Nat.add_zero]

theorem wp_sdstrimBack {Q : ℤ → State Globals → Prop} (h : StrAt s.mem p b)
    (hcs : cstring cset s = .ok (cs, s)) (hn : n < b.chars.length) :
    wp E (sdstrimBack p cset n n) Q s ↔
      Q (n - ((slice b.chars 1 n).rtakeWhile (matched cs)).length : ℕ) s := by
  induction n with
  | zero => simp [sdstrimBack]
  | succ n ih =>
    have hslice : slice b.chars 1 (n + 1) = slice b.chars 1 n ++ [b.chars[n + 1]] := by
      have hlen : n < (b.chars.drop 1).length := by
        rw [List.length_drop]
        omega
      rw [slice, slice, List.take_succ_eq_append_getElem hlen, List.getElem_drop]
      congr 3
      omega
    rw [sdstrimBack, Int.toNat_natCast, wp_bind, wp_getChar h hn, wp_bind, wp_strchr hcs, hslice,
      List.rtakeWhile_concat]
    by_cases hm : matched cs b.chars[n + 1]
    · rw [if_pos hm, if_pos hm, Nat.cast_succ, add_sub_cancel_right, ih (by omega), List.length_append,
        List.length_singleton, Nat.add_sub_add_right]
    · rw [if_neg hm, if_neg hm, wp_pure, List.length_nil, Nat.sub_zero]

/-- The terminator is stripped with the rest of the margin. -/
theorem strip_window (hnul : b.chars[b.len.toNat]? = some 0) :
    strip (matched cs) b.window = strip (matched cs) b.scanned := by
  have hle := intLen_le (b := b)
  unfold Buf.window Buf.scanned Buf.content
  rcases Nat.lt_or_ge b.len.toNat (b.intLen + 1).toNat with hlt | hge
  · obtain ⟨hi, hget⟩ := List.getElem?_eq_some_iff.mp hnul
    have hend : b.chars.take (b.intLen + 1).toNat = b.chars.take b.len.toNat ++ [0] := by
      rw [show (b.intLen + 1).toNat = b.len.toNat + 1 by omega, List.take_succ_eq_append_getElem hi, hget]
    have hall : (b.chars.take b.len.toNat).take (b.intLen + 1).toNat = b.chars.take b.len.toNat := by
      rw [List.take_take, Nat.min_eq_right hlt.le]
    rw [hend, hall, strip_append_iff]
    simp [matched]
  · rw [List.take_take, Nat.min_eq_left hge]

theorem newlen_scans {i j : ℕ} (hj : j < 2 ^ 63) :
    (if (j : ℤ) < i then 0 else BitVec.ofInt 64 (j - i + 1) : Word).toNat =
      if j < i then 0 else j - i + 1 := by
  by_cases hlt : j < i
  · rw [if_pos (by omega), if_pos hlt]
    rfl
  · rw [if_neg (by omega), if_neg hlt, show (j : ℤ) - i + 1 = ((j - i + 1 : ℕ) : ℤ) by omega,
      BitVec.ofInt_natCast, BitVec.toNat_ofNat]
    omega

/-- The scans find the part of the buffer that is kept. -/
theorem wp_sdstrim {Q : Addr → State Globals → Prop} (h : StrAt s.mem p b)
    (hlen : b.len.toNat < b.chars.length) (hcs : cstring cset s = .ok (cs, s))
    (hE : E .ub ∨ (strip (matched cs) b.window).length < b.chars.length)
    (hQ : ∀ n w m, n + w.toNat ≤ b.chars.length → w.toNat < b.chars.length →
      slice b.chars n w.toNat = strip (matched cs) b.window →
      Makes s.mem {base p} m p (b.keep n w) → Q p { s with mem := m }) :
    wp E (sdstrim p cset) Q s := by
  have hle := intLen_le (b := b)
  have hint : b.intLen < 2 ^ 31 := BitVec.toInt_lt
  have hkeep : ∀ (i : ℕ) (w : Word), i + w.toNat ≤ b.chars.length →
      slice b.chars i w.toNat = strip (matched cs) b.window →
      wp E (do sdskeep p i w; return p) Q s := by
    intro i w hi hslice
    have hw := congrArg List.length hslice
    rw [slice_length hi] at hw
    rw [wp_bind]
    apply wp_sdskeep h (hE.imp_right fun hshort => ⟨hi, hw.trans_lt hshort⟩)
    intro _ hw m hm
    exact wp_pure.mpr (hQ i w m hi hw hslice hm)
  rw [sdstrim, wp_bind, wp_sdslen h, ← Buf.intLen]
  rcases lt_or_ge b.intLen 0 with hneg | hpos
  · have hnone : (b.intLen + 1).toNat = 0 := by omega
    dsimp only
    rw [hnone, Int.toNat_of_nonpos hneg.le]
    simp only [sdstrimFront, sdstrimBack, pure_bind]
    rw [if_pos hneg]
    apply hkeep
    · simp
    · rw [Buf.window, hnone]
      rfl
  · obtain ⟨l, hl⟩ := Int.eq_ofNat_of_zero_le hpos
    have hwin : (b.intLen + 1).toNat = l + 1 := by omega
    have hl' : l < b.chars.length := by omega
    have hcons : b.chars.take (l + 1) = b.chars[0] :: slice b.chars 1 l := by
      rw [slice, ← List.take_succ_cons, ← List.drop_eq_getElem_cons, List.drop_zero]
    have hlen' : (slice b.chars 1 l).length = l := slice_length (by omega)
    have hscans := @slice_scans _ (matched cs) (slice b.chars 1 l) b.chars[0] _ _ rfl rfl
    have hfront := (List.takeWhile_sublist (matched cs) (l := b.chars.take (l + 1))).length_le
    rw [← hcons, hlen'] at hscans
    rw [List.length_take_of_le hl'] at hfront
    rw [Buf.window, hwin] at hkeep
    dsimp only
    rw [hwin, hl, wp_bind]
    refine (wp_sdstrimFront (k := 0) h hcs (by omega)).mpr ?_
    rw [Int.toNat_natCast, wp_bind, wp_sdstrimBack h hcs hl', Nat.zero_add, slice_zero]
    generalize ((b.chars.take (l + 1)).takeWhile (matched cs)).length = i at hscans hfront ⊢
    generalize ((slice b.chars 1 l).rtakeWhile (matched cs)).length = j at hscans ⊢
    have hnew := newlen_scans (i := i) (j := l - j) (by omega)
    rw [← hnew, slice_take] at hscans
    · apply hkeep
      · rw [Int.toNat_natCast, hnew]
        split <;> omega
      · exact hscans
    · rw [hnew]
      split <;> omega

theorem cstring_nul (hcs : cstring cset s = .ok (cs, s)) : 0 ∉ cs := by
  have hwp : wp Any (cstring cset) (fun cs _ => 0 ∉ cs) s := by
    rw [cstring, wp_bind]
    apply wp_any
    intro bytes s' _
    rw [wp_ite]
    refine ⟨fun _ => wp_pure.mpr fun hmem => ?_, fun _ => trivial⟩
    simpa using List.mem_takeWhile_imp hmem
  exact hwp.of_ok hcs

theorem scanned_append : b.scanned ++ b.unscanned = b.content := List.take_append_drop _ _

theorem scanned_le (hb : b.WellFormed) : (strip (matched cs) b.scanned).length ≤ b.len.toNat := by
  rw [← hb.content_length, ← scanned_append (b := b), List.length_append]
  exact Nat.le_add_right_of_le strip_sublist.length_le

/-- A trimmed string, and where its content stood. -/
theorem sdstrim_ok (h : StrAt s.mem p b) (hb : b.WellFormed) (hnul : b.chars[b.len.toNat]? = some 0)
    (hcs : cstring cset s = .ok (cs, s)) : ∃ s' n w, sdstrim p cset s = .ok (p, s') ∧
      n + w.toNat ≤ b.chars.length ∧ slice b.chars n w.toNat = strip (matched cs) b.scanned ∧
      Makes s.mem {base p} s'.mem p (b.keep n w) := by
  have hsize := hb.size
  have hle : (strip (matched cs) b.scanned).length ≤ b.len.toNat := scanned_le hb
  have hwindow : strip (matched cs) b.window = strip (matched cs) b.scanned := strip_window hnul
  have hwp : wp Never (sdstrim p cset) (fun a s' => a = p ∧ ∃ n w, n + w.toNat ≤ b.chars.length ∧
      slice b.chars n w.toNat = strip (matched cs) b.scanned ∧
      Makes s.mem {base p} s'.mem p (b.keep n w)) s := by
    apply wp_sdstrim h (by omega) hcs
    · rw [hwindow]
      exact Or.inr (by omega)
    · intro n w m hn _ hslice hm
      exact ⟨rfl, n, w, hn, hslice.trans hwindow, hm⟩
  obtain ⟨a, s', hok, rfl, n, w, hn, hslice, hm⟩ := hwp.run
  exact ⟨s', n, w, hok, hn, hslice, hm⟩

theorem sdstrim_leaves_iff (h : StrAt s.mem p b) (hb : b.WellFormed)
    (hnul : b.chars[b.len.toNat]? = some 0) (hfree : 0 ∉ b.content)
    (hcs : cstring cset s = .ok (cs, s)) :
    (∃ s' b', sdstrim p cset s = .ok (p, s') ∧ Makes s.mem {base p} s'.mem p b' ∧
      Leaves b (strip (· ∈ cs) b.content) b') ↔
    (∀ c ∈ b.unscanned, c ∈ cs) ∧ b.Fits (strip (· ∈ cs) b.content).length := by
  obtain ⟨s', n, w, hok, hn, hslice, hm⟩ := sdstrim_ok h hb hnul hcs
  have hw := congrArg List.length hslice
  rw [slice_length hn] at hw
  have hle : w.toNat ≤ b.len.toNat := by
    rw [hw]
    exact scanned_le hb
  have hsame : strip (· ∈ cs) b.content = strip (matched cs) b.content := by
    apply strip_congr
    intro c hc
    have hne : c ≠ 0 := fun h0 => hfree (h0 ▸ hc)
    simp [matched, hne]
  have hiff : strip (· ∈ cs) b.content = slice b.chars n w.toNat ↔ ∀ c ∈ b.unscanned, c ∈ cs := by
    rw [hslice, hsame, ← scanned_append (b := b), strip_append_iff]
    apply forall₂_congr
    intro c hc
    have hne : c ≠ 0 := fun h0 => hfree (h0 ▸ List.mem_of_mem_drop hc)
    simp [matched, hne]
  have hsize := hb.size
  rw [Makes.exists_iff hok hm, hb.keep_iff hn (by omega), hiff]
  constructor
  · rintro ⟨-, hfits, hall⟩
    refine ⟨hall, ?_⟩
    rwa [hiff.mpr hall, slice_length hn]
  · rintro ⟨hall, hfits⟩
    rw [hiff.mpr hall, slice_length hn] at hfits
    exact ⟨hle, hfits, hall⟩

theorem sdstrim_drops_iff (h : StrAt s.mem p b) (hb : b.WellFormed)
    (hnul : b.chars[b.len.toNat]? = some 0) (hcs : cstring cset s = .ok (cs, s)) :
    (∃ s' b', sdstrim p cset s = .ok (p, s') ∧ Makes s.mem {base p} s'.mem p b' ∧
      ∃ front back, b.content = front ++ b'.content ++ back ∧ (∀ c ∈ front, c ∈ cs) ∧ ∀ c ∈ back, c ∈ cs) ↔
    0 ∉ margins (matched cs) b.scanned ∧ ∀ c ∈ b.unscanned, c ∈ cs := by
  obtain ⟨s', n, w, hok, hn, hslice, hm⟩ := sdstrim_ok h hb hnul hcs
  have hcontent : (b.keep n w).content = strip (matched cs) b.scanned := by
    rw [← hslice]
    exact List.take_left' (slice_length hn)
  have hiff := @exists_margins_iff _ (matched cs) (decide <| · ∈ cs) b.scanned b.unscanned
  simp only [decide_eq_true_eq] at hiff
  rw [Makes.exists_iff hok hm, hcontent, ← scanned_append (b := b), hiff]
  apply and_congr_left'
  constructor
  · exact fun hall h0 => cstring_nul hcs (hall 0 h0)
  · intro h0 c hc
    have hne : c ≠ 0 := fun heq => h0 (heq ▸ hc)
    simpa [matched, hne] using of_mem_margins hc

/-- `sdstrim` strips what its set matches from both ends of a text, exactly if what the
scans never see is all in the set. -/
theorem sdstrim_strips (s : State Globals) (p : Addr) (b : Buf) (cset : CharPtr) (cs : List Byte)
    (h : StrAt s.mem p b) (hb : b.WellFormed) (hnul : b.chars[b.len.toNat]? = some 0)
    (htext : 0 ∉ b.content) (hcs : cstring cset s = .ok (cs, s)) :
    (∃ s' b', sdstrim p cset s = .ok (p, s') ∧ Makes s.mem {base p} s'.mem p b' ∧
      Leaves b (strip (· ∈ cs) b.content) b') ↔
    (∀ c ∈ b.unscanned, c ∈ cs) ∧ b.Fits (strip (· ∈ cs) b.content).length :=
  sdstrim_leaves_iff h hb hnul htext hcs

/-- The string `" a "`. -/
def trim₁ : State Globals := after (sdsnew (bump 0) (.ext [32, 97, 32, 0])) zinit

theorem trim_blanks : StrAt trim₁.mem 0x1018 ⟨3, 0, [32, 97, 32, 0]⟩ ∧
    Buf.WellFormed ⟨3, 0, [32, 97, 32, 0]⟩ :=
  ⟨⟨by decide +kernel, by decide, by decide, by decide⟩, by decide, by decide, by decide⟩

theorem sdstrim_strips_blanks : (∃ s' b', sdstrim 0x1018 (.ext [32, 0]) trim₁ = .ok (0x1018, s') ∧
      Makes trim₁.mem {base 0x1018} s'.mem 0x1018 b' ∧
      Leaves ⟨3, 0, [32, 97, 32, 0]⟩ (strip (· ∈ [32]) [32, 97, 32]) b') ↔
    (∀ c ∈ Buf.unscanned ⟨3, 0, [32, 97, 32, 0]⟩, c ∈ [32]) ∧
      Buf.Fits ⟨3, 0, [32, 97, 32, 0]⟩ (strip (· ∈ [32]) [32, 97, 32]).length :=
  sdstrim_strips trim₁ 0x1018 ⟨3, 0, [32, 97, 32, 0]⟩ (.ext [32, 0]) [32] trim_blanks.1 trim_blanks.2
    (by decide) (by decide) rfl

/-- The value of `sdslen` is negative for a string of 2^31 letters: no scan sees one of
them, and all are removed, whatever is to be trimmed. -/
theorem sdstrim_empties : ∃ p s,
    sdsnewlen (bump 0) (.ext (List.replicate (2 ^ 31) 97)) (BitVec.ofNat 64 (2 ^ 31)) zinit = .ok (p, s) ∧
      ¬ ∃ s' b', sdstrim p (.ext [0]) s = .ok (p, s') ∧ Makes s.mem {base p} s'.mem p b' ∧
        Leaves (longBuf (2 ^ 31)) (strip (· ∈ []) (List.replicate (2 ^ 31) 97)) b' := by
  have hn : 2 ^ 31 < 2 ^ 62 := by decide
  have hcontent := longBuf_content hn
  obtain ⟨p, s, hok, -, h⟩ := exists_long hn
  refine ⟨p, s, hok, fun hall => ?_⟩
  have htext : 0 ∉ (longBuf (2 ^ 31)).content := by
    rw [hcontent, List.mem_replicate]
    exact fun hc => absurd hc.2 (by decide)
  have hint : (longBuf (2 ^ 31)).intLen = - 2 ^ 31 := by
    rw [longBuf_intLen]
    decide
  rw [← hcontent] at hall
  have hunscanned := ((sdstrim_leaves_iff h (longBuf_wellFormed hn) (longBuf_nul hn) htext rfl).mp hall).1
  apply List.not_mem_nil (hunscanned 97 _)
  rw [Buf.unscanned, hint, hcontent, show (- 2 ^ 31 + 1 : ℤ).toNat = 0 from rfl, List.drop_zero,
    List.mem_replicate]
  exact ⟨by decide, rfl⟩

/-- `sdstrim` removes nothing but characters of its set, exactly if no NUL stands in the
margins the scans find and what they never see is all in the set. -/
theorem sdstrim_drops (s : State Globals) (p : Addr) (b : Buf) (cset : CharPtr) (cs : List Byte)
    (h : StrAt s.mem p b) (hb : b.WellFormed) (hnul : b.chars[b.len.toNat]? = some 0)
    (hcs : cstring cset s = .ok (cs, s)) :
    (∃ s' b', sdstrim p cset s = .ok (p, s') ∧ Makes s.mem {base p} s'.mem p b' ∧
      ∃ front back, b.content = front ++ b'.content ++ back ∧ (∀ c ∈ front, c ∈ cs) ∧ ∀ c ∈ back, c ∈ cs) ↔
    0 ∉ margins (matched cs) b.scanned ∧ ∀ c ∈ b.unscanned, c ∈ cs :=
  sdstrim_drops_iff h hb hnul hcs

theorem sdstrim_drops_blanks : (∃ s' b', sdstrim 0x1018 (.ext [32, 0]) trim₁ = .ok (0x1018, s') ∧
      Makes trim₁.mem {base 0x1018} s'.mem 0x1018 b' ∧
      ∃ front back, [32, 97, 32] = front ++ b'.content ++ back ∧ (∀ c ∈ front, c ∈ [32]) ∧
        ∀ c ∈ back, c ∈ [32]) ↔
    0 ∉ margins (matched [32]) (Buf.scanned ⟨3, 0, [32, 97, 32, 0]⟩) ∧
      ∀ c ∈ Buf.unscanned ⟨3, 0, [32, 97, 32, 0]⟩, c ∈ [32] :=
  sdstrim_drops trim₁ 0x1018 ⟨3, 0, [32, 97, 32, 0]⟩ (.ext [32, 0]) [32] trim_blanks.1 trim_blanks.2
    (by decide) rfl

/-- The two bytes `"\0a"`. -/
def trim₂ : State Globals := after (sdsnewlen (bump 0) (.ext [0, 97]) 2) zinit

/-- The set has an `'x'` only, and a NUL is dropped. -/
theorem sdstrim_drops_nul : StrAt trim₂.mem 0x1018 ⟨2, 0, [0, 97, 0]⟩ ∧
    ¬ ∃ s' b', sdstrim 0x1018 (.ext [120, 0]) trim₂ = .ok (0x1018, s') ∧
      Makes trim₂.mem {base 0x1018} s'.mem 0x1018 b' ∧
      ∃ front back, [0, 97] = front ++ b'.content ++ back ∧ (∀ c ∈ front, c ∈ [120]) ∧
        ∀ c ∈ back, c ∈ [120] := by
  have h : StrAt trim₂.mem 0x1018 ⟨2, 0, [0, 97, 0]⟩ := ⟨by decide +kernel, by decide, by decide, by decide⟩
  refine ⟨h, fun hall => ?_⟩
  have hiff := @sdstrim_drops_iff trim₂ 0x1018 ⟨2, 0, [0, 97, 0]⟩ (.ext [120, 0]) [120] h
    ⟨by decide, by decide, by decide⟩ (by decide) rfl
  exact (hiff.mp hall).1 (by decide)

end Redis
