import RedisPlayground.Proofs.Contents

/-! `sdscmp` is the lexicographic order on contents. -/

namespace Redis

open CMem

/-- The sign of `r` is that of a comparison. -/
structure Compares (r : BitVec 32) (xs ys : List Byte) : Prop where
  neg : r.toInt < 0 ↔ xs < ys
  pos : 0 < r.toInt ↔ ys < xs

variable {K : Memcmp} {s : State Globals} {p q : Addr} {b c : Buf} {E : Stop → Prop} {t u : CharPtr}
  {xs ys zs us vs : List Byte} {w v : Word} {r r' r'' : BitVec 32}

theorem eq_zero_iff : r = 0 ↔ r.toInt = 0 :=
  ⟨fun h => by rw [h]; rfl, fun h => BitVec.eq_of_toInt_eq h⟩

theorem Compares.zero (h : Compares r xs ys) : r = 0 ↔ xs = ys := by
  rw [eq_zero_iff]
  constructor
  · intro h0
    apply List.le_antisymm
    · exact fun hlt => absurd (h.pos.mpr hlt) (by omega)
    · exact fun hlt => absurd (h.neg.mpr hlt) (by omega)
  · rintro rfl
    have hneg := mt h.neg.mp (List.lt_irrefl xs)
    have hpos := mt h.pos.mp (List.lt_irrefl xs)
    omega

/-- The other way round the sign is the opposite one. -/
theorem Compares.swap (h : Compares r xs ys) (h' : Compares r' ys xs) :
    r'.toInt.sign = - r.toInt.sign := by
  rcases lt_trichotomy r.toInt 0 with hlt | heq | hgt
  · rw [Int.sign_eq_neg_one_of_neg hlt, Int.sign_eq_one_of_pos (h'.pos.mpr (h.neg.mp hlt))]
    rfl
  · obtain rfl := h.zero.mp (eq_zero_iff.mpr heq)
    rw [h'.zero.mpr rfl, heq]
    rfl
  · rw [Int.sign_eq_one_of_pos hgt, Int.sign_eq_neg_one_of_neg (h'.neg.mpr (h.pos.mp hgt))]

theorem Compares.trans (h : Compares r xs ys) (h' : Compares r' ys zs) (h'' : Compares r'' xs zs)
    (hle : r.toInt ≤ 0) (hle' : r'.toInt ≤ 0) : r''.toInt ≤ 0 := by
  have hxy : ¬ ys < xs := fun hlt => absurd (h.pos.mpr hlt) (by omega)
  have hyz : ¬ zs < ys := fun hlt => absurd (h'.pos.mpr hlt) (by omega)
  have hxz : ¬ zs < xs := List.le_trans hxy hyz
  have hpos := mt h''.pos.mp hxz
  omega

theorem memcmp_compares (h : xs.length = ys.length) : Compares (K.cmp t u xs ys) xs ys :=
  ⟨K.neg h, K.pos h⟩

/-- The difference of two lengths in the range of an `int`. -/
theorem sub_toInt (hw : w.toNat < 2 ^ 31) (hv : v.toNat < 2 ^ 31) :
    ((w - v).setWidth 32).toInt = w.toNat - v.toNat := by
  rw [BitVec.toInt_eq_toNat_cond, BitVec.toNat_setWidth, BitVec.toNat_sub]
  split <;> omega

/-- What `sdscmp` makes of a comparison of the first `n` bytes. -/
theorem Compares.append (h : Compares r xs ys) (hlen : xs.length = ys.length) (hnil : us = [] ∨ vs = [])
    (hr : r'.toInt = us.length - vs.length) :
    Compares (if r = 0 then r' else r) (xs ++ us) (ys ++ vs) := by
  by_cases h0 : r = 0
  · rw [if_pos h0]
    obtain rfl := h.zero.mp h0
    constructor
    · rw [append_lt_append_iff rfl, or_iff_right (List.lt_irrefl xs), and_iff_right rfl, hr]
      rcases hnil with rfl | rfl
      · rw [nil_lt_iff, ← List.length_pos_iff, List.length_nil]
        omega
      · rw [List.length_nil]
        constructor
        · omega
        · exact fun hlt => absurd hlt (List.not_lt_nil us)
    · rw [append_lt_append_iff rfl, or_iff_right (List.lt_irrefl xs), and_iff_right rfl, hr]
      rcases hnil with rfl | rfl
      · rw [List.length_nil]
        constructor
        · omega
        · exact fun hlt => absurd hlt (List.not_lt_nil vs)
      · rw [nil_lt_iff, ← List.length_pos_iff, List.length_nil]
        omega
  · rw [if_neg h0]
    have hne : xs ≠ ys := mt h.zero.mpr h0
    constructor
    · rw [append_lt_append_iff hlen, h.neg, or_iff_left fun heq => hne heq.1]
    · rw [append_lt_append_iff hlen.symm, h.pos, or_iff_left fun heq => hne heq.1.symm]

theorem min_toNat : (if v ≤ w then v else w).toNat = min w.toNat v.toNat := by
  split
  · next hle => rw [Nat.min_eq_right (BitVec.le_def.mp hle)]
  · next hgt => rw [Nat.min_eq_left (Nat.le_of_lt (BitVec.lt_def.mp (BitVec.not_le.mp hgt)))]

theorem wp_sdscmp (h₁ : StrAt s.mem p b) (h₂ : StrAt s.mem q c) (hb : b.WellFormed) (hc : c.WellFormed)
    (hlb : b.len.toNat < 2 ^ 31) (hlc : c.len.toNat < 2 ^ 31) :
    wp E (sdscmp K p q) (fun r s' => s' = s ∧ Compares r b.content c.content) s := by
  have hb' := hb.content_length
  have hc' := hc.content_length
  have hsb := hb.size
  have hsc := hc.size
  have hread : ∀ {p b} {Q : List Byte → State Globals → Prop} (n : ℕ), StrAt s.mem p b →
      n ≤ b.len.toNat → b.len.toNat ≤ b.chars.length → Q (b.content.take n) s →
      wp E (readChars (sdsPtr p) n) Q s := by
    intro p b Q n h hn hsize hQ
    rw [wp_readChars (reads_content h (Nat.le_trans hn hsize))]
    rwa [Buf.content, List.take_take, Nat.min_eq_left hn] at hQ
  rw [sdscmp, wp_bind, wp_sdslenSize_any h₁, signExtend_len hlb, wp_bind, wp_sdslenSize_any h₂,
    signExtend_len hlc, wp_bind, memcmp, wp_bind, min_toNat]
  apply hread _ h₁ (Nat.min_le_left _ _) (by omega)
  rw [wp_bind]
  apply hread _ h₂ (Nat.min_le_right _ _) (by omega)
  rw [wp_pure]
  generalize hk : min b.len.toNat c.len.toNat = k
  have hlen : (b.content.take k).length = (c.content.take k).length := by
    rw [List.length_take, List.length_take]
    omega
  have hfirst := memcmp_compares (K := K) (t := sdsPtr p) (u := sdsPtr q) hlen
  have hnil : b.content.drop k = [] ∨ c.content.drop k = [] := by
    rw [List.drop_eq_nil_iff, List.drop_eq_nil_iff]
    omega
  have hdiff : ((b.len - c.len).setWidth 32).toInt =
      (b.content.drop k).length - (c.content.drop k).length := by
    rw [List.length_drop, List.length_drop, sub_toInt hlb hlc]
    omega
  have hcmp := hfirst.append hlen hnil hdiff
  rw [List.take_append_drop, List.take_append_drop] at hcmp
  split
  · next h0 =>
    rw [if_pos h0] at hcmp
    exact wp_pure.mpr ⟨rfl, hcmp⟩
  · next h0 =>
    rw [if_neg h0] at hcmp
    exact wp_pure.mpr ⟨rfl, hcmp⟩

/-- The sign of `sdscmp` is that of the lexicographic comparison of the contents,
so it is 0 for equal contents only, antisymmetric and transitive. -/
theorem sdscmp_orders (K : Memcmp) (s : State Globals) (p₁ p₂ p₃ : Addr) (b₁ b₂ b₃ : Buf)
    (h₁ : StrAt s.mem p₁ b₁) (h₂ : StrAt s.mem p₂ b₂) (h₃ : StrAt s.mem p₃ b₃)
    (hb₁ : b₁.WellFormed) (hb₂ : b₂.WellFormed) (hb₃ : b₃.WellFormed) (hl₁ : b₁.len.toNat < 2 ^ 31)
    (hl₂ : b₂.len.toNat < 2 ^ 31) (hl₃ : b₃.len.toNat < 2 ^ 31) :
    ∃ r₁₂ r₂₁ r₂₃ r₁₃, sdscmp K p₁ p₂ s = .ok (r₁₂, s) ∧ sdscmp K p₂ p₁ s = .ok (r₂₁, s) ∧
      sdscmp K p₂ p₃ s = .ok (r₂₃, s) ∧ sdscmp K p₁ p₃ s = .ok (r₁₃, s) ∧
      Compares r₁₂ b₁.content b₂.content ∧ (r₁₂ = 0 ↔ b₁.content = b₂.content) ∧
      r₂₁.toInt.sign = - r₁₂.toInt.sign ∧ (r₁₂.toInt ≤ 0 → r₂₃.toInt ≤ 0 → r₁₃.toInt ≤ 0) := by
  have hcmp : ∀ {p q b c}, StrAt s.mem p b → StrAt s.mem q c → b.WellFormed → c.WellFormed →
      b.len.toNat < 2 ^ 31 → c.len.toNat < 2 ^ 31 →
      ∃ r, sdscmp K p q s = .ok (r, s) ∧ Compares r b.content c.content := by
    intro p q b c hp hq hb hc hlb hlc
    exact (wp_sdscmp hp hq hb hc hlb hlc).exists_ok
  obtain ⟨r₁₂, hok₁₂, hr₁₂⟩ := hcmp h₁ h₂ hb₁ hb₂ hl₁ hl₂
  obtain ⟨r₂₁, hok₂₁, hr₂₁⟩ := hcmp h₂ h₁ hb₂ hb₁ hl₂ hl₁
  obtain ⟨r₂₃, hok₂₃, hr₂₃⟩ := hcmp h₂ h₃ hb₂ hb₃ hl₂ hl₃
  obtain ⟨r₁₃, hok₁₃, hr₁₃⟩ := hcmp h₁ h₃ hb₁ hb₃ hl₁ hl₃
  exact ⟨r₁₂, r₂₁, r₂₃, r₁₃, hok₁₂, hok₂₁, hok₂₃, hok₁₃, hr₁₂, hr₁₂.zero, hr₁₂.swap hr₂₁,
    hr₁₂.trans hr₂₃ hr₁₃⟩

/-- A `memcmp` that returns the sign alone. -/
def signCmp : Memcmp where
  cmp _ _ xs ys := if xs < ys then -1 else if ys < xs then 1 else 0
  neg := by
    intro _ _ xs ys _
    by_cases hlt : xs < ys
    · simp [hlt]
    · by_cases hgt : ys < xs <;> simp [hlt, hgt]
  pos := by
    intro _ _ xs ys _
    by_cases hlt : xs < ys
    · simpa [hlt] using List.lt_asymm hlt
    · by_cases hgt : ys < xs <;> simp [hlt, hgt]

/-- The strings `"a"` and `"ab"`. -/
def cmp₁ : State Globals := after (sdsnew (bump 0) (.ext [97, 0])) zinit
def cmp₂ : State Globals := after (sdsnew (bump 0) (.ext [97, 98, 0])) cmp₁

theorem sdscmp_orders_prefix : ∃ r₁₂ r₂₁ r₂₃ r₁₃, sdscmp signCmp 0x1018 0x2018 cmp₂ = .ok (r₁₂, cmp₂) ∧
    sdscmp signCmp 0x2018 0x1018 cmp₂ = .ok (r₂₁, cmp₂) ∧
    sdscmp signCmp 0x2018 0x2018 cmp₂ = .ok (r₂₃, cmp₂) ∧
    sdscmp signCmp 0x1018 0x2018 cmp₂ = .ok (r₁₃, cmp₂) ∧
    Compares r₁₂ [97] [97, 98] ∧ (r₁₂ = 0 ↔ ([97] : List Byte) = [97, 98]) ∧
    r₂₁.toInt.sign = - r₁₂.toInt.sign ∧ (r₁₂.toInt ≤ 0 → r₂₃.toInt ≤ 0 → r₁₃.toInt ≤ 0) := by
  have h₁ : StrAt cmp₂.mem 0x1018 ⟨1, 0, [97, 0]⟩ :=
    ⟨by decide +kernel, by decide, by decide, by decide⟩
  have h₂ : StrAt cmp₂.mem 0x2018 ⟨2, 0, [97, 98, 0]⟩ :=
    ⟨by decide +kernel, by decide, by decide, by decide⟩
  have hb₁ : Buf.WellFormed ⟨1, 0, [97, 0]⟩ := ⟨by decide, by decide, by decide⟩
  have hb₂ : Buf.WellFormed ⟨2, 0, [97, 98, 0]⟩ := ⟨by decide, by decide, by decide⟩
  exact sdscmp_orders signCmp cmp₂ 0x1018 0x2018 0x2018 ⟨1, 0, [97, 0]⟩ ⟨2, 0, [97, 98, 0]⟩
    ⟨2, 0, [97, 98, 0]⟩ h₁ h₂ h₂ hb₁ hb₂ hb₂ (by decide) (by decide) (by decide)

end Redis
