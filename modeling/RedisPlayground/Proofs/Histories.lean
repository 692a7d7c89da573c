import RedisPlayground.Proofs.Trims

/-! What a string forgets when it is cleared. Two strings with any contents are
cleared, and from then on the same calls are made on both: their contents are the
same as long as `sdstrim` does not find the characters that `sdsclear` has left. -/

namespace Redis

open CMem

/-- The calls, with the C string they are given. -/
inductive HOp where
  | sdscat (cs : List Byte)
  | sdscpy (cs : List Byte)
  | sdstrim (cs : List Byte)
  | sdstolower
  | sdstoupper
  | sdsdup

namespace HOp

def arg : HOp → Option (List Byte)
  | .sdscat cs => some cs
  | .sdscpy cs => some cs
  | .sdstrim cs => some cs
  | _ => none

def exec (L : Libc) (p : Addr) (t : CharPtr) : HOp → M Addr
  | .sdscat _ => Redis.sdscat L p t
  | .sdscpy _ => Redis.sdscpy L p t
  | .sdstrim _ => Redis.sdstrim p t
  | .sdstolower => do
    Redis.sdstolower p
    return p
  | .sdstoupper => do
    Redis.sdstoupper p
    return p
  | .sdsdup => Redis.sdsdup L p

end HOp

/-- A program and one of its strings. -/
abbrev Side := State Globals × Addr

/-- The program does anything that leaves the string alone, and then makes the call.
The string to go on with is the one that the call returns. -/
def hstep (L : Libc) (x : Side) (op : HOp) (x' : Side) : Prop :=
  ∃ s t, block s.mem (base x.2) = block x.1.mem (base x.2) ∧ t.Known s.mem ∧ t.Avoids {base x.2} ∧
    (∀ cs, op.arg = some cs → cstring t s = .ok (cs, s)) ∧ op.exec L x.2 t s = .ok (x'.2, x'.1)

/-- The same call on both sides. -/
def pstep (L : Libc) (x : Side × Side) (op : HOp) (x' : Side × Side) : Prop :=
  hstep L x.1 op x'.1 ∧ hstep L x.2 op x'.2

/-- `buf[0..len)` is the same on both sides. -/
def SameContent (x : Side × Side) : Prop :=
  ∃ b₁ b₂, StrAt x.1.1.mem x.1.2 b₁ ∧ StrAt x.2.1.mem x.2.2 b₂ ∧ b₁.content = b₂.content

/-- `buf[len]`. -/
def NextByte (x : Side) (c : Byte) : Prop :=
  ∃ len, getField (base x.2) sdshdr.len x.1 = .ok (len, x.1) ∧ getChar x.2 len.toNat x.1 = .ok (c, x.1)

/-- If the call is an `sdstrim`, then `buf[len]` is the same on both sides, or trimmed on both. -/
def TrimsAlike (x : Side × Side) (op : HOp) : Prop :=
  ∀ cs, op = .sdstrim cs → ∀ c₁ c₂, NextByte x.1 c₁ → NextByte x.2 c₂ →
    matched cs c₁ = true ∧ matched cs c₂ = true ∨ c₁ = c₂

variable {L : Libc} {x x' : Side} {y y' : Side × Side} {b b' : Buf} {op : HOp} {p : Addr} {c : Byte}
  {s : State Globals} {cs : List Byte} {t : CharPtr} {n : ℕ}

/-- A string of a size that can be. -/
structure Text (x : Side) (b : Buf) : Prop where
  str : StrAt x.1.mem x.2 b
  ne_null : x.2 ≠ NULL
  inside : b.len.toNat < b.chars.length
  bounded : b.chars.length < 2 ^ 63

theorem Text.content_length (h : Text x b) : b.content.length = b.len.toNat :=
  List.length_take_of_le h.inside.le

/-- The content after a call, as a function of what there is before it. -/
def HOp.text (b : Buf) : HOp → List Byte
  | .sdscat cs => b.content.take b.sizeLen.toNat ++ cs.take (BitVec.ofNat 64 cs.length).toNat
  | .sdscpy cs => cs.take (BitVec.ofNat 64 cs.length).toNat
  | .sdstrim cs => strip (matched cs) b.window
  | .sdstolower => (b.content.take b.sizeLen.toNat).map Redis.tolower ++ b.content.drop b.sizeLen.toNat
  | .sdstoupper => (b.content.take b.sizeLen.toNat).map Redis.toupper ++ b.content.drop b.sizeLen.toNat
  | .sdsdup => b.content.take b.sizeLen.toNat

/-- The calls that store no terminator. -/
def HOp.maps : HOp → Bool
  | .sdstolower => true
  | .sdstoupper => true
  | _ => false

structure After (op : HOp) (b : Buf) (x : Side) (b' : Buf) : Prop where
  text : Text x b'
  content : b'.content = op.text b
  nul : op.maps = false ∨ b.chars[b.len.toNat]? = some 0 → b'.chars[b'.len.toNat]? = some 0
  len : op.maps = true → b'.len = b.len

theorem Stores.after {m₀ : Mem} {S : Multiset Addr} (h : Stores m₀ S s.mem p b' (op.text b))
    (hop : op.maps = false) (hbound : b'.chars.length < 2 ^ 63) : After op b (s, p) b' where
  text := ⟨h.makes.str, h.ne_null, (List.getElem?_eq_some_iff.mp h.nul).1, hbound⟩
  content := h.content
  nul _ := h.nul
  len heq := absurd (hop.symm.trans heq) (by decide)

theorem took_start (hknown : t.Known s.mem) (hcs : cstring t s = .ok (cs, s)) {S : Multiset Addr} {bs : List Byte}
    (hav : t.Avoids S) (h : Took s.mem S t (BitVec.ofNat 64 cs.length).toNat bs) :
    bs = cs.take (BitVec.ofNat 64 cs.length).toNat := by
  apply h.reads hav
  apply (reads_of_cstring hknown hcs).take
  rw [BitVec.toNat_ofNat]
  exact Nat.mod_le _ _

theorem sizeLen_inside (hn : b.sizeLen.toNat < 2 ^ 63) : b.sizeLen.toNat ≤ b.len.toNat := by
  have hle := sizeLen_le (b := b)
  omega

theorem take_sizeLen (hn : b.sizeLen.toNat < 2 ^ 63) :
    b.chars.take b.sizeLen.toNat = b.content.take b.sizeLen.toNat := by
  rw [Buf.content, List.take_take, Nat.min_eq_left (sizeLen_inside hn)]

theorem map_content {f : Byte → Byte} (hn : n ≤ b.len.toNat) (hlen : b.len.toNat ≤ b.chars.length) :
    ((b.chars.take n).map f ++ b.chars.drop n).take b.len.toNat =
      (b.content.take n).map f ++ b.content.drop n := by
  have hfront : ((b.chars.take n).map f).length = n := by
    rw [List.length_map, List.length_take_of_le (by omega)]
  rw [List.take_append, hfront, List.take_of_length_le (by omega), Buf.content, List.take_take,
    Nat.min_eq_left hn, List.drop_take]

/-- `sdstolower` and `sdstoupper`. -/
theorem map_after {f : Byte → Byte} (hf : f 0 = 0) (h : Text (s, p) b) (hmaps : op.maps = true)
    (htext : op.text b = (b.content.take b.sizeLen.toNat).map f ++ b.content.drop b.sizeLen.toNat) :
    wp Any (do let len ← sdslenSize p; sdsmapLoop f p len.toNat)
      (fun _ s' => ∃ b', After op b (s', p) b') s := by
  rw [wp_bind, wp_sdslenSize_any h.str, ← Buf.sizeLen]
  apply (sdsmapLoop_text h.str).mono
  rintro _ s' ⟨hn, hm⟩
  have hbound := h.bounded
  have hle := sizeLen_inside (b := b) (by omega)
  have hlen : ((b.chars.take b.sizeLen.toNat).map f ++ b.chars.drop b.sizeLen.toNat).length =
      b.chars.length := by
    rw [List.length_append, List.length_map, List.length_take_of_le hn, List.length_drop]
    omega
  refine ⟨_, ⟨hm.str, h.ne_null, ?_, ?_⟩, ?_, ?_, fun _ => rfl⟩
  · rw [hlen]
    exact h.inside
  · rw [hlen]
    exact hbound
  · rw [htext]
    exact map_content hle h.inside.le
  · rintro (hop | hnul)
    · rw [hmaps] at hop
      contradiction
    · exact map_nul hf hnul

/-- What a call leaves is a function of the content and, for `sdstrim`, of the character
behind it. -/
theorem hstep_after (hL : L.Bounded) (h : Text x b) (hstep : hstep L x op x') : ∃ b', After op b x' b' := by
  obtain ⟨s₀, p⟩ := x
  obtain ⟨s', r⟩ := x'
  obtain ⟨s, t, hsame, hknown, hav, hcs, hok⟩ := hstep
  have h : Text (s, p) b := ⟨h.str.congr hsame, h.ne_null, h.inside, h.bounded⟩
  have hbound := h.bounded
  cases op with
  | sdscat cs =>
    have hcs := hcs cs rfl
    have hwp : wp Any (sdscat L p t) (fun r s' => ∃ b', After (.sdscat cs) b (s', r) b') s := by
      rw [sdscat, wp_bind]
      apply wp_strlen hcs
      apply (sdscatlen_text h.str h.ne_null).mono
      rintro r s' ⟨b₁, b', bs, hsized, hm, hlen, hlt, hbs⟩
      have hbound₁ := hsized.bounded hL hbound
      have hle := sizeLen_inside (b := b) (by omega)
      have hin := h.inside
      rw [took_start hknown hcs hav hbs, hsized.take (by omega) (by omega), take_sizeLen (b := b) (by omega)] at hm
      exact ⟨b', Stores.after hm rfl (by omega)⟩
    exact hwp.of_ok hok
  | sdscpy cs =>
    have hcs := hcs cs rfl
    have hwp : wp Any (sdscpy L p t) (fun r s' => ∃ b', After (.sdscpy cs) b (s', r) b') s := by
      rw [sdscpy, wp_bind]
      apply wp_strlen hcs
      apply (sdscpylen_text h.str h.ne_null).mono
      rintro r s' ⟨b₁, b', bs, hsized, hm, hlen, hbs⟩
      have hbound₁ := hsized.bounded hL hbound
      rw [took_start hknown hcs hav hbs] at hm
      exact ⟨b', Stores.after hm rfl (by omega)⟩
    exact hwp.of_ok hok
  | sdstrim cs =>
    have hwp : wp Any (sdstrim p t) (fun r s' => ∃ b', After (.sdstrim cs) b (s', r) b') s := by
      apply wp_sdstrim h.str h.inside (hcs cs rfl) (Or.inl trivial)
      intro n w m hn hw hslice hm
      refine ⟨_, Stores.after (hm.keep h.ne_null hn hslice) rfl ?_⟩
      rw [Buf.keep, List.length_append, slice_length hn, List.length_cons, List.length_drop]
      omega
    exact hwp.of_ok hok
  | sdstolower =>
    have hwp : wp Any (HOp.exec L p t .sdstolower) (fun r s' => ∃ b', After .sdstolower b (s', r) b') s := by
      apply wp_bind.mpr
      exact map_after (f := tolower) rfl h rfl rfl
    exact hwp.of_ok hok
  | sdstoupper =>
    have hwp : wp Any (HOp.exec L p t .sdstoupper) (fun r s' => ∃ b', After .sdstoupper b (s', r) b') s := by
      apply wp_bind.mpr
      exact map_after (f := toupper) rfl h rfl rfl
    exact hwp.of_ok hok
  | sdsdup =>
    have hwp : wp Any (sdsdup L p) (fun r s' => ∃ b', After .sdsdup b (s', r) b') s := by
      rw [sdsdup, wp_bind, wp_sdslenSize_any h.str]
      apply sdsnewlen_text.mono
      rintro r s' ⟨b', c, hm, hc, hsized⟩
      have hbound' := hsized hL
      have hlen := hm.length
      have hin := (List.getElem?_eq_some_iff.mp hm.nul).1
      have hsize : c.length = b.sizeLen.toNat := hc.length
      have hle := sizeLen_inside (b := b) (by omega)
      have hin' := h.inside
      have hread : Reads s.mem (sdsPtr p) b.sizeLen.toNat (b.chars.take b.sizeLen.toNat) :=
        reads_content h.str (by omega)
      rw [hc.reads CharPtr.avoids_zero _ hread, take_sizeLen (b := b) (by omega)] at hm
      exact ⟨b', Stores.after hm rfl hbound'⟩
    exact hwp.of_ok hok

theorem sameContent_iff {b₁ b₂ : Buf} (h₁ : Text y.1 b₁) (h₂ : Text y.2 b₂) :
    SameContent y ↔ b₁.content = b₂.content := by
  constructor
  · rintro ⟨c₁, c₂, hc₁, hc₂, heq⟩
    rwa [h₁.str.unique hc₁, h₂.str.unique hc₂]
  · exact fun heq => ⟨b₁, b₂, h₁.str, h₂.str, heq⟩

/-- The invariant: as long as one of the strings may have no terminator both are empty. -/
def Sides (y : Side × Side) : Prop :=
  ∃ b₁ b₂, Text y.1 b₁ ∧ Text y.2 b₂ ∧ (b₁.len = 0 ∧ b₂.len = 0 ∨
    b₁.chars[b₁.len.toNat]? = some 0 ∧ b₂.chars[b₂.len.toNat]? = some 0)

theorem Text.window_zero (h : Text x b) (hlen : b.len = 0) : ∃ c, b.chars[b.len.toNat]? = some c ∧
    b.window = [c] := by
  have hin := h.inside
  have hint : (b.intLen + 1).toNat = 0 + 1 := by
    rw [Buf.intLen, hlen]
    rfl
  rw [Buf.window, hint, hlen]
  rw [hlen] at hin
  exact ⟨b.chars[0], List.getElem?_eq_getElem hin, List.take_succ_eq_append_getElem hin⟩

/-- The contents after an `sdstrim`. -/
theorem trim_same_iff {b₁ b₂ : Buf} (h₁ : Text y.1 b₁) (h₂ : Text y.2 b₂) (hlen : b₁.len = b₂.len)
    (hcontent : b₁.content = b₂.content) (hnul : b₁.len = 0 ∧ b₂.len = 0 ∨
      b₁.chars[b₁.len.toNat]? = some 0 ∧ b₂.chars[b₂.len.toNat]? = some 0) :
    strip (matched cs) b₁.window = strip (matched cs) b₂.window ↔ TrimsAlike y (.sdstrim cs) := by
  have hnext : ∀ {c₁ c₂}, b₁.chars[b₁.len.toNat]? = some c₁ → b₂.chars[b₂.len.toNat]? = some c₂ →
      (TrimsAlike y (.sdstrim cs) ↔ matched cs c₁ = true ∧ matched cs c₂ = true ∨ c₁ = c₂) := by
    intro c₁ c₂ hc₁ hc₂
    constructor
    · exact fun halike => halike cs rfl c₁ c₂ ((nextChar_iff h₁.str).mpr hc₁) ((nextChar_iff h₂.str).mpr hc₂)
    · rintro hor cs' hop d₁ d₂ hd₁ hd₂
      obtain rfl := HOp.sdstrim.inj hop
      obtain rfl := Option.some.inj (hc₁.symm.trans ((nextChar_iff h₁.str).mp hd₁))
      obtain rfl := Option.some.inj (hc₂.symm.trans ((nextChar_iff h₂.str).mp hd₂))
      exact hor
  rcases hnul with ⟨hz₁, hz₂⟩ | ⟨hnul₁, hnul₂⟩
  · obtain ⟨c₁, hc₁, hw₁⟩ := h₁.window_zero hz₁
    obtain ⟨c₂, hc₂, hw₂⟩ := h₂.window_zero hz₂
    rw [hnext hc₁ hc₂, hw₁, hw₂, strip_singleton, strip_singleton]
    by_cases hm₁ : matched cs c₁ <;> by_cases hm₂ : matched cs c₂
    · simp [hm₁, hm₂]
    · have hne : c₁ ≠ c₂ := fun heq => hm₂ (heq ▸ hm₁)
      simp [hm₁, hm₂, hne]
    · have hne : c₁ ≠ c₂ := fun heq => hm₁ (heq ▸ hm₂)
      simp [hm₁, hm₂, hne]
    · simp [hm₁, hm₂]
  · rw [hnext hnul₁ hnul₂, strip_window hnul₁, strip_window hnul₂, Buf.scanned, Buf.scanned, hcontent,
      Buf.intLen, Buf.intLen, hlen]
    simp

theorem pstep_same (hL : L.Bounded) (hI : Sides y) (hP : SameContent y) (hstep : pstep L y op y') :
    Sides y' ∧ (SameContent y' ↔ TrimsAlike y op) := by
  obtain ⟨b₁, b₂, h₁, h₂, hnul⟩ := hI
  obtain ⟨b₁', h₁'⟩ := hstep_after hL h₁ hstep.1
  obtain ⟨b₂', h₂'⟩ := hstep_after hL h₂ hstep.2
  have hcontent := (sameContent_iff h₁ h₂).mp hP
  have hlen : b₁.len = b₂.len := by
    apply BitVec.eq_of_toNat_eq
    rw [← h₁.content_length, ← h₂.content_length, hcontent]
  have hsize : b₁.sizeLen = b₂.sizeLen := by rw [Buf.sizeLen, Buf.sizeLen, hlen]
  constructor
  · refine ⟨b₁', b₂', h₁'.text, h₂'.text, ?_⟩
    rcases Bool.eq_false_or_eq_true op.maps with hmaps | hmaps
    · apply hnul.imp
      · exact fun hz => ⟨(h₁'.len hmaps).trans hz.1, (h₂'.len hmaps).trans hz.2⟩
      · exact fun hn => ⟨h₁'.nul (Or.inr hn.1), h₂'.nul (Or.inr hn.2)⟩
    · exact Or.inr ⟨h₁'.nul (Or.inl hmaps), h₂'.nul (Or.inl hmaps)⟩
  · rw [sameContent_iff h₁'.text h₂'.text, h₁'.content, h₂'.content]
    cases op with
    | sdstrim cs => exact trim_same_iff h₁ h₂ hlen hcontent hnul
    | _ =>
      refine iff_of_true (by simp only [HOp.text, hcontent, hsize]) ?_
      intro cs hop
      contradiction

/-- After two strings are cleared the same calls give them the same contents, exactly if
every `sdstrim` finds the same character behind the content, or one to be trimmed. -/
theorem sdsclear_forgets (L : Libc) (hL : L.Bounded) (s₁ s₂ s₁' s₂' : State Globals) (p₁ p₂ : Addr)
    (b₁ b₂ : Buf) (h₁ : StrAt s₁.mem p₁ b₁) (h₂ : StrAt s₂.mem p₂ b₂) (hp₁ : p₁ ≠ NULL) (hp₂ : p₂ ≠ NULL)
    (hb₁ : b₁.WellFormed) (hb₂ : b₂.WellFormed) (hsize₁ : b₁.chars.length < 2 ^ 63)
    (hsize₂ : b₂.chars.length < 2 ^ 63) (hclear₁ : sdsclear p₁ s₁ = .ok ((), s₁'))
    (hclear₂ : sdsclear p₂ s₂ = .ok ((), s₂')) (tr : List ((Side × Side) × HOp)) (y : Side × Side)
    (h : Run (pstep L) ((s₁', p₁), (s₂', p₂)) tr y) :
    Always SameContent tr y ↔ ∀ x ∈ tr, TrimsAlike x.1 x.2 := by
  have htext : ∀ {s s' p b}, StrAt s.mem p b → p ≠ NULL → b.WellFormed → b.chars.length < 2 ^ 63 →
      sdsclear p s = .ok ((), s') → Text (s', p) { b with len := 0, free := b.free + b.len } := by
    intro s s' p b hstr hp hb hsize hclear
    have hwf := hb.size
    refine ⟨((sdsclear_keeps (E := Any) hstr).of_ok hclear).str, hp, ?_, hsize⟩
    change 0 < b.chars.length
    omega
  have ht₁ := htext h₁ hp₁ hb₁ hsize₁ hclear₁
  have ht₂ := htext h₂ hp₂ hb₂ hsize₂ hclear₂
  have hP : SameContent ((s₁', p₁), (s₂', p₂)) := by
    rw [sameContent_iff ht₁ ht₂]
    rfl
  exact h.always_iff ⟨_, _, ht₁, ht₂, Or.inl ⟨rfl, rfl⟩⟩ hP
    fun _ _ _ hI hP hstep => pstep_same hL hI hP hstep

/-- A string with one letter, and the same string cleared. -/
def letter (c : Byte) : State Globals := after (sdsnew (bump 0).capped (.ext [c, 0])) zinit
def cleared (c : Byte) : State Globals := after (sdsclear 0x1018) (letter c)

def pasted (c : Byte) : State Globals := after (sdscpy (bump 0).capped 0x1018 (.ext [120, 0])) (cleared c)
def trimmed (c : Byte) : State Globals := after (sdstrim 0x1018 (.ext [120, 0])) (cleared c)

def shaved (c : Byte) : State Globals := after (sdstrim 0x1018 (.ext [120, 0])) (pasted c)

def pasteRun : List ((Side × Side) × HOp) :=
  [(((cleared 97, 0x1018), (cleared 98, 0x1018)), .sdscpy [120]),
    (((pasted 97, 0x1018), (pasted 98, 0x1018)), .sdstrim [120])]

def trimRun : List ((Side × Side) × HOp) :=
  [(((cleared 97, 0x1018), (cleared 98, 0x1018)), .sdstrim [120])]

/-- A call on memory of the caller, with nothing in between. -/
theorem hstep_of {s s' : State Globals} (hcs : ∀ cs, op.arg = some cs → cs = [120])
    (hok : op.exec L p (.ext [120, 0]) s = .ok (p, s')) : hstep L (s, p) op (s', p) :=
  ⟨s, .ext [120, 0], rfl, trivial, trivial, fun cs h => hcs cs h ▸ rfl, hok⟩

theorem run_paste : Run (pstep (bump 0).capped) ((cleared 97, 0x1018), (cleared 98, 0x1018)) pasteRun
    ((shaved 97, 0x1018), (shaved 98, 0x1018)) := by
  have h₁ : result (sdscpy (bump 0).capped 0x1018 (.ext [120, 0])) (cleared 97) = some 0x1018 := by
    decide +kernel
  have h₂ : result (sdscpy (bump 0).capped 0x1018 (.ext [120, 0])) (cleared 98) = some 0x1018 := by
    decide +kernel
  have h₃ : result (sdstrim 0x1018 (.ext [120, 0])) (pasted 97) = some 0x1018 := by decide +kernel
  have h₄ : result (sdstrim 0x1018 (.ext [120, 0])) (pasted 98) = some 0x1018 := by decide +kernel
  have hcpy : ∀ cs, (HOp.sdscpy [120]).arg = some cs → cs = [120] := fun cs h => (Option.some.inj h).symm
  have htrim : ∀ cs, (HOp.sdstrim [120]).arg = some cs → cs = [120] := fun cs h => (Option.some.inj h).symm
  exact (Run.nil.snoc ⟨hstep_of hcpy (ok_after h₁), hstep_of hcpy (ok_after h₂)⟩).snoc
    ⟨hstep_of htrim (ok_after h₃), hstep_of htrim (ok_after h₄)⟩

/-- `"x"` is copied over both letters and trimmed away again. -/
theorem sdsclear_forgets_paste : Always SameContent pasteRun ((shaved 97, 0x1018), (shaved 98, 0x1018)) ↔
    ∀ x ∈ pasteRun, TrimsAlike x.1 x.2 := by
  have h₁ : StrAt (letter 97).mem 0x1018 ⟨1, 0, [97, 0]⟩ := ⟨by decide +kernel, by decide, by decide, by decide⟩
  have h₂ : StrAt (letter 98).mem 0x1018 ⟨1, 0, [98, 0]⟩ := ⟨by decide +kernel, by decide, by decide, by decide⟩
  have hclear₁ : result (sdsclear 0x1018) (letter 97) = some () := by decide +kernel
  have hclear₂ : result (sdsclear 0x1018) (letter 98) = some () := by decide +kernel
  exact sdsclear_forgets (bump 0).capped (bump 0).capped_bounded (letter 97) (letter 98) (cleared 97)
    (cleared 98) 0x1018 0x1018 ⟨1, 0, [97, 0]⟩ ⟨1, 0, [98, 0]⟩ h₁ h₂ (by decide) (by decide)
    ⟨by decide, by decide, by decide⟩ ⟨by decide, by decide, by decide⟩ (by decide) (by decide)
    (ok_after hclear₁) (ok_after hclear₂) pasteRun ((shaved 97, 0x1018), (shaved 98, 0x1018)) run_paste

/-- `"a"` and `"b"` are cleared and trimmed, and the letters are back. -/
theorem sdstrim_remembers : sdsclear 0x1018 (letter 97) = .ok ((), cleared 97) ∧
    sdsclear 0x1018 (letter 98) = .ok ((), cleared 98) ∧
    Run (pstep (bump 0).capped) ((cleared 97, 0x1018), (cleared 98, 0x1018)) trimRun
      ((trimmed 97, 0x1018), (trimmed 98, 0x1018)) ∧
    ¬ SameContent ((trimmed 97, 0x1018), (trimmed 98, 0x1018)) := by
  have hclear₁ : result (sdsclear 0x1018) (letter 97) = some () := by decide +kernel
  have hclear₂ : result (sdsclear 0x1018) (letter 98) = some () := by decide +kernel
  have hok₁ : result (sdstrim 0x1018 (.ext [120, 0])) (cleared 97) = some 0x1018 := by decide +kernel
  have hok₂ : result (sdstrim 0x1018 (.ext [120, 0])) (cleared 98) = some 0x1018 := by decide +kernel
  have hcs : ∀ cs, (HOp.sdstrim [120]).arg = some cs → cs = [120] := fun cs h => (Option.some.inj h).symm
  have h₁ : StrAt (trimmed 97).mem 0x1018 ⟨1, 0, [97, 0]⟩ := ⟨by decide +kernel, by decide, by decide, by decide⟩
  have h₂ : StrAt (trimmed 98).mem 0x1018 ⟨1, 0, [98, 0]⟩ := ⟨by decide +kernel, by decide, by decide, by decide⟩
  refine ⟨ok_after hclear₁, ok_after hclear₂, ?_, ?_⟩
  · exact Run.nil.snoc ⟨hstep_of hcs (ok_after hok₁),
      hstep_of hcs (ok_after hok₂)⟩
  · rintro ⟨c₁, c₂, hc₁, hc₂, heq⟩
    obtain rfl := h₁.unique hc₁
    obtain rfl := h₂.unique hc₂
    exact absurd heq (by decide)

end Redis
