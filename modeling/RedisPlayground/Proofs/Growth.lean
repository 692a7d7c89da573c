import RedisPlayground.Memory.Growth
import RedisPlayground.Proofs.TerminatorRuns
import RedisPlayground.Proofs.Ranges

/-! How a call changes the length and the room of its string. `sdsMakeRoomFor`
asks for twice the length that is needed; no other function asks for more. -/

namespace Redis

open CMem

/-- A length that a call finds out before it does anything. -/
def told (x : M Word) (s : State Globals) : ℕ := (result x s).elim 0 BitVec.toNat

/-- The bytes a call stores in a string. -/
def SOp.copies (s : State Globals) : SOp → ℕ
  | .sdsnewlen _ n | .sdscatlen _ _ n | .sdscpylen _ _ n => n.toNat
  | .sdsnew t | .sdscat _ t | .sdscpy _ t => told (strlen t) s
  | .sdsdup p => told (sdslenSize p) s
  | _ => 0

/-- A call that is to shorten its string finds it as it should be: with a terminator, or with the upper
index inside. -/
def SOp.Cuts (s : State Globals) : SOp → Prop
  | .sdstrim p _ => Terminated s p
  | .sdsrange p _ last => ∀ len, sdslenSize p s = .ok (len, s) → len ≠ 0 → (backIndex last len).toNat < len.toNat
  | _ => True

structure Buf.Sized (b : Buf) (n cap : ℕ) : Prop where
  len : b.len.toNat = n
  free : n + b.free.toNat = cap
  chars : b.chars.length = cap + 1

/-- The string stays where it is, or it moves because it is full. -/
inductive Rehoused (t : List Event) (p : Addr) (cap len : ℕ) : Addr → List Event → ℕ → Prop where
  | kept : Rehoused t p cap len p t cap
  | moved {r n} : cap < len → n.toNat = 2 * len + 25 →
      Rehoused t p cap len r (.realloc (base p - PREFIX_SIZE) n (base r - PREFIX_SIZE) :: t) (2 * len)

/-- A call has been given `n` bytes for the string `p`. -/
def Regrows (p : Addr) (len cap n : ℕ) (s : State Globals) (r : Addr) (s' : State Globals) : Prop :=
  ∃ b, Makes s.mem {base p} s'.mem r b ∧ r ≠ NULL ∧ (b.len.toNat < 2 ^ 31 → b.len.toNat ≤ len + n ∧
    ∃ cap', b.Sized b.len.toNat cap' ∧ Rehoused s.trace p cap b.len.toNat r s'.trace cap')

/-- A call has made a string of `n` bytes. -/
def Begins (n : ℕ) (s : State Globals) (r : Addr) (s' : State Globals) : Prop :=
  ∃ b, Makes s.mem 0 s'.mem r b ∧ r ≠ NULL ∧ (b.len.toNat < 2 ^ 31 → b.len.toNat = n ∧ b.Sized n n ∧
    ∃ w : Word, w.toNat = n + 25 ∧ s'.trace = .malloc w (base r - PREFIX_SIZE) :: s.trace)

variable {L : Libc} {s s' : State Globals} {p r : Addr} {b b' b₁ : Buf} {len cap n : ℕ} {w : Word}
  {t : CharPtr} {op : SOp} {tr tr' : List Event}

section Calls

theorem told_eq {x : M Word} (hx : x s = .ok (w, s')) : told x s = w.toNat := by
  rw [told, result_of_ok hx]
  rfl

theorem wp_told {x : M Word} {f : Word → M Addr} {Q : Addr → State Globals → Prop} (hx : ReadOnly x)
    (hf : ∀ w, told x s = w.toNat → wp Any (f w) Q s) : wp Any (x >>= f) Q s := by
  rw [wp_bind]
  refine wp_any fun w s' hok => ?_
  obtain rfl := hx _ _ _ hok
  exact hf w (told_eq hok)

theorem request_toNat {k : Word} (hk : k.toNat + 8 < 2 ^ 64) : (k + PREFIX_SIZE).toNat = k.toNat + 8 := by
  rw [BitVec.toNat_add]
  exact Nat.mod_eq_of_lt hk

theorem sdsnewlen_begins : wp Any (sdsnewlen L t w) (Begins w.toNat s) s := by
  apply sdsnewlen_told.mono
  rintro r s' ⟨b, c, hm, hc, hfree, hnew⟩
  have hlen : b.len.toNat = w.toNat := hm.length.trans hc.length
  refine ⟨b, hm.makes, hm.ne_null, fun hshort => ⟨hlen, ⟨hlen, ?_, ?_⟩, _, ?_, hnew.trace⟩⟩
  · rw [hfree]
    rfl
  · have hchars := hnew.chars
    rw [BitVec.toNat_add, BitVec.toNat_add] at hchars
    change _ = ((16 + _) % _ + 1) % _ at hchars
    omega
  · rw [request_toNat hnew.fits, BitVec.toNat_add, BitVec.toNat_add]
    change ((16 + _) % _ + 1) % _ + 8 = _
    omega

theorem sop_begins (hdest : op.dest = none) : wp Any (op.exec L) (Begins (op.copies s) s) s := by
  cases op with
  | sdsnewlen t n => exact sdsnewlen_begins
  | sdsnew t =>
    cases t with
    | null => exact sdsnewlen_begins
    | _ =>
      refine wp_told readOnly_strlen fun w hw => ?_
      rw [SOp.copies, hw]
      exact sdsnewlen_begins
  | sdsempty => exact sdsnewlen_begins
  | sdsdup p =>
    refine wp_told readOnly_sdslenSize fun w hw => ?_
    rw [SOp.copies, hw]
    exact sdsnewlen_begins
  | _ => contradiction

/-- A string whose block stays as it is. -/
theorem Regrows.kept (hm : Makes s.mem {base p} s'.mem p b) (hp : p ≠ NULL) (htrace : s'.trace = s.trace)
    (hb : b.Sized b.len.toNat cap) (hlen : b.len.toNat ≤ len + n) : Regrows p len cap n s p s' :=
  ⟨b, hm, hp, fun _ => ⟨hlen, cap, hb, htrace ▸ .kept⟩⟩

theorem roomSize_short (hshort : (b.len + w).toNat < 2 ^ 31) :
    (sdshdr.sizeof + (b.len + w) * 2 + 1).toNat = 17 + 2 * (b.len + w).toNat := by
  rw [BitVec.toNat_add, BitVec.toNat_add, BitVec.toNat_mul]
  change ((16 + _ * 2 % _) % _ + 1) % _ = _
  omega

/-- The room that `sdsMakeRoomFor` made, in a string that it left short. -/
theorem Roomed.rehoused (h : Roomed tr p b w r tr' b₁) (hb : b.Sized len cap) (hw : w.toNat = n)
    (hshort : (b.len + w).toNat < 2 ^ 31) (hsum : (b.len + w).toNat = len + n) :
    ∃ cap', Rehoused tr p cap (len + n) r tr' cap' ∧ b₁.chars.length = cap' + 1 ∧
      (b₁.free - w).toNat + (len + n) = cap' := by
  have hlen := hb.len
  have hfree := hb.free
  cases h with
  | fits hle =>
    refine ⟨cap, .kept, hb.chars, ?_⟩
    rw [BitVec.toNat_sub]
    omega
  | moved hgt hfit hroom hchars =>
    rw [roomSize_short hshort] at hchars
    refine ⟨2 * (len + n), .moved (by omega) ?_, by omega, ?_⟩
    · rw [request_toNat hfit, roomSize_short hshort]
      omega
    · have hnew : (b₁.free - w) = b.len + w := by
        rw [hroom]
        ring
      rw [hnew]
      omega

theorem sdscatlen_regrows (h : StrAt s.mem p b) (hp : p ≠ NULL) (hb : b.Sized len cap) (hlen : len < 2 ^ 31) :
    wp Any (sdscatlen L p t w) (Regrows p len cap w.toNat s) s := by
  apply (sdscatlen_told h hp).mono
  rintro r s' ⟨b₁, b', bs, hsized, hroom, hm, hfree, hchars, hin, hbs⟩
  have hsize : b.sizeLen.toNat = len := by rw [Buf.sizeLen, signExtend_len (hb.len ▸ hlen), hb.len]
  have hlen' : b'.len.toNat = len + w.toNat := by
    rw [hm.length, List.length_append, List.length_take_of_le (by omega), hsize, hbs.length]
  refine ⟨b', hm.makes, hm.ne_null, fun hshort => ⟨hlen'.le, ?_⟩⟩
  have hsum : (b.len + w).toNat = len + w.toNat := by
    rw [BitVec.toNat_add, hb.len]
    omega
  obtain ⟨cap', hchange, hlong, hroom'⟩ := hroom.rehoused hb rfl (by omega) hsum
  rw [hlen']
  refine ⟨cap', ⟨hlen', ?_, by omega⟩, hchange⟩
  rw [hfree]
  omega

theorem sdscpylen_regrows (h : StrAt s.mem p b) (hp : p ≠ NULL) (hb : b.Sized len cap) :
    wp Any (sdscpylen L p t w) (Regrows p len cap w.toNat s) s := by
  apply (sdscpylen_told h hp).mono
  rintro r s' ⟨b₁, b', bs, totlen, hsized, hroom, hm, hfree, hchars, hbs⟩
  have hlen' : b'.len.toNat = w.toNat := hm.length.trans hbs.length
  have hlen := hb.len
  have htot := hb.free
  have hfits := h.fits
  rw [Buf.bytes_length, hb.chars] at hfits
  have hcap : (b.free + b.len).toNat = cap := by
    rw [BitVec.toNat_add]
    omega
  refine ⟨b', hm.makes, hm.ne_null, fun hshort => ⟨by omega, ?_⟩⟩
  rw [hlen']
  generalize s'.trace = tr' at hroom ⊢
  cases hroom with
  | fits hle =>
    refine ⟨cap, ⟨hlen', ?_, hchars.trans hb.chars⟩, .kept⟩
    rw [hfree, BitVec.toNat_sub]
    omega
  | room hlt hroom =>
    have hw : b.len + (w - b.len) = w := by ring
    have hdiff : (w - b.len).toNat = w.toNat - len := by
      rw [BitVec.toNat_sub]
      omega
    obtain ⟨cap', hchange, hlong, hroom'⟩ := hroom.rehoused hb hdiff (by rw [hw]; omega) (by rw [hw]; omega)
    rw [Nat.add_sub_cancel' (by omega)] at hchange hroom'
    refine ⟨cap', ⟨hlen', ?_, by omega⟩, hchange⟩
    have hsame : b'.free = b₁.free - (w - b.len) := by
      rw [hfree, hsized.len]
      ring
    rw [hsame]
    omega

/-- `memmove` and the new header. -/
theorem sdskeep_regrows (h : StrAt s.mem p b) (hp : p ≠ NULL) (hb : b.Sized len cap) {k : ℕ} (hw : w.toNat ≤ len) :
    wp Any (sdskeep p k w) (fun _ s' => Regrows p len cap n s p s') s := by
  have hlen := hb.len
  have hfree := hb.free
  apply wp_sdskeep h (Or.inl trivial)
  intro hread hstore m hm
  refine Regrows.kept hm hp rfl ⟨rfl, ?_, ?_⟩ (by simp only [Buf.keep]; omega)
  · have hroom : (b.free + (b.len - w)).toNat = b.free.toNat + (len - w.toNat) := by
      rw [BitVec.toNat_add, BitVec.toNat_sub]
      have hchars := hb.chars
      have hfits := h.fits
      rw [Buf.bytes_length] at hfits
      omega
    simp only [Buf.keep, hroom]
    omega
  · rw [← hb.chars, Buf.keep, List.length_append, slice_length hread, List.length_cons, List.length_drop]
    omega

/-- What a NUL is compared with does not matter: it is found. -/
theorem strchr_nul : wp Any (strchr t 0) (fun found _ => found = true) s := by
  rw [strchr, wp_bind]
  exact readOnly_cstring.wp fun cs => wp_pure.mpr (by simp)

theorem sdstrimFront_ge {k : ℤ} : wp Any (sdstrimFront p t n k) (fun sp _ => k ≤ sp) s := by
  induction n generalizing k with
  | zero => exact wp_pure.mpr le_rfl
  | succ n ih =>
    rw [sdstrimFront, wp_bind]
    refine readOnly_getChar.wp fun c => wp_bind.mpr (readOnly_strchr.wp fun found => ?_)
    refine wp_ite.mpr ⟨fun _ => ih.mono fun sp _ hle => by omega, fun _ => wp_pure.mpr le_rfl⟩

theorem sdstrimBack_le {k : ℤ} : wp Any (sdstrimBack p t n k) (fun ep _ => ep ≤ k) s := by
  induction n generalizing k with
  | zero => exact wp_pure.mpr le_rfl
  | succ n ih =>
    rw [sdstrimBack, wp_bind]
    refine readOnly_getChar.wp fun c => wp_bind.mpr (readOnly_strchr.wp fun found => ?_)
    refine wp_ite.mpr ⟨fun _ => ih.mono fun ep _ hle => by omega, fun _ => wp_pure.mpr le_rfl⟩

/-- The scans do not stop at a NUL. -/
theorem sdstrimFront_nul {k : ℤ} (hnul : getChar p k.toNat s = .ok (0, s)) :
    wp Any (sdstrimFront p t (n + 1) k) (fun sp _ => k + 1 ≤ sp) s := by
  rw [sdstrimFront, wp_bind]
  refine wp.of_eq hnul (wp_bind.mpr ?_)
  refine (readOnly_strchr.keeps strchr_nul).mono ?_
  rintro found s' ⟨rfl, rfl⟩
  exact sdstrimFront_ge

theorem sdstrimBack_nul {k : ℤ} (hnul : getChar p k.toNat s = .ok (0, s)) :
    wp Any (sdstrimBack p t (n + 1) k) (fun ep _ => ep ≤ k - 1) s := by
  rw [sdstrimBack, wp_bind]
  refine wp.of_eq hnul (wp_bind.mpr ?_)
  refine (readOnly_strchr.keeps strchr_nul).mono ?_
  rintro found s' ⟨rfl, rfl⟩
  exact sdstrimBack_le

theorem sdstrim_regrows (h : StrAt s.mem p b) (hp : p ≠ NULL) (hb : b.Sized len cap) (hlen : len < 2 ^ 31)
    (hcut : Terminated s p) : wp Any (sdstrim p t) (Regrows p len cap n s) s := by
  have hnul : getChar p b.len.toNat s = .ok (0, s) := (getChar_iff h).mpr ((terminated_iff h).mp hcut)
  rw [hb.len] at hnul
  have hlast : (b.len.setWidth 32).toInt = len := by
    rw [BitVec.toInt_eq_toNat_cond, BitVec.toNat_setWidth, hb.len]
    split <;> omega
  rw [sdstrim, wp_bind, wp_sdslen h, hlast, wp_bind]
  have hfront : wp Any (sdstrimFront p t (len + 1) 0) (fun sp _ => 0 ≤ sp ∧ (len = 0 → 1 ≤ sp)) s := by
    refine sdstrimFront_ge.and_any ?_
    rcases Nat.eq_zero_or_pos len with rfl | hpos
    · exact (sdstrimFront_nul hnul).mono fun sp _ hle _ => by omega
    · exact wp_any fun sp _ _ hzero => absurd hzero (by omega)
  have hback : wp Any (sdstrimBack p t len len) (fun ep _ => ep ≤ len ∧ (0 < len → ep ≤ len - 1)) s := by
    refine sdstrimBack_le.and_any ?_
    rcases Nat.eq_zero_or_pos len with rfl | hpos
    · exact wp_any fun ep _ _ hpos => absurd hpos (by omega)
    · obtain ⟨k, rfl⟩ : ∃ k, len = k + 1 := ⟨len - 1, by omega⟩
      exact (sdstrimBack_nul hnul).mono fun ep _ hle _ => by omega
  refine (readOnly_sdstrimFront.keeps hfront).mono ?_
  rintro sp s' ⟨rfl, hsp, hone⟩
  rw [wp_bind]
  refine (readOnly_sdstrimBack.keeps hback).mono ?_
  rintro ep s'' ⟨rfl, hep, hless⟩
  rw [wp_bind]
  refine (sdskeep_regrows h hp hb ?_).mono fun _ s' hm => wp_pure.mpr hm
  split
  · exact Nat.zero_le _
  · rw [BitVec.toNat_ofInt]
    rcases Nat.eq_zero_or_pos len with hzero | hpos
    · have := hone hzero
      omega
    · have := hless hpos
      omega

theorem sdsrange_regrows {start last : Word} (h : StrAt s.mem p b) (hp : p ≠ NULL) (hb : b.Sized len cap)
    (hlen : len < 2 ^ 31) (hcut : (SOp.sdsrange p start last).Cuts s) :
    wp Any (sdsrange p start last) (Regrows p len cap n s) s := by
  have hsize : sdslenSize p s = .ok (b.len, s) := by
    refine wp.eq_ok ((wp_sdslenSize_any h).mpr ⟨?_, rfl⟩)
    exact signExtend_len (hb.len ▸ hlen)
  rw [sdsrange, wp_bind]
  refine wp.of_eq hsize (wp_ite.mpr ⟨fun _ => wp_pure.mpr ?_, fun hne => wp_bind.mpr ?_⟩)
  · exact Regrows.kept (Makes.refl h) hp rfl ⟨rfl, by rw [hb.len]; exact hb.free, hb.chars⟩ (by have := hb.len; omega)
  · have hin := hcut b.len hsize hne
    have hnonneg : ∀ k : Word, 0 ≤ (backIndex k b.len).toInt := fun k => by
      rw [backIndex_toInt (hb.len ▸ hlen)]
      exact fromEnd_nonneg
    refine (sdskeep_regrows h hp hb ?_).mono fun _ s' hm => wp_pure.mpr hm
    obtain ⟨-, hup⟩ := toNat_of_nonneg (hnonneg last)
    have hlow := hnonneg start
    have hbl := hb.len
    rw [newlen_toNat hlow (hnonneg last), hup]
    omega

/-- A store does not call the allocator. -/
theorem setBytes_quiet {k : ℕ} {xs : List Byte} : wp Any (setBytes p k xs) (fun _ s' => s'.trace = s.trace) s := by
  refine wp_ite.mpr ⟨fun _ => trivial, fun _ => ?_⟩
  exact wp_writeAt_of trivial fun _ _ _ _ => rfl

theorem sdsclear_quiet : wp Any (sdsclear p) (fun _ s' => s'.trace = s.trace) s := by
  rw [sdsclear, wp_bind]
  refine readOnly_getField.wp fun _ => wp_bind.mpr (readOnly_getField.wp fun _ => wp_bind.mpr ?_)
  refine setBytes_quiet.mono fun _ s₁ h₁ => setBytes_quiet.mono fun _ s₂ h₂ => h₂.trans h₁

theorem sdsmapLoop_quiet {f : Byte → Byte} : wp Any (sdsmapLoop f p n) (fun _ s' => s'.trace = s.trace) s := by
  induction n with
  | zero => exact wp_pure.mpr rfl
  | succ n ih =>
    rw [sdsmapLoop, wp_bind]
    refine ih.mono fun _ s₁ h₁ => wp_bind.mpr (readOnly_getChar.wp fun c => ?_)
    exact setBytes_quiet.mono fun _ s₂ h₂ => h₂.trans h₁

theorem sop_regrows (h : StrAt s.mem p b) (hp : p ≠ NULL) (hb : b.Sized len cap) (hlen : len < 2 ^ 31)
    (hdest : op.dest = some p) (hcut : op.Cuts s) :
    wp Any (op.exec L) (Regrows p len cap (op.copies s) s) s := by
  have hmap : ∀ f : Byte → Byte, wp Any (do let len ← sdslenSize p; sdsmapLoop f p len.toNat)
      (fun _ s' => Regrows p len cap 0 s p s') s := by
    intro f
    rw [wp_bind, wp_sdslenSize_any h]
    refine ((sdsmapLoop_text h).and_any sdsmapLoop_quiet).mono ?_
    rintro _ s' ⟨⟨hn, hm⟩, htrace⟩
    refine Regrows.kept hm hp htrace ⟨rfl, by rw [hb.len]; exact hb.free, ?_⟩ hb.len.le
    rw [← hb.chars, List.length_append, List.length_map, List.length_take_of_le hn, List.length_drop]
    omega
  cases op with
  | sdscat q t =>
    obtain rfl := Option.some.inj hdest
    refine wp_told readOnly_strlen fun w hw => ?_
    rw [SOp.copies, hw]
    exact sdscatlen_regrows h hp hb hlen
  | sdscatlen q t n =>
    obtain rfl := Option.some.inj hdest
    exact sdscatlen_regrows h hp hb hlen
  | sdscpy q t =>
    obtain rfl := Option.some.inj hdest
    refine wp_told readOnly_strlen fun w hw => ?_
    rw [SOp.copies, hw]
    exact sdscpylen_regrows h hp hb
  | sdscpylen q t n =>
    obtain rfl := Option.some.inj hdest
    exact sdscpylen_regrows h hp hb
  | sdsclear q =>
    obtain rfl := Option.some.inj hdest
    refine wp_bind.mpr (((sdsclear_keeps h).and_any sdsclear_quiet).mono ?_)
    rintro _ s' ⟨hm, htrace⟩
    refine wp_pure.mpr (Regrows.kept hm hp htrace ⟨rfl, ?_, hb.chars⟩ (Nat.zero_le _))
    have hroom := hb.free
    have hbl := hb.len
    have hchars := hb.chars
    have hfits := h.fits
    rw [Buf.bytes_length] at hfits
    change 0 + (b.free + b.len).toNat = cap
    rw [BitVec.toNat_add]
    omega
  | sdstrim q t =>
    obtain rfl := Option.some.inj hdest
    exact sdstrim_regrows h hp hb hlen hcut
  | sdsrange q start last =>
    obtain rfl := Option.some.inj hdest
    exact sdsrange_regrows h hp hb hlen hcut
  | sdstolower q =>
    obtain rfl := Option.some.inj hdest
    exact wp_bind.mpr ((hmap tolower).mono fun _ s' hm => wp_pure.mpr hm)
  | sdstoupper q =>
    obtain rfl := Option.some.inj hdest
    exact wp_bind.mpr ((hmap toupper).mono fun _ s' hm => wp_pure.mpr hm)
  | _ => contradiction

end Calls

end Redis
