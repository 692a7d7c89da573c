import RedisPlayground.Proofs.Terminators

/-! When the strings of a run all have their terminator: `sdsclear` sets the
length to 0 and stores no NUL there, so exactly when each `sdsclear` found one. -/

namespace Redis

open CMem

/-- `buf[len] = '\0'`. -/
def Terminated (s : State Globals) (p : Addr) : Prop :=
  ∃ len, getField (base p) sdshdr.len s = .ok (len, s) ∧ getChar p len.toNat s = .ok (0, s)

def AllTerminated (x : State Globals × Finset Addr) : Prop := ∀ p ∈ x.2, Terminated x.1 p

/-- A call that works on live strings, with any arguments. -/
def tstep (L : Libc) (x : State Globals × Finset Addr) (op : SOp)
    (x' : State Globals × Finset Addr) : Prop :=
  (∀ p, op.dest = some p → p ∈ x.2) ∧ ∃ r, op.exec L x.1 = .ok (r, x'.1) ∧ x'.2 = op.live x.2 r

/-- If the call is an `sdsclear`, the first character of the string is NUL. -/
def ClearsNul (s : State Globals) (op : SOp) : Prop :=
  ∀ p, op = .sdsclear p → getChar p 0 s = .ok (0, s)

/-- The invariant: the live strings are strings. -/
def AllStrings (x : State Globals × Finset Addr) : Prop :=
  ∀ p ∈ x.2, p ≠ NULL ∧ ∃ b, StrAt x.1.mem p b

def SOp.owns (op : SOp) : Multiset Addr :=
  match op.dest with
  | none => 0
  | some p => {base p}

variable {L : Libc} {s s' s₀ : State Globals} {ls : Finset Addr} {p q r : Addr} {b : Buf} {i : ℕ}
  {op : SOp}

theorem terminated_iff (h : StrAt s.mem p b) : Terminated s p ↔ b.chars[b.len.toNat]? = some 0 :=
  nextChar_iff h

/-- Every call but `sdsclear` leaves a string that ends. -/
theorem sop_ends (hdest : ∀ p, op.dest = some p → p ≠ NULL ∧ ∃ b, Ends s.mem p b)
    (hclear : ∀ p, op ≠ .sdsclear p) :
    wp Any (op.exec L) (fun r s' => LeavesEnd s.mem op.owns s'.mem r) s := by
  cases op with
  | sdsnewlen init n => exact sdsnewlen_ends
  | sdsnew init =>
    cases init with
    | null => exact sdsnewlen_ends
    | _ => exact wp_bind.mpr (readOnly_strlen.wp fun _ => sdsnewlen_ends)
  | sdsempty => exact sdsnewlen_ends
  | sdsdup p => exact wp_bind.mpr (readOnly_sdslenSize.wp fun _ => sdsnewlen_ends)
  | sdscat p t =>
    obtain ⟨hp, b, hb⟩ := hdest p rfl
    exact wp_bind.mpr (readOnly_strlen.wp fun _ => sdscatlen_ends hb.str hp)
  | sdscatlen p t n =>
    obtain ⟨hp, b, hb⟩ := hdest p rfl
    exact sdscatlen_ends hb.str hp
  | sdscpy p t =>
    obtain ⟨hp, b, hb⟩ := hdest p rfl
    exact wp_bind.mpr (readOnly_strlen.wp fun _ => sdscpylen_ends hb.str hp)
  | sdscpylen p t n =>
    obtain ⟨hp, b, hb⟩ := hdest p rfl
    exact sdscpylen_ends hb.str hp
  | sdsclear p => exact absurd rfl (hclear p)
  | sdstrim p cset =>
    obtain ⟨hp, b, hb⟩ := hdest p rfl
    exact sdstrim_ends hb.str hp
  | sdsrange p start last =>
    obtain ⟨hp, b, hb⟩ := hdest p rfl
    exact sdsrange_ends hb hp
  | sdstolower p =>
    obtain ⟨hp, b, hb⟩ := hdest p rfl
    exact wp_bind.mpr ((sdsmap_ends (f := tolower) rfl hb hp).mono fun _ _ hm => wp_pure.mpr hm)
  | sdstoupper p =>
    obtain ⟨hp, b, hb⟩ := hdest p rfl
    exact wp_bind.mpr ((sdsmap_ends (f := toupper) rfl hb hp).mono fun _ _ hm => wp_pure.mpr hm)

/-- The strings a call does not work on are as they were. -/
theorem others_kept (op : SOp) (hI : AllStrings (s, ls)) (hu : Updates s.mem s'.mem op.owns {base r})
    (hr : r ≠ NULL ∧ ∃ b, StrAt s'.mem r b) : AllStrings (s', op.live ls r) ∧
      ∀ q ∈ op.live ls r, q ≠ r → q ∈ ls ∧ (Terminated s' q ↔ Terminated s q) := by
  have hother : ∀ q ∈ op.live ls r, q ≠ r → q ∈ ls ∧ q ≠ NULL ∧
      ∃ b, StrAt s.mem q b ∧ StrAt s'.mem q b := by
    intro q hq hqr
    have hmem : q ∈ ls ∧ base q ∉ op.owns := by
      rw [SOp.live] at hq
      rw [SOp.owns]
      cases hd : op.dest with
      | none =>
        rw [hd] at hq
        exact ⟨Finset.mem_of_mem_insert_of_ne hq hqr, Multiset.notMem_zero _⟩
      | some p =>
        rw [hd] at hq
        have hq := Finset.mem_of_mem_insert_of_ne hq hqr
        refine ⟨Finset.mem_of_mem_erase hq, fun hb => Finset.ne_of_mem_erase hq ?_⟩
        exact base_sds_inj.mp (Multiset.mem_singleton.mp hb)
    obtain ⟨hnull, b, hb⟩ := hI q hmem.1
    have hqr' : base q ∉ ({base r} : Multiset Addr) := fun hb =>
      hqr (base_sds_inj.mp (Multiset.mem_singleton.mp hb))
    exact ⟨hmem.1, hnull, b, hb, hb.congr (hu.frame _ hmem.2 hqr')⟩
  refine ⟨fun q hq => ?_, fun q hq hqr => ?_⟩
  · by_cases hqr : q = r
    · exact hqr ▸ hr
    · obtain ⟨-, hnull, b, -, hb⟩ := hother q hq hqr
      exact ⟨hnull, b, hb⟩
  · obtain ⟨hmem, -, b, hb, hb'⟩ := hother q hq hqr
    exact ⟨hmem, by rw [terminated_iff hb, terminated_iff hb']⟩

theorem tstep_terminated {x x' : State Globals × Finset Addr} (hI : AllStrings x)
    (hP : AllTerminated x) (hstep : tstep L x op x') :
    AllStrings x' ∧ (AllTerminated x' ↔ ClearsNul x.1 op) := by
  obtain ⟨s, ls⟩ := x
  obtain ⟨s', ls'⟩ := x'
  obtain ⟨hdest, r, hok, rfl⟩ := hstep
  by_cases hclear : ∃ p, op = .sdsclear p
  · obtain ⟨p, rfl⟩ := hclear
    have hp : p ∈ ls := hdest p rfl
    obtain ⟨hnull, b, hb⟩ := hI p hp
    have hwp : wp Any ((SOp.sdsclear p).exec L) (fun r s' => r = p ∧
        Makes s.mem {base p} s'.mem p { b with len := 0, free := b.free + b.len }) s :=
      wp_bind.mpr ((sdsclear_keeps hb).mono fun _ _ hm => wp_pure.mpr ⟨rfl, hm⟩)
    obtain ⟨rfl, hm⟩ := hwp.of_ok hok
    obtain ⟨hI', hothers⟩ := others_kept (.sdsclear r) hI hm.update ⟨hnull, _, hm.str⟩
    have hself : Terminated s' r ↔ getChar r 0 s = .ok (0, s) := by
      rw [terminated_iff hm.str, getChar_iff hb]
      rfl
    refine ⟨hI', fun hall q hq => ?_, fun hnul q hq => ?_⟩
    · obtain rfl := SOp.sdsclear.inj hq
      exact hself.mp (hall r (Finset.mem_insert_self _ _))
    · by_cases hqr : q = r
      · exact hqr ▸ hself.mpr (hnul r rfl)
      · obtain ⟨hmem, hiff⟩ := hothers q hq hqr
        exact hiff.mpr (hP q hmem)
  · have hends : ∀ p, op.dest = some p → p ≠ NULL ∧ ∃ b, Ends s.mem p b := by
      intro p hp
      obtain ⟨hnull, b, hb⟩ := hI p (hdest p hp)
      exact ⟨hnull, b, hb, (terminated_iff hb).mp (hP p (hdest p hp))⟩
    have hleaves := (sop_ends hends fun p hp => hclear ⟨p, hp⟩).of_ok hok
    obtain ⟨hu, ⟨b, hb⟩, hnull⟩ := hleaves
    obtain ⟨hI', hothers⟩ := others_kept op hI hu ⟨hnull, b, hb.str⟩
    refine ⟨hI', fun _ p hp => absurd ⟨p, hp⟩ hclear, fun _ q hq => ?_⟩
    by_cases hqr : q = r
    · exact hqr ▸ (terminated_iff hb.str).mpr hb.nul
    · obtain ⟨hmem, hiff⟩ := hothers q hq hqr
      exact hiff.mpr (hP q hmem)

/-- All strings have their terminator all along a run exactly if every `sdsclear`
of the run is called on a string whose first character is NUL already. -/
theorem strings_terminated (L : Libc) (s₀ s : State Globals) (ls : Finset Addr)
    (tr : List ((State Globals × Finset Addr) × SOp)) (h : Run (tstep L) (s₀, ∅) tr (s, ls)) :
    Always AllTerminated tr (s, ls) ↔ ∀ x ∈ tr, ClearsNul x.1.1 x.2 :=
  h.always_iff (I := AllStrings) (by simp [AllStrings]) (by simp [AllTerminated])
    fun _ _ _ hI hP hstep => tstep_terminated hI hP hstep

/-- An empty string is cleared, and gets a character. -/
def nul₁ : State Globals := after (sdsempty (bump 0)) zinit
def nul₂ : State Globals := after (sdsclear 0x1018) nul₁
def nul₃ : State Globals := after (sdscat (bump 0) 0x1018 (.ext [97, 0])) nul₂

def nulRun : List ((State Globals × Finset Addr) × SOp) :=
  [((zinit, ∅), .sdsempty), ((nul₁, {0x1018}), .sdsclear 0x1018),
    ((nul₂, {0x1018}), .sdscat 0x1018 (.ext [97, 0]))]

theorem tstep_ok {L : Libc} {s s' : State Globals} {ls ls' : Finset Addr} {op : SOp} {r : Addr}
    (hdest : ∀ p, op.dest = some p → p ∈ ls) (hok : op.exec L s = .ok (r, s')) (hls : ls' = op.live ls r) :
    tstep L (s, ls) op (s', ls') := ⟨hdest, r, hok, hls⟩

theorem run_nul : Run (tstep (bump 0)) (zinit, ∅) nulRun (nul₃, {0x2018}) := by
  have hdest : ∀ op : SOp, op.dest = some 0x1018 → ∀ p, op.dest = some p → p ∈ ({0x1018} : Finset Addr) :=
    fun _ h p hp => Finset.mem_singleton.mpr (Option.some.inj (hp.symm.trans h))
  have hok₁ : result (SOp.exec (bump 0) .sdsempty) zinit = some 0x1018 := by decide +kernel
  have hok₂ : result (SOp.exec (bump 0) (.sdsclear 0x1018)) nul₁ = some 0x1018 := by decide +kernel
  have hok₃ : result (SOp.exec (bump 0) (.sdscat 0x1018 (.ext [97, 0]))) nul₂ = some 0x2018 := by decide +kernel
  have h₁ : tstep (bump 0) (zinit, ∅) .sdsempty (nul₁, {0x1018}) := tstep_ok nofun (ok_after hok₁) rfl
  have h₂ : tstep (bump 0) (nul₁, {0x1018}) (.sdsclear 0x1018) (nul₂, {0x1018}) :=
    tstep_ok (hdest _ rfl) (ok_after hok₂) (by decide)
  have h₃ : tstep (bump 0) (nul₂, {0x1018}) (.sdscat 0x1018 (.ext [97, 0])) (nul₃, {0x2018}) :=
    tstep_ok (hdest _ rfl) (ok_after hok₃) (by decide)
  exact ((Run.nil.snoc h₁).snoc h₂).snoc h₃

theorem strings_terminated_empty : Always AllTerminated nulRun (nul₃, {0x2018}) ↔
    ∀ x ∈ nulRun, ClearsNul x.1.1 x.2 :=
  strings_terminated (bump 0) zinit nul₃ {0x2018} nulRun run_nul

/-- The string `"a"` is cleared: its length is 0 and its first character is still `'a'`. -/
def stale₁ : State Globals := after (sdsnew (bump 0) (.ext [97, 0])) zinit
def stale₂ : State Globals := after (sdsclear 0x1018) stale₁

def staleRun : List ((State Globals × Finset Addr) × SOp) :=
  [((zinit, ∅), .sdsnew (.ext [97, 0])), ((stale₁, {0x1018}), .sdsclear 0x1018)]

theorem sdsclear_stale : Run (tstep (bump 0)) (zinit, ∅) staleRun (stale₂, {0x1018}) ∧
    ¬ AllTerminated (stale₂, {0x1018}) := by
  have hok₁ : result (SOp.exec (bump 0) (.sdsnew (.ext [97, 0]))) zinit = some 0x1018 := by decide +kernel
  have hok₂ : result (SOp.exec (bump 0) (.sdsclear 0x1018)) stale₁ = some 0x1018 := by decide +kernel
  have hlen₂ : result (getField (base 0x1018) sdshdr.len) stale₂ = some 0 := by decide +kernel
  have hchar₂ : result (getChar 0x1018 0) stale₂ = some 97 := by decide +kernel
  have h₁ : tstep (bump 0) (zinit, ∅) (.sdsnew (.ext [97, 0])) (stale₁, {0x1018}) :=
    tstep_ok nofun (ok_after hok₁) rfl
  have h₂ : tstep (bump 0) (stale₁, {0x1018}) (.sdsclear 0x1018) (stale₂, {0x1018}) :=
    tstep_ok (fun p hp => Finset.mem_singleton.mpr (Option.some.inj hp).symm) (ok_after hok₂) (by decide)
  refine ⟨(Run.nil.snoc h₁).snoc h₂, fun hall => ?_⟩
  obtain ⟨len, hlen, hnul⟩ := hall 0x1018 (Finset.mem_singleton_self _)
  rw [result_of_ok hlen] at hlen₂
  obtain rfl := Option.some.inj hlen₂
  have hchar : result (getChar 0x1018 0) stale₂ = some 0 := result_of_ok hnul
  exact absurd (hchar₂.symm.trans hchar) (by decide)

end Redis
