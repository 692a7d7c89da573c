import RedisPlayground.Proofs.Iteration

/-! `listDup` makes the whole copy or none of it. Its dup method is a partial
function of the elements; when it fails on one, the copies made before are
freed in order and the heap holds nothing else of the attempt. -/

namespace Redis

open CMem

/-- The calls of the method `f` on `vs`, one after the other, the latest first. -/
def callsOf (f : Addr) (vs : List Addr) : List (Addr × Word) := (vs.map fun v => (f, v)).reverse

/-- The dup method `f`, called on the values `vs` in turn from `s₀` on: it copies the `i`-th to a
fresh block with the contents `D i`, or returns NULL if there are none. -/
def Answers (F : Methods) (f : Addr) (s₀ : State Globals) (vs : List Addr) (D : ℕ → Option (List Byte)) : Prop :=
  ∀ i v (s : State Globals), vs[i]? = some v → Extends s₀.mem s.mem →
    calls s.trace = callsOf f (vs.take (i + 1)) ++ calls s₀.trace →
    wp Safe (F.dup f v) (fun r s' => Silent s s' ∧ match D i with
      | some bs => Fresh s.mem r ∧ bs.length + 8 < 2 ^ 64 ∧ s'.mem = put s.mem r bs
      | none => r = NULL ∧ s'.mem = s.mem) s

/-- The free method `f` reaches no block but its argument's. -/
def FreesOne (F : Methods) (f : Addr) : Prop :=
  ∀ v (s : State Globals), (∃ bs, Holds s.mem v bs) →
    wp Safe (F.free f v) (fun _ s' => Silent s s' ∧ ∀ q, q ≠ v → block s'.mem q = block s.mem q) s

/-- The `us` are what the dup method `f` returned when it was called from `s₀` on for the first of
the values `vs`. -/
def Made (F : Methods) (f : Addr) (s₀ : State Globals) (vs us : List Addr) : Prop :=
  ∀ (i : ℕ) u, us[i]? = some u → ∃ v s s', vs[i]? = some v ∧ F.dup f v s = .ok (u, s') ∧
    Extends s₀.mem s.mem ∧ calls s.trace = callsOf f (vs.take (i + 1)) ++ calls s₀.trace

variable {L : Libc} {F : Methods} {x : DList} {s s' s₀ : State Globals} {f v : Addr} {us vs : List Addr}
  {D : ℕ → Option (List Byte)} {m : Mem}

theorem callsOf_append : callsOf f (us ++ vs) = callsOf f vs ++ callsOf f us := by
  unfold callsOf
  simp

@[simp] theorem callsOf_nil : callsOf f [] = [] := rfl

@[simp] theorem callsOf_singleton : callsOf f [v] = [(f, v)] := rfl

theorem callsOf_take {i : ℕ} (hv : vs[i]? = some v) :
    callsOf f (vs.take (i + 1)) = (f, v) :: callsOf f (vs.take i) := by
  rw [List.take_add_one, hv, Option.toList_some, callsOf_append]
  rfl

/-- What is known while the dup method copies the values of `x`: the calls so far, and what it made. -/
structure Dupped (F : Methods) (x : DList) (s₀ : State Globals) (D : ℕ → Option (List Byte)) (us : List Addr)
    (s : State Globals) : Prop where
  calls : calls s.trace = callsOf x.dup (x.values.take us.length) ++ calls s₀.trace
  made : Made F x.dup s₀ x.values us
  contents : ∀ (i : ℕ) u, us[i]? = some u → ∃ bs, D i = some bs ∧ Holds s.mem u bs

/-- What is known while the `us` that were made are freed again and the last of these, `vs`, are left. -/
structure Undoing (F : Methods) (x : DList) (s₀ : State Globals) (D : ℕ → Option (List Byte))
    (us vs : List Addr) (s : State Globals) : Prop where
  calls : ∃ ws, us = ws ++ vs ∧ calls s.trace =
    callsOf x.free (owns x.free ws) ++ (callsOf x.dup (x.values.take (us.length + 1)) ++ calls s₀.trace)
  failed : D us.length = none ∧ ∀ i < us.length, D i ≠ none
  made : Made F x.dup s₀ x.values us
  gone : x.free ≠ NULL → (∀ u, F.free x.free u = zfree u) → ∀ u ∈ us, u ∈ vs ∨ block s.mem u = none

theorem Dupped.keep (h : Dupped F x s₀ D us s) (hs : Spares us s.mem s'.mem) (hsilent : Silent s s') :
    Dupped F x s₀ D us s' := by
  obtain ⟨hcalls, hmade, hcontents⟩ := h
  refine ⟨hsilent.calls_eq.trans hcalls, hmade, fun i u hu => ?_⟩
  obtain ⟨bs, hD, hbs⟩ := hcontents i u hu
  exact ⟨bs, hD, hbs.congr (hs u (List.mem_of_getElem? hu))⟩

/-- The next value is copied, or the copying ends. -/
theorem Answers.copies (h : Answers F x.dup s₀ x.values D) :
    Copies F x.dup s₀.mem x.values (Dupped F x s₀ D) (Undoing F x s₀ D) where
  keep := Dupped.keep
  dup := by
    intro us v s hv hJ hext
    obtain ⟨hcalls, hmade, hcontents⟩ := hJ
    have hrec : CMem.calls (.call x.dup v :: s.trace) =
        callsOf x.dup (x.values.take (us.length + 1)) ++ CMem.calls s₀.trace := by
      rw [callsOf_take hv, List.cons_append, ← hcalls]
      rfl
    have hlt : ∀ i < us.length, D i ≠ none := by
      intro i hi
      obtain ⟨bs, hD, -⟩ := hcontents i _ (List.getElem?_eq_getElem hi)
      simp [hD]
    have hdup := h us.length v { s with trace := .call x.dup v :: s.trace } hv hext hrec
    rw [callDup, wp_bind, wp_record]
    refine hdup.and_run.mono fun r s' hpost => ?_
    obtain ⟨hok, hsilent, hD⟩ := hpost
    have hcalls' := hsilent.calls_eq.trans hrec
    cases hans : D us.length with
    | none =>
      rw [hans] at hD
      refine Or.inl ⟨hD.1, hD.2, ⟨[], rfl, ?_⟩, ⟨hans, hlt⟩, hmade, fun _ _ u hu => Or.inl hu⟩
      rw [owns_nil]
      exact hcalls'
    | some bs =>
      rw [hans] at hD
      obtain ⟨hfresh, hfits, hm⟩ := hD
      refine Or.inr ⟨bs, hfresh, hfits, hm, ?_, fun i u hu => ?_, fun i u hu => ?_⟩
      · rwa [List.length_append, List.length_singleton]
      · rw [List.getElem?_append] at hu
        split_ifs at hu with hi
        · exact hmade i u hu
        · obtain ⟨hi, rfl⟩ := List.getElem?_eq_some_iff.mp hu
          obtain rfl : i = us.length := by
            rw [List.length_singleton] at hi
            omega
          exact ⟨v, { s with trace := .call x.dup v :: s.trace }, _, hv, by simpa using hok, hext, hrec⟩
      · rw [List.getElem?_append] at hu
        split_ifs at hu with hi
        · obtain ⟨cs, hcs, hu'⟩ := hcontents i u hu
          refine ⟨cs, hcs, ?_⟩
          rw [hm]
          exact hu'.put_ne (hfresh.ne hu')
        · obtain ⟨hi, rfl⟩ := List.getElem?_eq_some_iff.mp hu
          obtain rfl : i = us.length := by
            rw [List.length_singleton] at hi
            omega
          refine ⟨bs, hans, ?_⟩
          rw [hm]
          simpa using hfresh.put hfits

/-- The values that were made are freed in order. -/
theorem FreesOne.unmakes (h : x.free ≠ NULL → FreesOne F x.free) : Unmakes F x.free (Undoing F x s₀ D) where
  keep := by
    intro us vs s s' hR hs hsilent
    obtain ⟨⟨ws, hus, hcalls⟩, hfailed, hmade, hgone⟩ := hR
    refine ⟨⟨ws, hus, hsilent.calls_eq.trans hcalls⟩, hfailed, hmade, fun hne hz u hu => ?_⟩
    rw [hs u hu]
    exact hgone hne hz u hu
  free := by
    intro us v vs s hR hlive
    obtain ⟨⟨ws, hus, hcalls⟩, hfailed, hmade, hgone⟩ := hR
    have hus' : us = (ws ++ [v]) ++ vs := by rw [hus, List.append_assoc]; rfl
    unfold FreesOwned freed
    by_cases hnull : x.free = NULL
    · rw [if_pos hnull]
      refine wp_pure.mpr ⟨fun _ _ => rfl, ⟨ws ++ [v], hus', ?_⟩, hfailed, hmade, fun hne => absurd hnull hne⟩
      rw [hcalls, hnull, owns_null, owns_null]
    · obtain ⟨bs, hbs⟩ := hlive v (mem_owns.mpr ⟨hnull, List.mem_singleton_self v⟩)
      rw [if_neg hnull, callFree, wp_bind, wp_record]
      have hcall := h hnull v { s with trace := .call x.free v :: s.trace } ⟨bs, hbs⟩
      have hzfree : wp Any (F.free x.free v) (fun _ s' => (∀ u, F.free x.free u = zfree u) → block s'.mem v = none)
          { s with trace := .call x.free v :: s.trace } := by
        apply wp_any
        intro a s' hok hz
        rw [hz v] at hok
        have hdel : wp Any (zfree v) (fun _ s' => block s'.mem v = none)
            { s with trace := .call x.free v :: s.trace } :=
          (wp_zfree (s := { s with trace := .call x.free v :: s.trace }) hbs).mpr block_del_self
        exact hdel.of_ok hok
      refine (hcall.and_any hzfree).mono fun _ s' hpost => ?_
      obtain ⟨⟨hsilent, hother⟩, hdel⟩ := hpost
      rw [owns_of_ne hnull]
      refine ⟨fun q hq => hother q (by simpa using hq), ⟨ws ++ [v], hus', ?_⟩, hfailed, hmade, fun hne hz u hu => ?_⟩
      · rw [hsilent.calls_eq, owns_append, owns_of_ne hnull, owns_of_ne hnull, callsOf_append]
        rw [owns_of_ne hnull] at hcalls
        exact congrArg _ hcalls
      · by_cases huv : u = v
        · rw [huv]
          exact Or.inr (hdel hz)
        · rw [hother u huv]
          exact (hgone hne hz u hu).imp_left fun hmem => (List.mem_cons.mp hmem).resolve_left huv

/-- How `listDup` ends well: `y` is a copy of `x`, and nothing else has come to the heap. -/
structure Entire (F : Methods) (x : DList) (s₀ : State Globals) (D : ℕ → Option (List Byte)) (y : DList)
    (s : State Globals) : Prop where
  wellFormed : WellFormed s y
  hangs : y.Hangs s.mem
  methods : y.dup = x.dup ∧ y.free = x.free ∧ y.match' = x.match'
  length : y.nodes.length = x.nodes.length
  shared : x.dup = NULL → y.values = x.values
  made : x.dup ≠ NULL → Made F x.dup s₀ x.values y.values ∧
    ∀ (i : ℕ) u, y.values[i]? = some u → ∃ bs, D i = some bs ∧ Holds s.mem u bs
  calls : calls s.trace = callsOf x.dup (owns x.dup x.values) ++ calls s₀.trace
  added : Updates s₀.mem s.mem 0 (↑y.blocks + ↑(owns x.dup y.values))

/-- How `listDup` ends when the dup method fails after making `us`: these have been passed to the
free method in order, and nothing else of the copy is left. -/
structure Abandoned (F : Methods) (x : DList) (s₀ : State Globals) (D : ℕ → Option (List Byte)) (us : List Addr)
    (s : State Globals) : Prop where
  failed : us.length < x.nodes.length ∧ D us.length = none ∧ ∀ i < us.length, D i ≠ none
  made : Made F x.dup s₀ x.values us
  fresh : us.Nodup ∧ ∀ u ∈ us, block s₀.mem u = none
  calls : calls s.trace =
    callsOf x.free (owns x.free us) ++ (callsOf x.dup (x.values.take (us.length + 1)) ++ calls s₀.trace)
  frame : ∀ q ∉ us, block s.mem q = block s₀.mem q
  settled : x.free ≠ NULL → (∀ u, F.free x.free u = zfree u) →
    s.mem = s₀.mem ∧ (Client F → s.glob.used_memory = s₀.glob.used_memory)

theorem Copied.entire (h : Copied s₀.mem (Dupped F x s₀ D) x y s) : Entire F x s₀ D y s := by
  obtain ⟨hadded, hhangs, -, hmethods, hlength, hshared, hcalls, hmade, hcontents⟩ := h
  have hlen : y.values.length = x.values.length := by rw [DList.values, DList.values, List.length_map,
    List.length_map, hlength]
  refine ⟨hhangs.wellFormed, hhangs, hmethods, hlength, hshared, fun hdup => ?_, ?_, hadded⟩
  · rw [owns_of_ne hdup] at hmade hcontents
    exact ⟨hmade, hcontents⟩
  · by_cases hdup : x.dup = NULL
    · rw [hdup, owns_null] at hcalls
      rw [hdup, owns_null]
      exact hcalls
    · rw [owns_of_ne hdup, hlen, List.take_length] at hcalls
      rw [owns_of_ne hdup]
      exact hcalls

theorem Undone.abandoned (h : Undone s₀.mem (Undoing F x s₀ D) x us s)
    (hset : Client F → Settled s₀ s) : Abandoned F x s₀ D us s := by
  obtain ⟨-, hlen, ⟨⟨ws, hus, hcalls⟩, hfailed, hmade, hgone⟩, hnodup, hfresh, hframe⟩ := h
  rw [List.append_nil] at hus
  rw [← hus] at hcalls
  refine ⟨⟨hlen, hfailed⟩, hmade, ⟨hnodup, hfresh⟩, hcalls, hframe, fun hne hz => ?_⟩
  have hmem : s.mem = s₀.mem := by
    apply mem_ext
    intro q
    by_cases hq : q ∈ us
    · rw [hfresh q hq]
      exact (hgone hne hz q hq).resolve_left List.not_mem_nil
    · exact hframe q hq
  exact ⟨hmem, fun hF => used_memory_of_debt (hset hF).debt hmem⟩

/-- `listDup` leaves the list as it is. It returns a copy beside it, or, exactly when the dup method
fails on an element, NULL after it has given back all that it made. -/
theorem listDup_all_or_nothing (L : Libc) (F : Methods) (x : DList) (s : State Globals)
    (D : ℕ → Option (List Byte)) (hx : x.Hangs s.mem) (hdup : x.dup ≠ NULL → Answers F x.dup s x.values D)
    (hfree : x.dup ≠ NULL → x.free ≠ NULL → FreesOne F x.free) :
    wp Safe (listDup L F x.addr) (fun r s' =>
      x.Hangs s'.mem ∧ WellFormed s' x ∧ Extends s.mem s'.mem ∧
      (r = NULL ↔ x.dup ≠ NULL ∧ ∃ i < x.nodes.length, D i = none) ∧
      (r ≠ NULL → ∃ ns, Entire F x s D ⟨r, ns, x.dup, x.free, x.match'⟩ s') ∧
      (r = NULL → ∃ us, Abandoned F x s D us s')) s := by
  have hinit : ∀ s', Silent s s' → Dupped F x s D [] s' := by
    intro s' hsilent
    exact ⟨hsilent.calls_eq, by simp [Made], by simp⟩
  have hused : wp Any (listDup L F x.addr) (fun _ s' => Client F → Settled s s') s := by
    apply wp_any
    intro r s' hok hF
    exact (keeps_listDup L hF x.addr s).of_ok hok
  have hlist : ∀ {s' : State Globals}, Extends s.mem s'.mem → x.Hangs s'.mem := by
    intro s' hext
    refine hx.congr fun q hq => hext q ?_
    obtain ⟨bs, hbs⟩ := hx.live hq
    exact hbs.live
  refine ((wp_listDup Dupped.keep (fun hne => (hdup hne).copies) (fun hne => FreesOne.unmakes (hfree hne)) hx
    hinit).and_any hused).mono fun r s' hpost => ?_
  obtain ⟨⟨ns, hcopied⟩ | ⟨rfl, us, hundone⟩, hset⟩ := hpost
  · have hext : Extends s.mem s'.mem := fun q hq => hcopied.update.old hq
    have hr : r ≠ NULL := hcopied.hangs.header.ne_null
    have hentire := hcopied.entire
    refine ⟨hlist hext, (hlist hext).wellFormed, hext, iff_of_false hr ?_, fun _ => ⟨ns, hentire⟩,
      fun hnull => absurd hnull hr⟩
    rintro ⟨hne, i, hi, hnone⟩
    have hlt : i < ns.length := by rwa [hentire.length]
    obtain ⟨bs, hsome, -⟩ := (hentire.made hne).2 i _ (List.getElem?_eq_getElem (by simpa [DList.values] using hlt))
    rw [hnone] at hsome
    contradiction
  · have hext : Extends s.mem s'.mem := by
      intro q hq
      exact hundone.frame q fun hmem => hq (hundone.fresh q hmem)
    have habandoned := hundone.abandoned hset
    refine ⟨hlist hext, (hlist hext).wellFormed, hext, iff_of_true rfl ⟨hundone.set, us.length, ?_⟩,
      fun hne => absurd rfl hne, fun _ => ⟨us, habandoned⟩⟩
    exact ⟨habandoned.failed.1, habandoned.failed.2.1⟩

/-- Methods whose dup method gives up on a value that begins with 8. -/
def fussyMethods : Methods where
  dup f v := do
    let bs ← getBytes v 0 1
    if bs = [8] then return NULL else intMethods.dup f v
  free _ v := zfree v
  match' := intMethods.match'

theorem client_fussy : Client fussyMethods where
  dup f v := (keeps_getBytes _ _ _).bind fun _ => (keeps_pure _).ite (client_int.dup f v)
  free _ v := keeps_zfree v
  match' := client_int.match'

theorem answers_fussy (hv : Holds s₀.mem v [7, 0, 0, 0]) {w : Addr} (hw : Holds s₀.mem w [8, 0, 0, 0]) :
    Answers fussyMethods f s₀ [v, w] (fun i => if i = 0 then some [7, 0, 0, 0] else none) := by
  intro i u s hu hext _
  change wp Safe (_ >>= _) _ _
  rw [wp_bind]
  rcases i with _ | _ | i
  · obtain rfl : v = u := by simpa using hu
    have hv' := hext.holds hv
    rw [wp_getBytes hv' (by decide), if_neg (by decide)]
    refine ((wp_intMethods_dup f hv').and_any (silent_law.intMethods_dup f v s)).mono fun r s' hpost => ?_
    exact ⟨hpost.2, hpost.1⟩
  · obtain rfl : w = u := by simpa using hu
    rw [wp_getBytes (hext.holds hw) (by decide), if_pos (by decide)]
    exact wp_pure.mpr ⟨silent_law.refl s, rfl, rfl⟩
  · simp at hu

theorem freesOne_zfree (hz : ∀ u, F.free f u = zfree u) : FreesOne F f := by
  rintro v s ⟨bs, hbs⟩
  rw [hz]
  refine (wp.and_any (Q := fun _ s' => s'.mem = del s.mem v) ?_ (silent_law.zfree v s)).mono fun _ s' hpost => ?_
  · exact (wp_zfree hbs).mpr rfl
  · rw [hpost.1]
    exact ⟨hpost.2, fun q hq => block_del_ne hq⟩

theorem listDup_all_or_nothing_fussy :
    wp Safe (listDup (bump 0) fussyMethods walked.addr) (fun r s' => r = NULL ∧ s'.mem = walk₂.mem ∧
      s'.glob.used_memory = walk₂.glob.used_memory) walk₂ := by
  have hv : Holds walk₂.mem 0x2008 [7, 0, 0, 0] := ⟨by decide +kernel, by decide, by decide, by decide⟩
  have hw : Holds walk₂.mem 0x4008 [8, 0, 0, 0] := ⟨by decide +kernel, by decide, by decide, by decide⟩
  have hangs := hangs_walked
  generalize walk₂ = s at *
  refine (listDup_all_or_nothing (bump 0) fussyMethods walked s
    (fun i => if i = 0 then some [7, 0, 0, 0] else none) hangs (fun _ => answers_fussy hv hw)
    (fun _ _ => freesOne_zfree fun _ => rfl)).mono fun r s' hpost => ?_
  obtain ⟨-, -, -, hnull, -, habandoned⟩ := hpost
  have hr : r = NULL := hnull.mpr ⟨by decide, 1, by decide, rfl⟩
  obtain ⟨us, hus⟩ := habandoned hr
  obtain ⟨hmem, hused⟩ := hus.settled (by decide) fun _ => rfl
  exact ⟨hr, hmem, hused client_fussy⟩

end Redis
