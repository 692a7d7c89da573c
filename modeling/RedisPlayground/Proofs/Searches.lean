import Mathlib.Data.List.TakeWhile
import RedisPlayground.Proofs.Iteration

/-! The two ways to find a node of a list, by its value and by its number. The search goes through
the list with an iterator on the heap, the other way along the links with a counter. -/

namespace Redis

open CMem

/-- Whether the match method of a list, or the comparison in its place, finds `key` in a value of
the list is `hit`. A method reads what is in `m`, may run out of memory, and leaves all as it was. -/
def Finds (F : Methods) (m : Mem) (x : DList) (key : Addr) (hit : Addr → Bool) : Prop :=
  ∀ v ∈ x.values, if x.match' = NULL then hit v = decide (key = v)
    else ∀ s : State Globals, Extends m s.mem → wp Safe (F.match' x.match' v key)
      (fun r s' => (r ≠ 0 ↔ hit v) ∧ s'.mem = s.mem ∧ s'.glob = s.glob) s

variable {L : Libc} {F : Methods} {m : Mem} {x : DList} {s : State Globals} {a key : Addr}
  {ns : List (Addr × Addr)} {hit : Addr → Bool}

theorem listIndex_node (h : x.Hangs s.mem) (hlen : x.nodes.length < 2 ^ 31) {k : ℕ} (hk : k < x.addrs.length) :
    listIndex x.addr (BitVec.ofNat 32 k) s = .ok (x.addrs[k], s) := by
  have hlt : k < 2 ^ 31 := Nat.lt_trans (by simpa [DList.addrs] using hk) hlen
  rw [listIndex_eq h hlen, BitVec.toNat_ofNat, Nat.mod_eq_of_lt (by omega), List.getElem?_eq_getElem hk,
    Option.getD_some]

theorem listIndex_outside (h : x.Hangs s.mem) (hlen : x.nodes.length < 2 ^ 31) {index : BitVec 32}
    (hout : index.toInt < 0 ∨ (x.addrs.length : ℤ) ≤ index.toInt) :
    listIndex x.addr index s = .ok (NULL, s) := by
  have haddrs : x.addrs.length = x.nodes.length := List.length_map ..
  have hle : x.addrs.length ≤ index.toNat := by
    rw [BitVec.toInt_eq_toNat_cond] at hout
    split at hout <;> omega
  rw [listIndex_eq h hlen, List.getElem?_eq_none hle, Option.getD_none]

theorem Finds.matches (h : Finds F s.mem x key hit) (hx : x.Hangs s.mem) :
    ∀ v ∈ x.values, MatchesBy Safe (fun s s' => debt s' = debt s) F s.mem x.addr key hit v := by
  intro v hv s₁ hs
  have hans := h v hv
  rw [listMatches, wp_bind, wp_getField (hs.holds hx.header) rfl]
  by_cases hf : x.match' = NULL
  · rw [if_pos hf] at hans
    rw [if_pos hf, wp_pure]
    exact ⟨hans.symm, rfl, rfl⟩
  · rw [if_neg hf] at hans
    rw [if_neg hf, callMatch, wp_bind, wp_bind, wp_record]
    refine (hans { s₁ with trace := .call x.match' v :: s₁.trace } hs).mono fun r s' hpost => ?_
    obtain ⟨hr, hmem, hglob⟩ := hpost
    refine wp_pure.mpr ⟨?_, hmem, ?_⟩
    · rw [Bool.eq_iff_iff, decide_eq_true_iff]
      exact hr
    · simp only [debt, hmem, hglob]

/-- Where a walk stops that drops what does not match: nowhere, or at the first match. -/
theorem first_dropWhile_none (hnull : NULL ∉ ns.map Prod.fst) :
    first (ns.dropWhile fun n => !hit n.2) NULL = NULL ↔ ∀ v ∈ ns.map Prod.snd, hit v = false := by
  have hsub : (ns.dropWhile fun n => !hit n.2).map Prod.fst ⊆ ns.map Prod.fst :=
    ((List.dropWhile_sublist _).map Prod.fst).subset
  rw [first_eq_iff fun hmem => hnull (hsub hmem), List.dropWhile_eq_nil_iff, List.forall_mem_map]
  simp only [Bool.not_eq_true']

theorem first_dropWhile_least {k : ℕ} (hk : k < ns.length) (hmatch : hit ns[k].2 = true)
    (hleast : ∀ j (hj : j < k), hit ns[j].2 = false) :
    first (ns.dropWhile fun n => !hit n.2) NULL = ns[k].1 := by
  have hindex : ns.findIdx (fun n => hit n.2) = k := by
    rw [List.findIdx_eq hk]
    exact ⟨hmatch, hleast⟩
  rw [List.dropWhile_eq_drop_findIdx_not]
  simp only [Bool.not_not, hindex]
  rw [List.drop_eq_getElem_cons hk, first_cons]

/-- The search finds the node that has the least number of those with a value that matches, and
NULL if there is none. `listIndex` finds each node by its number, and NULL for all other numbers.
Neither changes the list, and the search leaves the counter of the allocator as it was. -/
theorem search_and_index_agree (L : Libc) (F : Methods) (x : DList) (key : Addr) (hit : Addr → Bool)
    (s : State Globals) (hx : x.Hangs s.mem) (hlen : x.nodes.length < 2 ^ 31)
    (hfinds : Finds F s.mem x key hit) :
    (∀ k (hk : k < x.addrs.length), listIndex x.addr (BitVec.ofNat 32 k) s = .ok (x.addrs[k], s)) ∧
    (∀ index : BitVec 32, index.toInt < 0 ∨ (x.addrs.length : ℤ) ≤ index.toInt →
      listIndex x.addr index s = .ok (NULL, s)) ∧
    wp Safe (listSearchKey L F x.addr key) (fun r s' => s'.mem = s.mem ∧
      s'.glob.used_memory = s.glob.used_memory ∧ (r = NULL ↔ ∀ v ∈ x.values, hit v = false) ∧
      ∀ k (hk : k < x.values.length), hit x.values[k] = true →
        (∀ j (hj : j < k), hit x.values[j] = false) →
        listIndex x.addr (BitVec.ofNat 32 k) s' = .ok (r, s')) s := by
  refine ⟨fun k => listIndex_node hx hlen, fun index => listIndex_outside hx hlen, ?_⟩
  refine (wp_listSearchKeyBy debt_law hx (hfinds.matches hx)).mono fun r s' hpost => ?_
  obtain ⟨⟨hmem, rfl⟩, hdebt⟩ := hpost
  refine ⟨hmem, used_memory_of_debt hdebt hmem, first_dropWhile_none (Linked.null_notMem hx.links), ?_⟩
  intro k hk hmatch hleast
  have hk' : k < x.nodes.length := by simpa [DList.values] using hk
  simp only [DList.values, List.getElem_map] at hmatch hleast
  rw [first_dropWhile_least hk' hmatch hleast, listIndex_node (hmem ▸ hx) hlen (by simpa [DList.addrs] using hk')]
  simp only [DList.addrs, List.getElem_map]

/-- The key 8 is found in the second value. -/
theorem search_and_index_agree_pair :
    (∀ k (hk : k < walked.addrs.length),
      listIndex walked.addr (BitVec.ofNat 32 k) walk₂ = .ok (walked.addrs[k], walk₂)) ∧
    (∀ index : BitVec 32, index.toInt < 0 ∨ (walked.addrs.length : ℤ) ≤ index.toInt →
      listIndex walked.addr index walk₂ = .ok (NULL, walk₂)) ∧
    wp Safe (listSearchKey (bump 0) intMethods walked.addr 0x4008) (fun r s' => s'.mem = walk₂.mem ∧
      s'.glob.used_memory = walk₂.glob.used_memory ∧
      (r = NULL ↔ ∀ v ∈ walked.values, decide (v = 0x4008) = false) ∧
      ∀ k (hk : k < walked.values.length), decide (walked.values[k] = 0x4008) = true →
        (∀ j (hj : j < k), decide (walked.values[j] = 0x4008) = false) →
        listIndex walked.addr (BitVec.ofNat 32 k) s' = .ok (r, s')) walk₂ := by
  have hvalue₁ : Holds walk₂.mem 0x2008 [7, 0, 0, 0] := ⟨by decide +kernel, by decide, by decide, by decide⟩
  have hvalue₂ : Holds walk₂.mem 0x4008 [8, 0, 0, 0] := ⟨by decide +kernel, by decide, by decide, by decide⟩
  have hhangs := hangs_walked
  generalize walk₂ = s at *
  have hfinds : Finds intMethods s.mem walked 0x4008 (fun v => decide (v = 0x4008)) := by
    have hanswer : ∀ (v : Addr) bs (r : BitVec 32), Holds s.mem v bs → bs.length = 4 →
        r = (if bs = [8, 0, 0, 0] then 1 else 0) → (r ≠ 0 ↔ decide (v = 0x4008) = true) →
        ∀ s' : State Globals, Extends s.mem s'.mem → wp Safe (intMethods.match' walked.match' v 0x4008)
          (fun r s'' => (r ≠ 0 ↔ decide (v = 0x4008) = true) ∧ s''.mem = s'.mem ∧ s''.glob = s'.glob) s' := by
      intro v bs r hv hlen hr hiff s' hs
      change wp Safe (_ >>= _) _ _
      rw [wp_bind, wp_getBytes (hs.holds hv) (by omega), wp_bind, wp_getBytes (hs.holds hvalue₂) (by decide),
        wp_pure]
      have hkey : slice ([8, 0, 0, 0] : List Byte) 0 4 = [8, 0, 0, 0] := rfl
      rw [hkey, ← hlen, slice_self, ← hr]
      exact ⟨hiff, rfl, rfl⟩
    intro v hv
    rw [if_neg (by decide)]
    rcases List.mem_cons.mp hv with rfl | hv
    · exact hanswer _ _ 0 hvalue₁ rfl (by decide) (by decide)
    · obtain rfl := List.mem_singleton.mp hv
      exact hanswer _ _ 1 hvalue₂ rfl (by decide) (by decide)
  exact search_and_index_agree (bump 0) intMethods walked 0x4008 (fun v => decide (v = 0x4008)) s hhangs
    (by decide) hfinds

end Redis
