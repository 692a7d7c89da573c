import RedisPlayground.Proofs.Blocks

/-! The books of the allocator. `total` is what the size headers of the live
blocks add up to, prefixes included, and `debt` how far `used_memory` is off.
No program that reaches the heap through `zmalloc.cc` and the accesses behind
its pointers changes the debt, and the trace of its calls accounts for every
block that came or went. A program that gives back every block it took gives
back the counter too. -/

namespace Redis

open CMem

variable {m : Mem} {b : Addr} {bs old : List Byte} {α β : Type}

/-- The size that stands in front of the block at `b`. -/
def header (m : Mem) (b : Addr) : Word := bytesWord (((m.lookup b).getD []).take 8)

def total (m : Mem) : Word := ∑ b ∈ m.keys, (header m b + PREFIX_SIZE)

def debt (s : State Globals) : Word := s.glob.used_memory - total s.mem

theorem header_insert_self : header (m.insert b bs) b = bytesWord (bs.take 8) := by
  rw [header, Finmap.lookup_insert, Option.getD_some]

theorem header_insert_ne {c : Addr} (h : c ≠ b) : header (m.insert b bs) c = header m c := by
  rw [header, Finmap.lookup_insert_of_ne _ h, header]

theorem header_erase_ne {c : Addr} (h : c ≠ b) : header (m.erase b) c = header m c := by
  rw [header, Finmap.lookup_erase_ne h, header]

theorem keys_insert : (m.insert b bs).keys = insert b m.keys := by
  ext c
  simp [Finmap.mem_keys, Finmap.mem_insert]

theorem total_insert (h : b ∉ m) :
    total (m.insert b bs) = bytesWord (bs.take 8) + PREFIX_SIZE + total m := by
  have hb : b ∉ m.keys := by rwa [Finmap.mem_keys]
  rw [total, keys_insert, Finset.sum_insert hb, header_insert_self, total]
  congr 1
  refine Finset.sum_congr rfl fun c hc => ?_
  rw [header_insert_ne (ne_of_mem_of_not_mem hc hb)]

theorem total_erase (h : b ∈ m) : total (m.erase b) = total m - (header m b + PREFIX_SIZE) := by
  have hb : b ∈ m.keys := by rwa [Finmap.mem_keys]
  rw [total, Finmap.keys_erase, total, ← Finset.add_sum_erase _ _ hb, add_sub_cancel_left]
  exact Finset.sum_congr rfl fun c hc => by rw [header_erase_ne (Finset.ne_of_mem_erase hc)]

/-- Only the header of a live block counts. -/
theorem total_write (h : m.lookup b = some old) (hhdr : bs.take 8 = old.take 8) :
    total (m.insert b bs) = total m := by
  have hb : b ∈ m.keys := by
    rw [Finmap.mem_keys]
    exact Finmap.mem_of_lookup_eq_some h
  rw [total, keys_insert, Finset.insert_eq_self.mpr hb, total]
  refine Finset.sum_congr rfl fun c _ => ?_
  by_cases hc : c = b
  · subst hc
    rw [header_insert_self, hhdr, header, h, Option.getD_some]
  · rw [header_insert_ne hc]

/-- From `s` to `s'` the debt stays and the calls account for the live blocks. -/
structure Settled (s s' : State Globals) : Prop where
  debt : debt s' = debt s
  log : ∃ es, s'.trace = es ++ s.trace ∧ ledger s.mem.keys es = some s'.mem.keys

variable {s s' s'' : State Globals}

theorem Settled.of_eq (hdebt : Redis.debt s' = Redis.debt s) (htrace : s'.trace = s.trace)
    (hkeys : s'.mem.keys = s.mem.keys) : Settled s s' :=
  ⟨hdebt, [], htrace, by rw [hkeys]; rfl⟩

theorem Settled.one {e : Event} (hdebt : Redis.debt s' = Redis.debt s) (htrace : s'.trace = e :: s.trace)
    (hkeys : e.settle s.mem.keys = some s'.mem.keys) : Settled s s' :=
  ⟨hdebt, [e], htrace, hkeys⟩

theorem Settled.trans (h : Settled s s') (h' : Settled s' s'') : Settled s s'' := by
  obtain ⟨es, htrace, hlog⟩ := h.log
  obtain ⟨es', htrace', hlog'⟩ := h'.log
  refine ⟨h'.debt.trans h.debt, es' ++ es, by rw [htrace', htrace, List.append_assoc], ?_⟩
  rw [ledger_append, hlog]
  exact hlog'

/-- A program whose books are right wherever it starts. -/
def Keeps (x : M α) : Prop := ∀ s, wp Any x (fun _ s' => Settled s s') s

theorem Keeps.of_ok {x : M α} (h : Keeps x) {a : α} (hx : x s = .ok (a, s')) : Settled s s' :=
  (h s).of_ok hx

theorem keeps_pure (a : α) : Keeps (pure a : M α) := fun _ => wp_pure.mpr (Settled.of_eq rfl rfl rfl)

theorem keeps_stop (e : Stop) : Keeps (stop e : M α) := fun _ => wp_stop.mpr trivial

theorem keeps_call (f arg : Addr) : Keeps (record (.call f arg)) :=
  fun _ => wp_record.mpr (Settled.one rfl rfl rfl)

theorem Keeps.bind {x : M α} {f : α → M β} (hx : Keeps x) (hf : ∀ a, Keeps (f a)) :
    Keeps (x >>= f) := by
  intro s
  rw [wp_bind]
  exact (hx s).mono fun a s' h => (hf a s').mono fun b s'' h' => h.trans h'

theorem Keeps.ite {P : Prop} [Decidable P] {x y : M α} (hx : Keeps x) (hy : Keeps y) :
    Keeps (if P then x else y) := by
  by_cases h : P
  · rwa [if_pos h]
  · rwa [if_neg h]

theorem keeps_fuel : Keeps fuel := fun _ => by
  rw [fuel, wp_bind, wp_get, wp_pure]
  exact Settled.of_eq rfl rfl rfl

theorem keeps_readAt (p : Addr) (off n : ℕ) : Keeps (readAt p off n) :=
  fun _ => wp_readAt_of trivial fun _ _ _ _ => Settled.of_eq rfl rfl rfl

theorem keeps_getBytes (p : Addr) (off n : ℕ) : Keeps (getBytes p off n) :=
  (keeps_stop _).ite (keeps_readAt _ _ _)

theorem keys_insert_of_mem (h : m.lookup b = some old) : (m.insert b bs).keys = m.keys := by
  rw [keys_insert, Finset.insert_eq_self, Finmap.mem_keys]
  exact Finmap.mem_of_lookup_eq_some h

theorem keeps_setBytes (p : Addr) (off : ℕ) (xs : List Byte) : Keeps (setBytes p off xs) := by
  refine (keeps_stop _).ite fun s => wp_writeAt_of trivial fun bs _ hbs hlen => ?_
  have hhdr : (splice bs (8 + off) xs).take 8 = bs.take 8 := by
    rw [splice, List.append_assoc, List.take_append_of_le_length
      (by rw [List.length_take]; omega), List.take_take, Nat.min_eq_left (by omega)]
  refine Settled.of_eq ?_ rfl (keys_insert_of_mem hbs)
  simp only [debt, total_write hbs hhdr]

theorem keeps_getField (p : Addr) (i : ℕ) : Keeps (getField p i) :=
  (keeps_getBytes _ _ _).bind fun _ => keeps_pure _

theorem keeps_setField (p : Addr) (i : ℕ) (w : Word) : Keeps (setField p i w) := keeps_setBytes _ _ _

theorem take_splice_header (raw : List Byte) (size : Word) :
    bytesWord ((splice raw 0 (wordBytes size)).take 8) = size := by
  rw [splice_zero, List.take_left' (by simp), bytesWord_wordBytes]

/-- The header and the counter agree on what a new block counts. -/
theorem keeps_zmalloc (L : Libc) (size : Word) : Keeps (zmalloc L size) := by
  intro s
  rw [zmalloc, wp_bind]
  refine wp_malloc (fun _ => ?_) fun b raw hb => ?_
  · rw [if_pos rfl]
    trivial
  obtain ⟨hfresh, -, hnull, -⟩ := L.malloc_spec hb
  rw [if_neg hnull, wp_bind]
  refine wp_writeAt_of trivial fun bs _ hbs _ => ?_
  rw [wp_bind, increment_used_memory, wp_modify, wp_pure]
  refine Settled.one ?_ rfl ?_
  · rw [debt, debt]
    simp only [Finmap.insert_insert, total_insert hfresh, take_splice_header]
    ring
  · rw [Event.settle, if_neg hnull, if_neg (by rwa [Finmap.mem_keys]), Finmap.insert_insert, keys_insert]

theorem header_of_lookup (h : m.lookup b = some bs) : header m b = bytesWord (bs.take 8) := by
  rw [header, h, Option.getD_some]

theorem keeps_zremalloc (L : Libc) (p : Addr) (size : Word) : Keeps (zremalloc L p size) := by
  intro s
  rw [zremalloc]
  by_cases hp : p = NULL
  · rw [if_pos hp]
    exact keeps_zmalloc L size s
  rw [if_neg hp, wp_bind, readWord, wp_bind]
  refine wp_readAt_of trivial fun old hbase hold _ => ?_
  have hmem := Finmap.mem_of_lookup_eq_some hold
  rw [wp_pure, wp_bind]
  refine wp_realloc hbase hmem (fun _ => ?_) fun b raw hb => ?_
  · rw [if_pos rfl]
    trivial
  obtain ⟨hfresh, -, -, hnull, -⟩ := L.realloc_spec hold hb
  have hgone : b ∉ s.mem.erase (p - PREFIX_SIZE) := by
    rw [Finmap.mem_erase]
    rintro ⟨hne, hmem'⟩
    exact hfresh.elim hne (fun hnew => hnew hmem')
  rw [if_neg hnull, wp_bind]
  refine wp_writeAt_of trivial fun bs _ hbs _ => ?_
  rw [wp_bind, decrement_used_memory, wp_modify, wp_bind, increment_used_memory, wp_modify, wp_pure]
  refine Settled.one ?_ rfl ?_
  · rw [debt, debt]
    simp only [Finmap.insert_insert, total_insert hgone, total_erase hmem, header_of_lookup hold,
      take_splice_header, slice_zero]
    ring
  · rw [Event.settle, if_neg hnull, if_pos, Finmap.insert_insert, keys_insert, Finmap.keys_erase]
    rw [← Finmap.keys_erase, Finmap.mem_keys, Finmap.mem_keys]
    exact ⟨hmem, hgone⟩

theorem keeps_zfree (p : Addr) : Keeps (zfree p) := by
  intro s
  rw [zfree]
  by_cases hp : p = NULL
  · rw [if_pos hp, wp_pure]
    exact Settled.of_eq rfl rfl rfl
  rw [if_neg hp, wp_bind, readWord, wp_bind]
  refine wp_readAt_of trivial fun old hbase hold _ => ?_
  have hmem := Finmap.mem_of_lookup_eq_some hold
  rw [wp_pure, wp_bind, decrement_used_memory, wp_modify]
  refine Iff.mpr (wp_free hbase hmem) ?_
  refine Settled.one ?_ rfl ?_
  · rw [debt, debt]
    simp only [total_erase hmem, header_of_lookup hold, slice_zero]
    ring
  · rw [Event.settle, if_pos (by rwa [Finmap.mem_keys]), Finmap.keys_erase]

/-- `R` relates the states before and after the program, wherever it starts. -/
def Obeys (R : State Globals → State Globals → Prop) (x : M α) : Prop :=
  ∀ s, wp Any x (fun _ s' => R s s') s

/-- A relation that holds across every access to the heap through `zmalloc.cc`. -/
structure Law (R : State Globals → State Globals → Prop) : Prop where
  refl : ∀ s, R s s
  trans : ∀ {s s' s''}, R s s' → R s' s'' → R s s''
  setBytes : ∀ p off xs, Obeys R (setBytes p off xs)
  zmalloc : ∀ L size, Obeys R (zmalloc L size)
  zfree : ∀ p, Obeys R (zfree p)

namespace Law

variable {R : State Globals → State Globals → Prop} (hR : Law R)

include hR

theorem pure (a : α) : Obeys R (Pure.pure a : M α) := fun s => wp_pure.mpr (hR.refl s)

theorem bind {x : M α} {f : α → M β} (hx : Obeys R x) (hf : ∀ a, Obeys R (f a)) : Obeys R (x >>= f) := by
  intro s
  rw [wp_bind]
  exact (hx s).mono fun a s' h => (hf a s').mono fun b s'' h' => hR.trans h h'

omit hR in
theorem ite {P : Prop} [Decidable P] {x y : M α} (hx : Obeys R x) (hy : Obeys R y) :
    Obeys R (if P then x else y) := by
  by_cases h : P
  · rwa [if_pos h]
  · rwa [if_neg h]

theorem readOnly {x : M α} (hx : ReadOnly x) : Obeys R x := fun s => hx.wp fun _ => hR.refl s

theorem getField (p : Addr) (i : ℕ) : Obeys R (getField p i) := hR.readOnly readOnly_getField

theorem setField (p : Addr) (i : ℕ) (w : Word) : Obeys R (setField p i w) := hR.setBytes _ _ _

theorem getInt (p : Addr) (i : ℕ) : Obeys R (getInt p i) :=
  hR.readOnly ((readOnly_getBytes _).bind fun _ => readOnly_pure _)

theorem setInt (p : Addr) (i : ℕ) (k : BitVec 32) : Obeys R (setInt p i k) := hR.setBytes _ _ _

end Law

theorem settled_law : Law Settled where
  refl _ := Settled.of_eq rfl rfl rfl
  trans h h' := h.trans h'
  setBytes := keeps_setBytes
  zmalloc := keeps_zmalloc
  zfree := keeps_zfree

theorem trivial_law : Law fun _ _ => True where
  refl _ := trivial
  trans _ _ := trivial
  setBytes _ _ _ _ := wp_any fun _ _ _ => trivial
  zmalloc _ _ _ := wp_any fun _ _ _ => trivial
  zfree _ _ := wp_any fun _ _ _ => trivial

/-- The debt alone. -/
theorem debt_law : Law fun s s' => debt s' = debt s where
  refl _ := rfl
  trans h h' := h'.trans h
  setBytes p off xs s := (keeps_setBytes p off xs s).mono fun _ _ h => h.debt
  zmalloc L size s := (keeps_zmalloc L size s).mono fun _ _ h => h.debt
  zfree p s := (keeps_zfree p s).mono fun _ _ h => h.debt

/-- A program that gives back the heap gives back the counter. -/
theorem used_memory_of_debt (h : debt s' = debt s) (hmem : s'.mem = s.mem) :
    s'.glob.used_memory = s.glob.used_memory := by
  unfold debt at h
  rwa [hmem, sub_left_inj] at h

/-- From `s` to `s'` no function pointer was called. -/
def Silent (s s' : State Globals) : Prop := ∃ es, s'.trace = es ++ s.trace ∧ calls es = []

theorem Silent.trans (h : Silent s s') (h' : Silent s' s'') : Silent s s'' := by
  obtain ⟨es, htrace, hes⟩ := h
  obtain ⟨es', htrace', hes'⟩ := h'
  exact ⟨es' ++ es, by rw [htrace', htrace, List.append_assoc], by rw [calls_append, hes, hes']; rfl⟩

theorem Silent.calls_eq (h : Silent s s') : calls s'.trace = calls s.trace := by
  obtain ⟨es, htrace, hes⟩ := h
  rw [htrace, calls_append, hes, List.nil_append]

theorem silent_law : Law Silent where
  refl _ := ⟨[], rfl, rfl⟩
  trans := Silent.trans
  setBytes p off xs := by
    apply Law.ite (fun s => wp_stop.mpr trivial)
    intro s
    apply wp_writeAt_of trivial
    intro bs _ _ _
    exact ⟨[], rfl, rfl⟩
  zmalloc L size := by
    intro s
    rw [zmalloc, wp_bind]
    refine wp_malloc (fun _ => ?_) fun b raw hb => ?_
    · rw [if_pos rfl]
      trivial
    · obtain ⟨-, -, hnull, -⟩ := L.malloc_spec hb
      rw [if_neg hnull, wp_bind]
      apply wp_writeAt_of trivial
      intro bs _ _ _
      rw [wp_bind, increment_used_memory, wp_modify, wp_pure]
      exact ⟨[_], rfl, rfl⟩
  zfree p := by
    intro s
    rw [zfree]
    by_cases hp : p = NULL
    · rw [if_pos hp, wp_pure]
      exact ⟨[], rfl, rfl⟩
    · rw [if_neg hp, wp_bind, readWord, wp_bind]
      apply wp_readAt_of trivial
      intro old hbase hold _
      rw [wp_pure, wp_bind, decrement_used_memory, wp_modify]
      have hmem := Finmap.mem_of_lookup_eq_some hold
      exact Iff.mpr (wp_free hbase hmem) ⟨[_], rfl, rfl⟩

end Redis
