import Mathlib.Data.Finmap
import RedisPlayground.Memory.Bytes

/-! A block heap with undefined behaviour. A pointer is the address of a block;
an access names the block and an offset, and one that is not inside a live block
is undefined. Which address an allocation gets and what the new block contains
is up to a `Libc`, which may decide by the whole history of the program. -/

namespace CMem

abbrev Addr := Word

def NULL : Addr := 0

/-- The live blocks, by the address of their first byte. -/
abbrev Mem := Finmap (fun _ : Addr => List Byte)

/-- The calls a program makes to its allocator and through function pointers. -/
inductive Event where
  | malloc (n : Word) (p : Addr)
  | realloc (q : Addr) (n : Word) (p : Addr)
  | free (p : Addr)
  | call (f : Addr) (arg : Word)
deriving DecidableEq

/-- The live blocks after a call; `none` if it gives out a block that is live or
takes back one that is not. -/
def Event.settle (e : Event) (live : Finset Addr) : Option (Finset Addr) :=
  match e with
  | .malloc _ p =>
    if p = NULL then some live else if p ∈ live then none else some (insert p live)
  | .realloc q _ p =>
    if p = NULL then some live
    else if q ∈ live ∧ p ∉ live.erase q then some (insert p (live.erase q)) else none
  | .free p => if p ∈ live then some (live.erase p) else none
  | .call _ _ => some live

/-- The live blocks after some calls, the latest first, if each block was freed
at most once and only after it was allocated. -/
def ledger (live : Finset Addr) : List Event → Option (Finset Addr)
  | [] => some live
  | e :: es => (ledger live es).bind e.settle

theorem ledger_append {live : Finset Addr} {es es' : List Event} :
    ledger live (es' ++ es) = (ledger live es).bind fun live' => ledger live' es' := by
  induction es' with
  | nil =>
    rw [List.nil_append]
    exact (Option.bind_fun_some _).symm
  | cons e es' ih =>
    rw [List.cons_append, ledger, ih, Option.bind_assoc]
    rfl

/-- The calls through function pointers among some events. -/
def calls : List Event → List (Addr × Word)
  | [] => []
  | .call f arg :: es => (f, arg) :: calls es
  | _ :: es => calls es

@[simp] theorem calls_append {es es' : List Event} : calls (es ++ es') = calls es ++ calls es' := by
  induction es with
  | nil => rfl
  | cons e es ih => cases e <;> simp [calls, ih]

/-- The state of a program with static variables `γ`; the latest event comes first. -/
structure State (γ : Type) where
  mem : Mem
  glob : γ
  trace : List Event

/-- How a program ends without a result. -/
inductive Stop where
  | abort
  | ub
  | hang
deriving DecidableEq

abbrev C (γ : Type) := StateT (State γ) (Except Stop)

/-- `malloc` and `realloc`: the answer `none` is NULL. The last clause of each
says that one past the end of a block is an address too. -/
structure Libc where
  malloc : List Event → Mem → Word → Option (Addr × List Byte)
  realloc : List Event → Mem → Addr → Word → Option (Addr × List Byte)
  malloc_spec : ∀ {t m n p bs}, malloc t m n = some (p, bs) →
    p ∉ m ∧ bs.length = n.toNat ∧ p ≠ NULL ∧ p.toNat + n.toNat < 2 ^ 64
  realloc_spec : ∀ {t m q n p bs old}, m.lookup q = some old → realloc t m q n = some (p, bs) →
    (p = q ∨ p ∉ m) ∧ bs.length = n.toNat ∧
      bs.take old.length = old.take n.toNat ∧ p ≠ NULL ∧ p.toNat + n.toNat < 2 ^ 64

/-- An allocator that answers every call at the next address of a sequence and
fills what is new in a block with one byte. -/
def bump (fill : Byte) : Libc where
  malloc t m n :=
    let p : Addr := BitVec.ofNat 64 (4096 * (t.length + 1))
    if p ∉ m ∧ p ≠ NULL ∧ p.toNat + n.toNat < 2 ^ 64 then
      some (p, List.replicate n.toNat fill)
    else none
  realloc t m q n :=
    let p : Addr := BitVec.ofNat 64 (4096 * (t.length + 1))
    let old := (m.lookup q).getD []
    if p ∉ m ∧ p ≠ NULL ∧ p.toNat + n.toNat < 2 ^ 64 then
      some (p, old.take n.toNat ++ List.replicate (n.toNat - old.length) fill)
    else none
  malloc_spec := by
    intro t m n p bs h
    obtain ⟨⟨hp, hn, hlt⟩, rfl, rfl⟩ := by simpa only [Option.ite_none_right_eq_some,
      Option.some.injEq, Prod.mk.injEq] using h
    exact ⟨hp, List.length_replicate, hn, hlt⟩
  realloc_spec := by
    intro t m q n p bs old hold h
    obtain ⟨⟨hp, hn, hlt⟩, rfl, rfl⟩ := by simpa only [Option.ite_none_right_eq_some,
      Option.some.injEq, Prod.mk.injEq, hold, Option.getD_some] using h
    refine ⟨Or.inr hp, by simp; omega, ?_, hn, hlt⟩
    rcases Nat.le_total n.toNat old.length with hle | hle
    · rw [Nat.sub_eq_zero_of_le hle, List.replicate_zero, List.append_nil, List.take_take,
        Nat.min_eq_right hle]
    · rw [List.take_of_length_le hle, List.take_left]

/-- No object is larger than a difference of pointers into it can say. -/
structure Libc.Bounded (L : Libc) : Prop where
  malloc : ∀ {t m n p bs}, L.malloc t m n = some (p, bs) → n.toNat < 2 ^ 63
  realloc : ∀ {t m q n p bs}, L.realloc t m q n = some (p, bs) → n.toNat < 2 ^ 63

/-- The allocator that refuses what would be too large. -/
def Libc.capped (L : Libc) : Libc where
  malloc t m n := if n.toNat < 2 ^ 63 then L.malloc t m n else none
  realloc t m q n := if n.toNat < 2 ^ 63 then L.realloc t m q n else none
  malloc_spec := by
    intro t m n p bs h
    split at h
    · exact L.malloc_spec h
    · contradiction
  realloc_spec := by
    intro t m q n p bs old hold h
    split at h
    · exact L.realloc_spec hold h
    · contradiction

theorem Libc.capped_bounded (L : Libc) : L.capped.Bounded where
  malloc := by
    intro t m n p bs h
    exact (Option.ite_none_right_eq_some.mp h).1
  realloc := by
    intro t m q n p bs h
    exact (Option.ite_none_right_eq_some.mp h).1

section Primitives

variable {γ : Type}

def stop {α : Type} (e : Stop) : C γ α := fun _ => .error e

def record (e : Event) : C γ Unit := fun s => .ok ((), { s with trace := e :: s.trace })

def readAt (p : Addr) (off n : ℕ) : C γ (List Byte) := fun s =>
  if p = NULL then .error .ub
  else match s.mem.lookup p with
    | some bs => if off + n ≤ bs.length then .ok (slice bs off n, s) else .error .ub
    | none => .error .ub

def writeAt (p : Addr) (off : ℕ) (xs : List Byte) : C γ Unit := fun s =>
  if p = NULL then .error .ub
  else match s.mem.lookup p with
    | some bs =>
      if off + xs.length ≤ bs.length then
        .ok ((), { s with mem := s.mem.insert p (splice bs off xs) })
      else .error .ub
    | none => .error .ub

def readWord (p : Addr) (off : ℕ) : C γ Word := do
  let bs ← readAt p off 8
  return bytesWord bs

def writeWord (p : Addr) (off : ℕ) (w : Word) : C γ Unit := writeAt p off (wordBytes w)

def malloc (L : Libc) (n : Word) : C γ Addr := fun s =>
  match L.malloc s.trace s.mem n with
  | some (p, bs) =>
    .ok (p, { s with mem := s.mem.insert p bs, trace := .malloc n p :: s.trace })
  | none => .ok (NULL, { s with trace := .malloc n NULL :: s.trace })

def realloc (L : Libc) (q : Addr) (n : Word) : C γ Addr := fun s =>
  if q = NULL then malloc L n s
  else if q ∈ s.mem then
    match L.realloc s.trace s.mem q n with
    | some (p, bs) =>
      .ok (p, { s with mem := (s.mem.erase q).insert p bs, trace := .realloc q n p :: s.trace })
    | none => .ok (NULL, { s with trace := .realloc q n NULL :: s.trace })
  else .error .ub

def free (p : Addr) : C γ Unit := fun s =>
  if p = NULL then .ok ((), s)
  else if p ∈ s.mem then
    .ok ((), { s with mem := s.mem.erase p, trace := .free p :: s.trace })
  else .error .ub

end Primitives

/-- The state in which a program ends that has a result. -/
def after {γ α : Type} (x : C γ α) (s : State γ) : State γ :=
  match x s with
  | .ok (_, s') => s'
  | .error _ => s

/-- The result of a program, if it has one. -/
def result {γ α : Type} (x : C γ α) (s : State γ) : Option α :=
  match x s with
  | .ok (a, _) => some a
  | .error _ => none

theorem ok_after {γ α : Type} {x : C γ α} {s : State γ} {a : α} (h : result x s = some a) :
    x s = .ok (a, after x s) := by
  unfold result at h
  unfold after
  split at h
  · next heq => rw [heq, Option.some.inj h]
  · contradiction

/-- How a program stops, if it has no result. -/
def fault {γ α : Type} (x : C γ α) (s : State γ) : Option Stop :=
  match x s with
  | .ok _ => none
  | .error e => some e

theorem error_of_fault {γ α : Type} {x : C γ α} {s : State γ} {e : Stop} (h : fault x s = some e) : x s = .error e := by
  unfold fault at h
  split at h
  · contradiction
  · next heq => rw [heq, Option.some.inj h]

theorem result_of_ok {γ α : Type} {x : C γ α} {s s' : State γ} {a : α} (h : x s = .ok (a, s')) :
    result x s = some a := by
  rw [result, h]

/-- Which ends without a result a reader of a program accepts: out of memory
only, every one, or none. -/
abbrev Safe : Stop → Prop := fun e => e = .abort
abbrev Any : Stop → Prop := fun _ => True
abbrev Never : Stop → Prop := fun _ => False

section Wp

variable {γ : Type} {α β : Type} {E : Stop → Prop} {x : C γ α} {f : α → C γ β} {s s' : State γ}
  {Q Q' : α → State γ → Prop} {a : α}

/-- From `s`, `x` ends in a result satisfying `Q` or in a stop accepted by `E`. -/
def wp (E : Stop → Prop) (x : C γ α) (Q : α → State γ → Prop) (s : State γ) : Prop :=
  match x s with
  | .ok (a, s') => Q a s'
  | .error e => E e

theorem wp.mono (h : wp E x Q s) (hQ : ∀ a s', Q a s' → Q' a s') : wp E x Q' s := by
  unfold wp at h ⊢
  split
  · next heq => rw [heq] at h; exact hQ _ _ h
  · next heq => rw [heq] at h; exact h

theorem wp.weaken {E' : Stop → Prop} (h : wp E x Q s) (hE : ∀ e, E e → E' e) : wp E' x Q s := by
  unfold wp at h ⊢
  split
  · next heq => rw [heq] at h; exact h
  · next heq => rw [heq] at h; exact hE _ h

theorem wp.and_any (h : wp E x Q s) (h' : wp Any x Q' s) : wp E x (fun a s' => Q a s' ∧ Q' a s') s := by
  unfold wp at h h' ⊢
  split
  · next heq => rw [heq] at h h'; exact ⟨h, h'⟩
  · next heq => rw [heq] at h; exact h

theorem wp.and_run (h : wp E x Q s) : wp E x (fun a s' => x s = .ok (a, s') ∧ Q a s') s := by
  unfold wp at h ⊢
  split
  · next heq => rw [heq] at h; exact ⟨heq, h⟩
  · next heq => rw [heq] at h; exact h

/-- A program that is safe, and of which something else is known unless it aborts, has a result. -/
theorem wp.clash (h : wp Safe x Q s) (h' : wp (· ≠ .abort) x Q' s) : ∃ a s', Q a s' ∧ Q' a s' := by
  unfold wp at h h'
  split at h
  · next a s' heq => rw [heq] at h'; exact ⟨a, s', h, h'⟩
  · next heq => rw [heq] at h'; exact absurd h h'

/-- A program that is safe has a result or is out of memory. -/
theorem wp.ends (h : wp Safe x Q s) : x s = .error .abort ∨ ∃ a s', x s = .ok (a, s') ∧ Q a s' := by
  unfold wp at h
  split at h
  · next a s' heq => exact Or.inr ⟨a, s', heq, h⟩
  · next heq => exact Or.inl (heq.trans (congrArg Except.error h))

theorem wp.of_not_safe (h : ¬ wp Safe x (fun _ _ => True) s) : wp (· ≠ .abort) x Q s := by
  unfold wp at h ⊢
  split
  · next heq => rw [heq] at h; exact absurd trivial h
  · next heq => rw [heq] at h; exact h

theorem wp.of_ok (h : wp E x Q s) (hx : x s = .ok (a, s')) : Q a s' := by
  unfold wp at h
  rwa [hx] at h

theorem wp.of_eq (hx : x s = .ok (a, s')) (hQ : Q a s') : wp E x Q s := by
  unfold wp
  rwa [hx]

theorem wp.eq_ok (h : wp Never x (fun b t => b = a ∧ t = s') s) : x s = .ok (a, s') := by
  unfold wp at h
  split at h
  · next heq => rw [heq, h.1, h.2]
  · exact h.elim

theorem wp.run (h : wp Never x Q s) : ∃ a t, x s = .ok (a, t) ∧ Q a t := by
  unfold wp at h
  split at h
  · next a t heq => exact ⟨a, t, heq, h⟩
  · exact h.elim

/-- A program that ends well and gives back the state has a result. -/
theorem wp.exists_ok {P : α → Prop} (h : wp Never x (fun a t => t = s' ∧ P a) s) :
    ∃ a, x s = .ok (a, s') ∧ P a := by
  obtain ⟨a, t, hx, rfl, hP⟩ := h.run
  exact ⟨a, hx, hP⟩

theorem wp.eq_error {e : Stop} (h : wp (· = e) x (fun _ _ => False) s) : x s = .error e := by
  unfold wp at h
  split at h
  · exact h.elim
  · next heq => rw [heq, h]

/-- Two programs of which one satisfies what the other does end alike. -/
theorem eq_of_wp {y : C γ α} (h : ∀ (E : Stop → Prop) Q, wp E y Q s → wp E x Q s) : x s = y s := by
  cases hy : y s with
  | ok r =>
    have hx := h Never (fun a s' => r = (a, s')) (wp.of_eq hy rfl)
    obtain ⟨a, s', hok, rfl⟩ := hx.run
    exact hok
  | error e =>
    apply wp.eq_error
    apply h (· = e) (fun _ _ => False)
    unfold wp
    rw [hy]

theorem wp_any (h : ∀ a s', x s = .ok (a, s') → Q a s') : wp Any x Q s := by
  unfold wp
  split
  · next heq => exact h _ _ heq
  · trivial

@[simp] theorem wp_pure : wp E (pure a : C γ α) Q s ↔ Q a s := Iff.rfl

@[simp] theorem wp_bind {Q : β → State γ → Prop} :
    wp E (x >>= f) Q s ↔ wp E x (fun a s' => wp E (f a) Q s') s := by
  simp only [wp, bind, StateT.bind, Except.bind]
  cases x s <;> rfl

@[simp] theorem wp_map {g : α → β} {Q : β → State γ → Prop} :
    wp E (g <$> x) Q s ↔ wp E x (fun a s' => Q (g a) s') s := by
  rw [map_eq_pure_bind, wp_bind]
  rfl

theorem wp_ite {P : Prop} [Decidable P] {x y : C γ α} :
    wp E (if P then x else y) Q s ↔ (P → wp E x Q s) ∧ (¬ P → wp E y Q s) := by
  by_cases h : P <;> simp [h]

@[simp] theorem wp_stop {e : Stop} : wp E (stop e : C γ α) Q s ↔ E e := Iff.rfl

@[simp] theorem wp_record {e : Event} {Q : Unit → State γ → Prop} :
    wp E (record e) Q s ↔ Q () { s with trace := e :: s.trace } := Iff.rfl

@[simp] theorem wp_get {Q : State γ → State γ → Prop} : wp E (get : C γ (State γ)) Q s ↔ Q s s := Iff.rfl

@[simp] theorem wp_modify {g : State γ → State γ} {Q : PUnit → State γ → Prop} :
    wp E (modify g : C γ PUnit) Q s ↔ Q ⟨⟩ (g s) := Iff.rfl

theorem wp_readAt {p : Addr} {off n : ℕ} {bs : List Byte} {Q : List Byte → State γ → Prop}
    (hp : p ≠ NULL) (h : s.mem.lookup p = some bs) (hn : off + n ≤ bs.length) :
    wp E (readAt p off n) Q s ↔ Q (slice bs off n) s := by
  simp only [wp, readAt, if_neg hp, h, if_pos hn]

theorem wp_writeAt {p : Addr} {off : ℕ} {bs xs : List Byte} {Q : Unit → State γ → Prop}
    (hp : p ≠ NULL) (h : s.mem.lookup p = some bs) (hn : off + xs.length ≤ bs.length) :
    wp E (writeAt p off xs) Q s ↔ Q () { s with mem := s.mem.insert p (splice bs off xs) } := by
  simp only [wp, writeAt, if_neg hp, h, if_pos hn]

/-- The rules for a reader that accepts undefined behaviour: the access was
inside a live block, or there is nothing to show. -/
theorem wp_readAt_of {p : Addr} {off n : ℕ} {Q : List Byte → State γ → Prop} (hE : E .ub)
    (hQ : ∀ bs, p ≠ NULL → s.mem.lookup p = some bs → off + n ≤ bs.length → Q (slice bs off n) s) :
    wp E (readAt p off n) Q s := by
  unfold wp readAt
  by_cases hp : p = NULL
  · simpa only [if_pos hp] using hE
  cases h : s.mem.lookup p with
  | none => simpa only [if_neg hp] using hE
  | some bs =>
    by_cases hn : off + n ≤ bs.length
    · simpa only [if_neg hp, if_pos hn] using hQ bs hp h hn
    · simpa only [if_neg hp, if_neg hn] using hE

theorem wp_writeAt_of {p : Addr} {off : ℕ} {xs : List Byte} {Q : Unit → State γ → Prop} (hE : E .ub)
    (hQ : ∀ bs, p ≠ NULL → s.mem.lookup p = some bs → off + xs.length ≤ bs.length →
      Q () { s with mem := s.mem.insert p (splice bs off xs) }) :
    wp E (writeAt p off xs) Q s := by
  unfold wp writeAt
  by_cases hp : p = NULL
  · simpa only [if_pos hp] using hE
  cases h : s.mem.lookup p with
  | none => simpa only [if_neg hp] using hE
  | some bs =>
    by_cases hn : off + xs.length ≤ bs.length
    · simpa only [if_neg hp, if_pos hn] using hQ bs hp h hn
    · simpa only [if_neg hp, if_neg hn] using hE

theorem wp_malloc {L : Libc} {n : Word} {Q : Addr → State γ → Prop}
    (hnull : L.malloc s.trace s.mem n = none → Q NULL { s with trace := .malloc n NULL :: s.trace })
    (hnew : ∀ p bs, L.malloc s.trace s.mem n = some (p, bs) →
      Q p { s with mem := s.mem.insert p bs, trace := .malloc n p :: s.trace }) :
    wp E (malloc L n) Q s := by
  unfold wp malloc
  cases h : L.malloc s.trace s.mem n with
  | none => exact hnull h
  | some r => exact hnew _ _ h

theorem wp_realloc {L : Libc} {q : Addr} {n : Word} {Q : Addr → State γ → Prop}
    (hq : q ≠ NULL) (hlive : q ∈ s.mem)
    (hnull : L.realloc s.trace s.mem q n = none → Q NULL { s with trace := .realloc q n NULL :: s.trace })
    (hnew : ∀ p bs, L.realloc s.trace s.mem q n = some (p, bs) →
      Q p { s with mem := (s.mem.erase q).insert p bs, trace := .realloc q n p :: s.trace }) :
    wp E (realloc L q n) Q s := by
  unfold wp realloc
  rw [if_neg hq, if_pos hlive]
  cases h : L.realloc s.trace s.mem q n with
  | none => exact hnull h
  | some r => exact hnew _ _ h

theorem wp_free {p : Addr} {Q : Unit → State γ → Prop} (hp : p ≠ NULL) (hlive : p ∈ s.mem) :
    wp E (free p) Q s ↔ Q () { s with mem := s.mem.erase p, trace := .free p :: s.trace } := by
  simp only [wp, free, if_neg hp, if_pos hlive]

end Wp

section ReadOnly

variable {γ : Type} {α β : Type} {x : C γ α} {f : α → C γ β} {s : State γ} {Q : α → State γ → Prop}

/-- A program that leaves the state as it finds it. -/
def ReadOnly (x : C γ α) : Prop := ∀ s a s', x s = .ok (a, s') → s' = s

theorem ReadOnly.wp (h : ReadOnly x) (hQ : ∀ a, Q a s) : wp Any x Q s :=
  wp_any fun a s' hx => h s a s' hx ▸ hQ a

theorem ReadOnly.keeps {E : Stop → Prop} {P : α → Prop} (h : ReadOnly x) (hx : CMem.wp E x (fun a _ => P a) s) :
    CMem.wp E x (fun a s' => s' = s ∧ P a) s :=
  (hx.and_any (h.wp fun _ => rfl)).mono fun _ _ hpost => ⟨hpost.2.symm, hpost.1⟩

theorem ReadOnly.ok_of_result {a : α} (h : ReadOnly x) (hr : result x s = some a) : x s = .ok (a, s) := by
  have hok := ok_after hr
  rwa [h _ _ _ hok] at hok

theorem readOnly_of_wp (h : ∀ s, CMem.wp Any x (fun _ s' => s' = s) s) : ReadOnly x :=
  fun s _ _ hx => (h s).of_ok hx

theorem readOnly_pure (a : α) : ReadOnly (pure a : C γ α) := readOnly_of_wp fun _ => wp_pure.mpr rfl

theorem readOnly_stop (e : Stop) : ReadOnly (stop e : C γ α) := readOnly_of_wp fun _ => trivial

theorem ReadOnly.bind (h : ReadOnly x) (hf : ∀ a, ReadOnly (f a)) : ReadOnly (x >>= f) :=
  readOnly_of_wp fun s => wp_bind.mpr (h.wp fun a => wp_any fun b s' hb => hf a s b s' hb)

theorem ReadOnly.ite {P : Prop} [Decidable P] {y : C γ α} (h : ReadOnly x) (h' : ReadOnly y) :
    ReadOnly (if P then x else y) := by
  split
  · exact h
  · exact h'

theorem readOnly_readAt (p : Addr) (off n : ℕ) : ReadOnly (readAt p off n : C γ (List Byte)) :=
  readOnly_of_wp fun _ => wp_readAt_of trivial fun _ _ _ _ => rfl

end ReadOnly

end CMem
