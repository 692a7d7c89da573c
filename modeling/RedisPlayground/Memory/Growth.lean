import Mathlib.Data.Multiset.Basic
import Mathlib.Algebra.BigOperators.Group.Multiset.Basic
import Mathlib.Tactic
import RedisPlayground.Memory.Heap

/-! Buffers that are moved to twice the room they need when they are full. What
such moves cost is paid for by the bytes the buffers were given, with any number
of them, in any order, and also when some are shortened or given up on the way. -/

namespace CMem

/-- A buffer: the bytes in it, those there is room for, how often it was moved and
what it was given in all. -/
structure Buffer (ι : Type*) where
  name : ι
  len : ℕ
  cap : ℕ
  moves : ℕ
  given : ℕ

/-- It was given what it has room for, up to a factor of 2, and each move has doubled the room. -/
structure Buffer.Sound {ι : Type*} (x : Buffer ι) : Prop where
  len : x.len ≤ x.given
  cap : x.cap ≤ 2 * x.given
  moves : 2 ^ (x.moves + 1) ≤ x.cap + 2

/-- The buffers `W` and those given up were given at most `given` bytes, and `asked` bytes were asked
for to keep them. -/
structure Charged {ι : Type*} (W : Multiset (Buffer ι)) (given asked : ℕ) : Prop where
  sound : ∀ x ∈ W, x.Sound
  paid : ∃ lost, (W.map Buffer.given).sum + lost ≤ given ∧ asked ≤ 2 * (W.map Buffer.cap).sum + 4 * lost

namespace Charged

variable {ι : Type*} {W : Multiset (Buffer ι)} {x y : Buffer ι} {p : ι} {given asked n len : ℕ}

theorem nil : Charged (0 : Multiset (Buffer ι)) 0 0 := ⟨by simp, 0, by simp, by simp⟩

theorem forall_cons {P : Buffer ι → Prop} (hy : P y) (hW : ∀ x ∈ W, P x) : ∀ x ∈ y ::ₘ W, P x :=
  fun _ hx => (Multiset.mem_cons.mp hx).elim (fun heq => heq ▸ hy) (hW _)

/-- A new buffer, just large enough. -/
theorem make (h : Charged W given asked) : Charged (⟨p, n, n, 0, n⟩ ::ₘ W) (given + n) (asked + n) := by
  obtain ⟨lost, hgiven, hasked⟩ := h.paid
  refine ⟨forall_cons ⟨le_rfl, by simp only; omega, by simp⟩ h.sound, lost, ?_, ?_⟩
  · rw [Multiset.map_cons, Multiset.sum_cons]
    simp only
    omega
  · rw [Multiset.map_cons, Multiset.sum_cons]
    simp only
    omega

/-- A buffer stays where it is. -/
theorem keep (h : Charged (x ::ₘ W) given asked) (hlen : len ≤ x.len + n) :
    Charged ({ x with len := len, given := x.given + n } ::ₘ W) (given + n) asked := by
  obtain ⟨lost, hgiven, hasked⟩ := h.paid
  have hx := h.sound x (Multiset.mem_cons_self x W)
  have hle := hx.len
  have hcap := hx.cap
  refine ⟨forall_cons ⟨by simp only; omega, by simp only; omega, hx.moves⟩
    fun y hy => h.sound y (Multiset.mem_cons_of_mem hy), lost, ?_, ?_⟩
  · rw [Multiset.map_cons, Multiset.sum_cons] at hgiven ⊢
    simp only
    omega
  · rw [Multiset.map_cons, Multiset.sum_cons] at hasked ⊢
    exact hasked

/-- A buffer that has become too small moves to one of twice its new length. -/
theorem move (h : Charged (x ::ₘ W) given asked) (hfull : x.cap < len) (hlen : len ≤ x.len + n) :
    Charged (⟨p, len, 2 * len, x.moves + 1, x.given + n⟩ ::ₘ W) (given + n) (asked + 2 * len) := by
  obtain ⟨lost, hgiven, hasked⟩ := h.paid
  have hx := h.sound x (Multiset.mem_cons_self x W)
  have hle := hx.len
  have hmoves : 2 ^ (x.moves + 1 + 1) ≤ 2 * len + 2 := by
    have hdouble := hx.moves
    rw [pow_succ]
    omega
  refine ⟨forall_cons ⟨by simp only; omega, by simp only; omega, hmoves⟩
    fun y hy => h.sound y (Multiset.mem_cons_of_mem hy), lost, ?_, ?_⟩
  · rw [Multiset.map_cons, Multiset.sum_cons] at hgiven ⊢
    simp only
    omega
  · rw [Multiset.map_cons, Multiset.sum_cons] at hasked ⊢
    simp only
    omega

/-- What a buffer that is given up has cost stays paid. -/
theorem drop (h : Charged (x ::ₘ W) given asked) : Charged W given asked := by
  obtain ⟨lost, hgiven, hasked⟩ := h.paid
  have hcap := (h.sound x (Multiset.mem_cons_self x W)).cap
  rw [Multiset.map_cons, Multiset.sum_cons] at hgiven hasked
  exact ⟨fun y hy => h.sound y (Multiset.mem_cons_of_mem hy), lost + x.given, by omega, by omega⟩

theorem cap_le_given (h : ∀ x ∈ W, x.Sound) : (W.map Buffer.cap).sum ≤ 2 * (W.map Buffer.given).sum := by
  induction W using Multiset.induction with
  | empty => simp
  | cons x W ih =>
    have hcap := (h x (Multiset.mem_cons_self x W)).cap
    have hW := ih fun y hy => h y (Multiset.mem_cons_of_mem hy)
    rw [Multiset.map_cons, Multiset.sum_cons, Multiset.map_cons, Multiset.sum_cons]
    omega

/-- The room there is. -/
theorem cap_le (h : Charged W given asked) : (W.map Buffer.cap).sum ≤ 2 * given := by
  obtain ⟨lost, hgiven, -⟩ := h.paid
  have hcap := cap_le_given h.sound
  omega

/-- The amortized cost: 4 for each byte given. -/
theorem asked_le (h : Charged W given asked) : asked ≤ 4 * given := by
  obtain ⟨lost, hgiven, hasked⟩ := h.paid
  have hcap := cap_le_given h.sound
  omega

end Charged

/-- The bytes that some events ask an allocator for. -/
def Event.asks : Event → ℕ
  | .malloc n _ => n.toNat
  | .realloc _ n _ => n.toNat
  | _ => 0

def requested (es : List Event) : ℕ := (es.map Event.asks).sum

/-- How often the block at `p` was moved since it was allocated. -/
def moves : List Event → Addr → ℕ
  | [], _ => 0
  | .malloc _ q :: es, p => if p = q then 0 else moves es p
  | .realloc q _ r :: es, p => if p = r then moves es q + 1 else moves es p
  | _ :: es, p => moves es p

end CMem
