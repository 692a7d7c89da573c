import RedisPlayground.Memory.Heap

/-! `zmalloc.cc`: allocation with a size header in front of every block and a
counter of the bytes in use. -/

namespace Redis

open CMem

/-- The static variable of `zmalloc.cc`. -/
structure Globals where
  used_memory : Word

abbrev M := C Globals

/-- The program before its first call. -/
def zinit : State Globals := { mem := ∅, glob := { used_memory := 0 }, trace := [] }

abbrev PREFIX_SIZE : Word := 8

def increment_used_memory (n : Word) : M Unit :=
  modify fun s => { s with glob := { used_memory := s.glob.used_memory + n } }

def decrement_used_memory (n : Word) : M Unit :=
  modify fun s => { s with glob := { used_memory := s.glob.used_memory - n } }

def zmalloc_oom {α : Type} (_size : Word) : M α := stop .abort

def zmalloc (L : Libc) (size : Word) : M Addr := do
  let ptr ← malloc L (size + PREFIX_SIZE)
  -- out of memory
  if ptr = NULL then zmalloc_oom size
  else
    writeWord ptr 0 size
    increment_used_memory (size + PREFIX_SIZE)
    return ptr + PREFIX_SIZE

def zremalloc (L : Libc) (ptr : Addr) (size : Word) : M Addr := do
  if ptr = NULL then zmalloc L size
  else
    let realptr := ptr - PREFIX_SIZE
    let oldsize ← readWord realptr 0
    let newptr ← realloc L realptr (size + PREFIX_SIZE)
    if newptr = NULL then zmalloc_oom size
    else
      writeWord newptr 0 size
      decrement_used_memory oldsize
      increment_used_memory size
      return newptr + PREFIX_SIZE

def zfree (ptr : Addr) : M Unit := do
  if ptr = NULL then return ()
  else
    let realptr := ptr - PREFIX_SIZE
    let oldsize ← readWord realptr 0
    decrement_used_memory (oldsize + PREFIX_SIZE)
    free realptr

/-- `safe_zfree(&p)`, given the value of `p` and returning its new one. -/
def safe_zfree (p : Addr) : M Addr := do
  zfree p
  return NULL

def get_used_memory : M Word := do
  return (← get).glob.used_memory

def zsizeof (ptr : Addr) : M Word := do
  let realptr := ptr - PREFIX_SIZE
  readWord realptr 0

/-! What the program reads and writes through a pointer that `zmalloc` returned
lies `PREFIX_SIZE` further into the block. -/

def getBytes (p : Addr) (off n : ℕ) : M (List Byte) :=
  if p = NULL then stop .ub else readAt (p - PREFIX_SIZE) (8 + off) n

def setBytes (p : Addr) (off : ℕ) (xs : List Byte) : M Unit :=
  if p = NULL then stop .ub else writeAt (p - PREFIX_SIZE) (8 + off) xs

/-- The `i`-th word behind `p`: a field of a struct of words or a slot of a table. -/
def getField (p : Addr) (i : ℕ) : M Word := do
  let bs ← getBytes p (8 * i) 8
  return bytesWord bs

def setField (p : Addr) (i : ℕ) (w : Word) : M Unit := setBytes p (8 * i) (wordBytes w)

/-- An `int` in the `i`-th word behind `p`. -/
def getInt (p : Addr) (i : ℕ) : M (BitVec 32) := do
  let bs ← getBytes p (8 * i) 4
  return BitVec.ofNat 32 (ofLE bs)

def setInt (p : Addr) (i : ℕ) (n : BitVec 32) : M Unit := setBytes p (8 * i) (toLE 4 n.toNat)

/-- A bound for the traversal of a linked structure. One that takes more steps
than there are live blocks comes to some block twice and goes round for ever. -/
def fuel : M ℕ := do
  return (← get).mem.keys.card

end Redis
