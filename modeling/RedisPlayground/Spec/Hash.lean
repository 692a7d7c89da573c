import RedisPlayground.Spec.Sds

/-! `MurmurHash3.cc` and `hash.cc`. The machine is little endian and reads a block
at any address. A key is a pointer and `i` bytes behind it are `i` bytes further in the
same object; `int` values are integers, and a loop that counts up to 0 from above
runs past `INT_MAX`. The words stored through `out` are returned. -/

namespace Redis

open CMem

/-- The `n` bytes at `t + i`. -/
def readFrom (t : CharPtr) (i : ℤ) (n : ℕ) : M (List Byte) :=
  match t with
  | .null => stop .ub
  | .ext bytes => if 0 ≤ i ∧ i.toNat + n ≤ bytes.length then return slice bytes i.toNat n else stop .ub
  | .heap p off =>
    if p = NULL ∨ 8 + (off : ℤ) + i < 0 then stop .ub else readAt (p - PREFIX_SIZE) (8 + (off : ℤ) + i).toNat n

def rotl32 (x : BitVec 32) (r : ℕ) : BitVec 32 := (x <<< r) ||| (x >>> (32 - r))

def rotl64 (x : Word) (r : ℕ) : Word := (x <<< r) ||| (x >>> (64 - r))

/-- `p[i]` for a `uint32_t` pointer `p` that is `off` bytes behind the key. -/
def getblock32 (key : CharPtr) (off i : ℤ) : M (BitVec 32) := do
  let bs ← readFrom key (off + 4 * i) 4
  return BitVec.ofNat 32 (ofLE bs)

def getblock64 (key : CharPtr) (off i : ℤ) : M Word := do
  let bs ← readFrom key (off + 8 * i) 8
  return BitVec.ofNat 64 (ofLE bs)

def fmix32 (h : BitVec 32) : BitVec 32 :=
  let h := h ^^^ (h >>> 16)
  let h := h * 0x85ebca6b
  let h := h ^^^ (h >>> 13)
  let h := h * 0xc2b2ae35
  h ^^^ (h >>> 16)

def fmix64 (k : Word) : Word :=
  let k := k ^^^ (k >>> 33)
  let k := k * 0xff51afd7ed558ccd
  let k := k ^^^ (k >>> 33)
  let k := k * 0xc4ceb9fe1a85ec53
  k ^^^ (k >>> 33)

/-- The cases `off + m` down to `off + 1` of a switch on the length of the tail:
`k ^= tail[off + m - 1] << 8 * (m - 1)` and so on down to `k ^= tail[off] << 0`. -/
def xorTail {w : ℕ} (key : CharPtr) (tail : ℤ) (off : ℕ) : ℕ → BitVec w → M (BitVec w)
  | 0, k => return k
  | m + 1, k => do
    let bs ← readFrom key (tail + (off + m : ℕ)) 1
    xorTail key tail off m (k ^^^ (BitVec.ofNat w (ofLE bs) <<< (8 * m)))

/-- The cases `off + m` down to `off + 1`, the last of which mixes `k` into `h`. A switch that
starts below them does not come to them. -/
def tailLane {w : ℕ} (key : CharPtr) (tail : ℤ) (off m : ℕ) (scramble : BitVec w → BitVec w) (h : BitVec w) :
    M (BitVec w) :=
  if m = 0 then return h
  else do
    let k ← xorTail key tail off m 0
    return h ^^^ scramble k

/-- `k *= c; k = ROTL32(k, r); k *= c'`. -/
def scramble32 (c c' : BitVec 32) (r : ℕ) (k : BitVec 32) : BitVec 32 := rotl32 (k * c) r * c'

def scramble64 (c c' : Word) (r : ℕ) (k : Word) : Word := rotl64 (k * c) r * c'

/-- `for(int i = -nblocks; i; i++)`, with as many rounds left as there are values up to `INT_MAX`. -/
def countUp {σ : Type} (round : ℤ → σ → M σ) : ℕ → ℤ → σ → M σ
  | 0, i, h => if i = 0 then return h else stop .ub
  | n + 1, i, h =>
    if i = 0 then return h
    else do
      let h ← round i h
      countUp round n (i + 1) h

namespace x86_32

abbrev c1 : BitVec 32 := 0xcc9e2d51
abbrev c2 : BitVec 32 := 0x1b873593

def scramble (k1 : BitVec 32) : BitVec 32 := scramble32 c1 c2 15 k1

def mix (h1 k1 : BitVec 32) : BitVec 32 := rotl32 (h1 ^^^ scramble k1) 13 * 5 + 0xe6546b64

def round (key : CharPtr) (blocks i : ℤ) (h1 : BitVec 32) : M (BitVec 32) := do
  let k1 ← getblock32 key blocks i
  return mix h1 k1

def tail (key : CharPtr) (off : ℤ) (r : ℕ) (h1 : BitVec 32) : M (BitVec 32) :=
  tailLane key off 0 r scramble h1

def finalization (len h1 : BitVec 32) : BitVec 32 := fmix32 (h1 ^^^ len)

end x86_32

def MurmurHash3_x86_32 (key : CharPtr) (len seed : BitVec 32) : M (BitVec 32) := do
  let nblocks := len.toInt.tdiv 4
  let h1 ← countUp (x86_32.round key (nblocks * 4)) (2 ^ 31 + nblocks).toNat (-nblocks) seed
  let h1 ← x86_32.tail key (nblocks * 4) (len &&& 3).toNat h1
  return x86_32.finalization len h1

namespace x86_128

/-- `h1` to `h4` or `k1` to `k4`. -/
structure Lanes where
  l1 : BitVec 32
  l2 : BitVec 32
  l3 : BitVec 32
  l4 : BitVec 32
deriving DecidableEq

abbrev c1 : BitVec 32 := 0x239b961b
abbrev c2 : BitVec 32 := 0xab0e9789
abbrev c3 : BitVec 32 := 0x38b34ae5
abbrev c4 : BitVec 32 := 0xa1e38b93

def scramble1 (k1 : BitVec 32) : BitVec 32 := scramble32 c1 c2 15 k1
def scramble2 (k2 : BitVec 32) : BitVec 32 := scramble32 c2 c3 16 k2
def scramble3 (k3 : BitVec 32) : BitVec 32 := scramble32 c3 c4 17 k3
def scramble4 (k4 : BitVec 32) : BitVec 32 := scramble32 c4 c1 18 k4

def mix (h k : Lanes) : Lanes :=
  let h1 := (rotl32 (h.l1 ^^^ scramble1 k.l1) 19 + h.l2) * 5 + 0x561ccd1b
  let h2 := (rotl32 (h.l2 ^^^ scramble2 k.l2) 17 + h.l3) * 5 + 0x0bcaa747
  let h3 := (rotl32 (h.l3 ^^^ scramble3 k.l3) 15 + h.l4) * 5 + 0x96cd1c35
  let h4 := (rotl32 (h.l4 ^^^ scramble4 k.l4) 13 + h1) * 5 + 0x32ac3b17
  ⟨h1, h2, h3, h4⟩

def round (key : CharPtr) (blocks i : ℤ) (h : Lanes) : M Lanes := do
  let k1 ← getblock32 key blocks (i * 4 + 0)
  let k2 ← getblock32 key blocks (i * 4 + 1)
  let k3 ← getblock32 key blocks (i * 4 + 2)
  let k4 ← getblock32 key blocks (i * 4 + 3)
  return mix h ⟨k1, k2, k3, k4⟩

def tail (key : CharPtr) (off : ℤ) (r : ℕ) (h : Lanes) : M Lanes := do
  let h4 ← tailLane key off 12 (r - 12) scramble4 h.l4
  let h3 ← tailLane key off 8 (min (r - 8) 4) scramble3 h.l3
  let h2 ← tailLane key off 4 (min (r - 4) 4) scramble2 h.l2
  let h1 ← tailLane key off 0 (min r 4) scramble1 h.l1
  return ⟨h1, h2, h3, h4⟩

/-- `h1 += h2; h1 += h3; h1 += h4; h2 += h1; h3 += h1; h4 += h1`. -/
def sums (h : Lanes) : Lanes :=
  let h1 := h.l1 + h.l2 + h.l3 + h.l4
  ⟨h1, h.l2 + h1, h.l3 + h1, h.l4 + h1⟩

def finalization (len : BitVec 32) (h : Lanes) : Lanes :=
  let h := sums ⟨h.l1 ^^^ len, h.l2 ^^^ len, h.l3 ^^^ len, h.l4 ^^^ len⟩
  sums ⟨fmix32 h.l1, fmix32 h.l2, fmix32 h.l3, fmix32 h.l4⟩

end x86_128

def MurmurHash3_x86_128 (key : CharPtr) (len seed : BitVec 32) : M x86_128.Lanes := do
  let nblocks := len.toInt.tdiv 16
  let h ← countUp (x86_128.round key (nblocks * 16)) (2 ^ 31 + nblocks).toNat (-nblocks) ⟨seed, seed, seed, seed⟩
  let h ← x86_128.tail key (nblocks * 16) (len &&& 15).toNat h
  return x86_128.finalization len h

namespace x64_128

/-- `h1` and `h2` or `k1` and `k2`. -/
structure Lanes where
  l1 : Word
  l2 : Word
deriving DecidableEq

abbrev c1 : Word := 0x87c37b91114253d5
abbrev c2 : Word := 0x4cf5ad432745937f

def scramble1 (k1 : Word) : Word := scramble64 c1 c2 31 k1
def scramble2 (k2 : Word) : Word := scramble64 c2 c1 33 k2

def mix (h k : Lanes) : Lanes :=
  let h1 := (rotl64 (h.l1 ^^^ scramble1 k.l1) 27 + h.l2) * 5 + 0x52dce729
  let h2 := (rotl64 (h.l2 ^^^ scramble2 k.l2) 31 + h1) * 5 + 0x38495ab5
  ⟨h1, h2⟩

def round (key : CharPtr) (i : ℤ) (h : Lanes) : M Lanes := do
  let k1 ← getblock64 key 0 (i * 2 + 0)
  let k2 ← getblock64 key 0 (i * 2 + 1)
  return mix h ⟨k1, k2⟩

/-- `for(int i = 0; i < nblocks; i++)`, with `n` rounds left. -/
def body (key : CharPtr) : ℕ → ℤ → Lanes → M Lanes
  | 0, _, h => return h
  | n + 1, i, h => do
    let h ← round key i h
    body key n (i + 1) h

def tail (key : CharPtr) (off : ℤ) (r : ℕ) (h : Lanes) : M Lanes := do
  let h2 ← tailLane key off 8 (r - 8) scramble2 h.l2
  let h1 ← tailLane key off 0 (min r 8) scramble1 h.l1
  return ⟨h1, h2⟩

/-- `h1 += h2; h2 += h1`. -/
def sums (h : Lanes) : Lanes :=
  let h1 := h.l1 + h.l2
  ⟨h1, h.l2 + h1⟩

/-- `len` is an `int`: the words it is mixed into extend its sign. -/
def finalization (len : BitVec 32) (h : Lanes) : Lanes :=
  let h := sums ⟨h.l1 ^^^ len.signExtend 64, h.l2 ^^^ len.signExtend 64⟩
  sums ⟨fmix64 h.l1, fmix64 h.l2⟩

end x64_128

def MurmurHash3_x64_128 (key : CharPtr) (len seed : BitVec 32) : M x64_128.Lanes := do
  let nblocks := len.toInt.tdiv 16
  let h ← x64_128.body key nblocks.toNat 0 ⟨seed.setWidth 64, seed.setWidth 64⟩
  let h ← x64_128.tail key (nblocks * 16) (len &&& 15).toNat h
  return x64_128.finalization len h

abbrev SEED : BitVec 32 := 0x1234ABCD

def simpleHash (_key : CharPtr) : M Word := return 1

def commonHash (key : CharPtr) : M Word := do
  let n ← strlen key
  let out ← MurmurHash3_x64_128 key (n.setWidth 32) SEED
  return out.l2

end Redis
