import RedisPlayground.Spec.Zmalloc

/-! `sds.cc`: dynamic strings. An `sds` points behind the header of a zmalloc'ed
`struct sdshdr`, whose `len` and `free` are its first two words. Offsets from an
`sds` are offsets into `buf`. -/

namespace Redis

open CMem

namespace sdshdr
abbrev len : ℕ := 0
abbrev free : ℕ := 1
/-- The offset of `buf`. -/
abbrev buf : ℕ := 16
abbrev sizeof : Word := 16
end sdshdr

/-- A pointer to characters: memory of the caller, given by what it holds from
there on, or a place in a zmalloc'ed block. -/
inductive CharPtr where
  | null
  | ext (bytes : List Byte)
  | heap (p : Addr) (off : ℕ)

/-- An `sds` as a `char *`. -/
def sdsPtr (s : Addr) : CharPtr := .heap (s - sdshdr.sizeof) sdshdr.buf

/-- The `n` bytes at a pointer. -/
def readChars (t : CharPtr) (n : ℕ) : M (List Byte) :=
  match t with
  | .null => stop .ub
  | .ext bytes => if n ≤ bytes.length then return bytes.take n else stop .ub
  | .heap p off => getBytes p off n

/-- The bytes from a pointer to the end of the object it points into. -/
def restChars (t : CharPtr) : M (List Byte) :=
  match t with
  | .null => stop .ub
  | .ext bytes => return bytes
  | .heap p off => do
    let size ← zsizeof p
    getBytes p off (size.toNat - off)

/-- The characters of a C string. Reading one without terminator runs out of its object. -/
def cstring (t : CharPtr) : M (List Byte) := do
  let bytes ← restChars t
  if (0 : Byte) ∈ bytes then return bytes.takeWhile (· ≠ 0) else stop .ub

def strlen (t : CharPtr) : M Word := do
  let cs ← cstring t
  return BitVec.ofNat 64 cs.length

/-- `strchr(t, c) != NULL`. The terminator is found like any other character. -/
def strchr (t : CharPtr) (c : Byte) : M Bool := do
  let cs ← cstring t
  return decide (c = 0 ∨ c ∈ cs)

/-- `tolower` and `toupper` of the C locale. -/
def tolower (c : Byte) : Byte := if 65 ≤ c ∧ c ≤ 90 then c + 32 else c
def toupper (c : Byte) : Byte := if 97 ≤ c ∧ c ≤ 122 then c - 32 else c

/-- `s[i]` and stores to `s + i`. -/
def getChar (s : Addr) (i : ℕ) : M Byte := do
  let bs ← getBytes (s - sdshdr.sizeof) (sdshdr.buf + i) 1
  return bs.headD 0

def setChars (s : Addr) (i : ℕ) (bs : List Byte) : M Unit :=
  setBytes (s - sdshdr.sizeof) (sdshdr.buf + i) bs

variable (L : Libc)

def sdsOomAbort {α : Type} : M α := stop .abort

/-- `if(init) memcpy(sh->buf, init, initlen); else memset(sh->buf, 0, initlen);` -/
def sdsfill (s : Addr) (init : CharPtr) (initlen : Word) : M Unit :=
  match init with
  | .null => setChars s 0 (List.replicate initlen.toNat 0)
  | init => do
    let bs ← readChars init initlen.toNat
    setChars s 0 bs

def sdsnewlen (init : CharPtr) (initlen : Word) : M Addr := do
  let sh ← zmalloc L (sdshdr.sizeof + initlen + 1)
  if sh = NULL then sdsOomAbort
  else
    let s := sh + sdshdr.sizeof
    setField sh sdshdr.len initlen
    setField sh sdshdr.free 0
    (if initlen = 0 then return () else sdsfill s init initlen)
    setChars s initlen.toNat [0]
    return s

def sdsnew (init : CharPtr) : M Addr :=
  match init with
  | .null => sdsnewlen L .null 0
  | init => do
    let initlen ← strlen init
    sdsnewlen L init initlen

def sdsempty : M Addr := sdsnewlen L (.ext [0]) 0

def sdsfree (s : Addr) : M Unit := do
  if s = NULL then return ()
  else zfree (s - sdshdr.sizeof)

/-- The length as an `int`. -/
def sdslen (s : Addr) : M (BitVec 32) := do
  let len ← getField (s - sdshdr.sizeof) sdshdr.len
  return len.setWidth 32

/-- `size_t len = sdslen(s)`. -/
def sdslenSize (s : Addr) : M Word := do
  let len ← sdslen s
  return len.signExtend 64

def sdsavail (s : Addr) : M Word := getField (s - sdshdr.sizeof) sdshdr.free

def sdsclear (s : Addr) : M Unit := do
  let sh := s - sdshdr.sizeof
  let free ← getField sh sdshdr.free
  let len ← getField sh sdshdr.len
  setField sh sdshdr.free (free + len)
  setField sh sdshdr.len 0

def sdsMakeRoomFor (s : Addr) (addlen : Word) : M Addr := do
  let avail ← sdsavail s
  if addlen ≤ avail then return s
  else
    let sh := s - sdshdr.sizeof
    let len ← getField sh sdshdr.len
    let newlen := (len + addlen) * 2
    let newsh ← zremalloc L sh (sdshdr.sizeof + newlen + 1)
    if newsh = NULL then sdsOomAbort
    else
      let len ← getField newsh sdshdr.len
      setField newsh sdshdr.free (newlen - len)
      return newsh + sdshdr.sizeof

def sdscatlen (s : Addr) (t : CharPtr) (len : Word) : M Addr := do
  let curlen ← sdslenSize s
  let s ← sdsMakeRoomFor L s len
  if s = NULL then return NULL
  else
    let sh := s - sdshdr.sizeof
    let bs ← readChars t len.toNat
    setChars s curlen.toNat bs
    setField sh sdshdr.len (curlen + len)
    let free ← getField sh sdshdr.free
    setField sh sdshdr.free (free - len)
    setChars s (curlen + len).toNat [0]
    return s

def sdscat (s : Addr) (t : CharPtr) : M Addr := do
  let len ← strlen t
  sdscatlen L s t len

/-- The room `sdscpylen` makes: the string and the total length of its buffer. -/
def sdscpyRoom (s : Addr) (len : Word) : M (Addr × Word) := do
  let sh := s - sdshdr.sizeof
  let free ← getField sh sdshdr.free
  let curlen ← getField sh sdshdr.len
  let totlen := free + curlen
  if totlen < len then
    let s ← sdsMakeRoomFor L s (len - curlen)
    if s = NULL then sdsOomAbort
    else
      -- the addr of s has changed
      let sh := s - sdshdr.sizeof
      let free ← getField sh sdshdr.free
      let curlen ← getField sh sdshdr.len
      return (s, free + curlen)
  else return (s, totlen)

def sdscpylen (s : Addr) (t : CharPtr) (len : Word) : M Addr := do
  let (s, totlen) ← sdscpyRoom L s len
  let sh := s - sdshdr.sizeof
  let bs ← readChars t len.toNat
  setChars s 0 bs
  setChars s len.toNat [0]
  setField sh sdshdr.len len
  setField sh sdshdr.free (totlen - len)
  return s

def sdscpy (s : Addr) (t : CharPtr) : M Addr := do
  let len ← strlen t
  sdscpylen L s t len

/-- `memcmp` of the C library. Its sign is that of the first pair of bytes that
differ; its value is up to the library. -/
structure Memcmp where
  cmp : CharPtr → CharPtr → List Byte → List Byte → BitVec 32
  neg : ∀ {t u xs ys}, xs.length = ys.length → ((cmp t u xs ys).toInt < 0 ↔ xs < ys)
  pos : ∀ {t u xs ys}, xs.length = ys.length → (0 < (cmp t u xs ys).toInt ↔ ys < xs)

def memcmp (K : Memcmp) (t u : CharPtr) (n : Word) : M (BitVec 32) := do
  let xs ← readChars t n.toNat
  let ys ← readChars u n.toNat
  return K.cmp t u xs ys

def sdscmp (K : Memcmp) (s1 s2 : Addr) : M (BitVec 32) := do
  let len1 ← sdslenSize s1
  let len2 ← sdslenSize s2
  let minlen := if len2 ≤ len1 then len2 else len1
  let cmp ← memcmp K (sdsPtr s1) (sdsPtr s2) minlen
  if cmp = 0 then return (len1 - len2).setWidth 32
  else return cmp

def sdsdup (s : Addr) : M Addr := do
  let len ← sdslenSize s
  sdsnewlen L (sdsPtr s) len

/-- `while(sp <= end && strchr(cset, *sp)) sp++`, with `end - sp + 1` rounds left. -/
def sdstrimFront (s : Addr) (cset : CharPtr) : ℕ → ℤ → M ℤ
  | 0, sp => return sp
  | n + 1, sp => do
    let c ← getChar s sp.toNat
    let found ← strchr cset c
    if found then sdstrimFront s cset n (sp + 1) else return sp

/-- `while(ep > start && strchr(cset, *ep)) ep--`, with `ep - start` rounds left. -/
def sdstrimBack (s : Addr) (cset : CharPtr) : ℕ → ℤ → M ℤ
  | 0, ep => return ep
  | n + 1, ep => do
    let c ← getChar s ep.toNat
    let found ← strchr cset c
    if found then sdstrimBack s cset n (ep - 1) else return ep

/-- `memmove(sh->buf, sh->buf+from, len)` and the new header and terminator, the
last lines of `sdstrim` and of `sdsrange`. -/
def sdskeep (s : Addr) (start : ℕ) (newlen : Word) : M Unit := do
  let sh := s - sdshdr.sizeof
  let bs ← getBytes sh (sdshdr.buf + start) newlen.toNat
  setChars s 0 bs
  let free ← getField sh sdshdr.free
  let len ← getField sh sdshdr.len
  setField sh sdshdr.free (free + (len - newlen))
  setField sh sdshdr.len newlen
  setChars s newlen.toNat [0]

def sdstrim (s : Addr) (cset : CharPtr) : M Addr := do
  let len ← sdslen s
  let last := len.toInt
  let sp ← sdstrimFront s cset (last + 1).toNat 0
  let ep ← sdstrimBack s cset last.toNat last
  let newlen : Word := if ep < sp then 0 else BitVec.ofInt 64 (ep - sp + 1)
  sdskeep s sp.toNat newlen
  return s

/-- An index counted from the end when negative. -/
def backIndex (i len : Word) : Word :=
  if i.slt 0 then
    let i := i + len
    if i.slt 0 then 0 else i
  else i

def sdsrange (s : Addr) (start last : Word) : M Addr := do
  let len ← sdslenSize s
  if len = 0 then return s
  else
    -- support back index
    let start := backIndex start len
    let last := backIndex last len
    let newlen := if last.slt start then 0 else last - start + 1
    sdskeep s start.toNat newlen
    return s

/-- The first `n` rounds of `s[i] = f(s[i])`. -/
def sdsmapLoop (f : Byte → Byte) (s : Addr) : ℕ → M Unit
  | 0 => return ()
  | n + 1 => do
    sdsmapLoop f s n
    let c ← getChar s n
    setChars s n [f c]

def sdstolower (s : Addr) : M Unit := do
  let len ← sdslenSize s
  sdsmapLoop tolower s len.toNat

def sdstoupper (s : Addr) : M Unit := do
  let len ← sdslenSize s
  sdsmapLoop toupper s len.toNat

end Redis
