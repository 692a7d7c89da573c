import RedisPlayground.Spec.Zmalloc

/-! `dict.cc`: hash tables with chaining. A `dict` holds two `dictht` in place;
a pointer to one of them is the pointer to the dict and an index. A function that
the source overloads on `dict *` and `dictht *` has an `_ht` at the end of the
second name. -/

namespace Redis

open CMem

/-- `DICT_STATUS` of `dict.h`. -/
abbrev DICT_ERR : BitVec 32 := 0
abbrev DICT_OK : BitVec 32 := 1

abbrev DICT_HT_INITIAL_SIZE : Word := 4

abbrev LONG_MAX : Word := 0x7fffffffffffffff

/-- The method of a `dictType` that the dict calls. No other one is ever read. -/
structure dictType where
  hashFunction : Option (Addr → Word)

namespace dictEntry
abbrev key : ℕ := 0
abbrev value : ℕ := 1
abbrev next : ℕ := 2
abbrev sizeof : Word := 24
end dictEntry

namespace dict
abbrev type : ℕ := 0
abbrev privdata : ℕ := 1
abbrev rehashidx : ℕ := 10
abbrev sizeof : Word := 88
end dict

structure dictht where
  table : Addr
  size : Word
  sizemask : Word
  used : Word
deriving DecidableEq

namespace dictht
/-- The fields of `d->ht[i]`. -/
abbrev tableAt (i : ℕ) : ℕ := 2 + 4 * i
abbrev sizeAt (i : ℕ) : ℕ := 3 + 4 * i
abbrev sizemaskAt (i : ℕ) : ℕ := 4 + 4 * i
abbrev usedAt (i : ℕ) : ℕ := 5 + 4 * i
end dictht

/-- `d->ht[i]` as a value. -/
def getHt (d : Addr) (i : ℕ) : M dictht := do
  let table ← getField d (dictht.tableAt i)
  let size ← getField d (dictht.sizeAt i)
  let sizemask ← getField d (dictht.sizemaskAt i)
  let used ← getField d (dictht.usedAt i)
  return { table, size, sizemask, used }

/-- `d->ht[i] = n`. -/
def setHt (d : Addr) (i : ℕ) (n : dictht) : M Unit := do
  setField d (dictht.tableAt i) n.table
  setField d (dictht.sizeAt i) n.size
  setField d (dictht.sizemaskAt i) n.sizemask
  setField d (dictht.usedAt i) n.used

variable (L : Libc) (T : Addr → Option dictType)

/-- `_dictPanic` prints and returns. -/
def _dictPanic : M Unit := return ()

def _dictAlloc (size : Word) : M Addr := do
  let p ← zmalloc L size
  (if p = NULL then _dictPanic else return ())
  return p

def _dictFree (dt : Addr) : M Unit := do
  if dt = NULL then return ()
  else
    let _ ← safe_zfree dt
    return ()

def _dicthtReset (d : Addr) (i : ℕ) : M Unit := do
  setField d (dictht.tableAt i) NULL
  setField d (dictht.sizeAt i) 0
  setField d (dictht.sizemaskAt i) 0
  setField d (dictht.usedAt i) 0

def _dictReset (dt : Addr) : M Unit := do
  setField dt dict.type NULL
  setField dt dict.privdata NULL
  setInt dt dict.rehashidx (-1)
  _dicthtReset dt 0
  _dicthtReset dt 1

def _dictEntryCreate : M Addr := do
  let entry ← zmalloc L dictEntry.sizeof
  setField entry dictEntry.key NULL
  setField entry dictEntry.value NULL
  setField entry dictEntry.next NULL
  return entry

def _dictEntryRelease (entry : Addr) : M Unit := do
  setField entry dictEntry.key NULL
  setField entry dictEntry.value NULL
  setField entry dictEntry.next NULL
  let _ ← safe_zfree entry
  return ()

/-- `d->type->hashFunction(key)`. -/
def dictHashKey (d key : Addr) : M Word := do
  let type ← getField d dict.type
  match T type with
  | some ⟨some hashFunction⟩ => return hashFunction key
  | _ => stop .ub

def _getHashKeyIndex (dt key : Addr) : M Word := dictHashKey T dt key

/-- The `while(1)` of `_dictNextPower`. The counter is 0 after 64 doublings. -/
def _dictNextPowerLoop (size : Word) : ℕ → Word → M Word
  | 0, _ => stop .hang
  | fuel + 1, i => if size ≤ i then return i else _dictNextPowerLoop size fuel (i * 2)

def _dictNextPower (size : Word) : M Word :=
  if LONG_MAX < size then return LONG_MAX + 1
  else _dictNextPowerLoop size 64 DICT_HT_INITIAL_SIZE

def dictExpand (d : Addr) (size : Word) : M (BitVec 32) := do
  let realsize ← _dictNextPower size
  let size0 ← getField d (dictht.sizeAt 0)
  if realsize = size0 then return DICT_ERR
  else
    let table ← zmalloc L (realsize * 8)
    let n : dictht := { table, size := realsize, sizemask := realsize - 1, used := 0 }
    let table0 ← getField d (dictht.tableAt 0)
    if table0 = NULL then
      setHt d 0 n
      return DICT_OK
    else
      setHt d 1 n
      setInt d dict.rehashidx 0
      return DICT_OK

def _dictExpandIfNeeded (d : Addr) : M (BitVec 32) := do
  let size0 ← getField d (dictht.sizeAt 0)
  let size1 ← getField d (dictht.sizeAt 1)
  if size0 = 0 ∧ size1 = 0 then dictExpand L d DICT_HT_INITIAL_SIZE
  else return 0

/-- The first `n` rounds of `for (i = 0; i < dht->size; ++i)` of `_dictHtInit`. -/
def _dictHtInitLoop (table : Addr) : ℕ → M Unit
  | 0 => return ()
  | n + 1 => do
    _dictHtInitLoop table n
    setField table n NULL

def _dictHtInit_ht (d : Addr) (i : ℕ) : M (BitVec 32) := do
  let size ← getField d (dictht.sizeAt i)
  let table ← getField d (dictht.tableAt i)
  _dictHtInitLoop table size.toNat
  return DICT_OK

def _dictHtInit (dt : Addr) : M (BitVec 32) := do
  let isOk ← _dictExpandIfNeeded L dt
  if isOk = 0 then return isOk
  else
    let ok0 ← _dictHtInit_ht dt 0
    let ok1 ← _dictHtInit_ht dt 1
    return isOk &&& ok0 &&& ok1

def _dictInit (dt type privdata : Addr) : M (BitVec 32) := do
  _dictReset dt
  setField dt dict.type type
  setField dt dict.privdata privdata
  let _ ← _dictHtInit L dt
  return DICT_OK

/-- `while (p != NULL)` of `_dictEntryRelease`. -/
def _dictEntryReleaseChain : ℕ → Addr → M Unit
  | 0, _ => stop .hang
  | fuel + 1, p =>
    if p = NULL then return ()
    else do
      let next ← getField p dictEntry.next
      _dictEntryRelease p
      _dictEntryReleaseChain fuel next

/-- The first `n` rounds of `for (i = 0; i < dht->size; ++i)` of `_dictEntryRelease`. -/
def _dictEntryReleaseLoop (table : Addr) : ℕ → M Unit
  | 0 => return ()
  | n + 1 => do
    _dictEntryReleaseLoop table n
    let p ← getField table n
    let k ← fuel
    _dictEntryReleaseChain k p

def _dictEntryRelease_ht (d : Addr) (i : ℕ) : M Unit := do
  let size ← getField d (dictht.sizeAt i)
  let table ← getField d (dictht.tableAt i)
  _dictEntryReleaseLoop table size.toNat

def _dictHtRelease_ht (d : Addr) (i : ℕ) : M Unit := do
  _dictEntryRelease_ht d i
  let table ← getField d (dictht.tableAt i)
  zfree table

/-- The addresses `&dt->ht[0]` and `&dt->ht[1]` that the source tests are not NULL. -/
def _dictHtRelease (dt : Addr) : M Unit := do
  _dictHtRelease_ht dt 0
  _dictHtRelease_ht dt 1

def _privDataRelease (dt : Addr) : M Unit := do
  let privdata ← getField dt dict.privdata
  if privdata = NULL then return () else zfree privdata

def dictCreate (type privdata : Addr) : M Addr := do
  let dt ← _dictAlloc L dict.sizeof
  let _ ← _dictInit L dt type privdata
  return dt

def dictRelease (dt : Addr) : M Unit := do
  _privDataRelease dt
  _dictHtRelease dt
  _dictReset dt
  _dictFree dt

def dictEntryCreate (key value : Addr) : M Addr := do
  let entry ← _dictEntryCreate L
  setField entry dictEntry.key key
  setField entry dictEntry.value value
  return entry

def dictAdd (dt key val : Addr) : M Addr := do
  if dt = NULL then return dt
  else
    let ht ← getHt dt 0
    let entry ← dictEntryCreate L key val
    let hash ← _getHashKeyIndex T dt key
    let index := hash &&& ht.sizemask
    -- put the entry in the front
    let first ← getField ht.table index.toNat
    setField entry dictEntry.next first
    setField ht.table index.toNat entry
    -- `ht.used++` counts in the local copy of the table header
    let _ht := { ht with used := ht.used + 1 }
    return dt

def getDictEntry (dt key : Addr) : M Addr := do
  let hash ← _getHashKeyIndex T dt key
  let sizemask0 ← getField dt (dictht.sizemaskAt 0)
  let idx := hash &&& sizemask0
  let table0 ← getField dt (dictht.tableAt 0)
  let first ← getField table0 idx.toNat
  if first ≠ NULL then return first
  else
    let sizemask1 ← getField dt (dictht.sizemaskAt 1)
    let idx := idx &&& sizemask1
    let table1 ← getField dt (dictht.tableAt 1)
    let second ← getField table1 idx.toNat
    if second ≠ NULL then return second else return NULL

def dictFind (dt key : Addr) : M Addr := do
  let entry ← getDictEntry T dt key
  getField entry dictEntry.value

end Redis
