import RedisPlayground.Spec.Zmalloc

/-! `adlist.cc`: doubly linked lists on the heap. The fields of the structs are
numbered in the order of `adlist.h`, every one being a pointer or a `size_t`
except the direction of an iterator. The methods of a list are function
pointers; what they point to is a parameter. -/

namespace Redis

open CMem

/-- `DIRCTION` of `adlist.h`. -/
abbrev FORWARD : BitVec 32 := 0
abbrev BACKWARD : BitVec 32 := 1

namespace listNode
abbrev prev : ℕ := 0
abbrev next : ℕ := 1
abbrev value : ℕ := 2
abbrev sizeof : Word := 24
end listNode

namespace listIter
abbrev next : ℕ := 0
abbrev direction : ℕ := 1
abbrev sizeof : Word := 16
end listIter

namespace list
abbrev head : ℕ := 0
abbrev tail : ℕ := 1
abbrev len : ℕ := 2
abbrev dup : ℕ := 3
abbrev free : ℕ := 4
abbrev match' : ℕ := 5
abbrev sizeof : Word := 48
end list

/-- The functions behind the pointers that a client stores in a list. -/
structure Methods where
  dup : Addr → Addr → M Addr
  free : Addr → Addr → M Unit
  match' : Addr → Addr → Addr → M (BitVec 32)

variable (L : Libc) (E : Methods)

def callDup (f ptr : Addr) : M Addr := do
  record (.call f ptr)
  E.dup f ptr

def callFree (f ptr : Addr) : M Unit := do
  record (.call f ptr)
  E.free f ptr

def callMatch (f ptr key : Addr) : M (BitVec 32) := do
  record (.call f ptr)
  E.match' f ptr key

def listFirst (l : Addr) : M Addr := getField l list.head
def listTail (l : Addr) : M Addr := getField l list.tail
def listLength (l : Addr) : M Word := getField l list.len
def listPrevNode (node : Addr) : M Addr := getField node listNode.prev
def listNextNode (node : Addr) : M Addr := getField node listNode.next
def listNodeValue (node : Addr) : M Addr := getField node listNode.value

def listCreate : M Addr := do
  let l ← zmalloc L list.sizeof
  if l = NULL then return NULL
  else
    setField l list.head NULL
    setField l list.tail NULL
    setField l list.len 0
    setField l list.dup NULL
    setField l list.free NULL
    setField l list.match' NULL
    return l

/-- `if(list->free) list->free(node->value)`, as it stands in four places. -/
def freeValue (l node : Addr) : M Unit := do
  let f ← getField l list.free
  if f = NULL then return ()
  else
    let value ← getField node listNode.value
    callFree E f value

/-- `while(len--)` of `listRelease`. -/
def listReleaseLoop (l : Addr) : ℕ → Addr → M Unit
  | 0, _ => return ()
  | len + 1, curr => do
    let next ← getField curr listNode.next
    freeValue E l curr
    zfree curr
    listReleaseLoop l len next

def listRelease (l : Addr) : M Unit := do
  if l = NULL then return ()
  else
    -- free each node
    let len ← getField l list.len
    let curr ← getField l list.head
    listReleaseLoop E l len.toNat curr
    -- free list
    let _ ← safe_zfree l
    return ()

/-- `while(len--)` of `safe_listRelease`. -/
def safe_listReleaseLoop (l : Addr) : ℕ → Addr → M Unit
  | 0, _ => return ()
  | len + 1, curr => do
    let next ← getField curr listNode.next
    freeValue E l curr
    let _ ← safe_zfree curr
    safe_listReleaseLoop l len next

/-- `safe_listRelease(&l)`, given the value of `l` and returning its new one. -/
def safe_listRelease (l : Addr) : M Addr := do
  if l = NULL then return l
  else
    let len ← getField l list.len
    let curr ← getField l list.head
    safe_listReleaseLoop E l len.toNat curr
    safe_zfree l

def listAddNodeHead (l value : Addr) : M Addr := do
  let node ← zmalloc L listNode.sizeof
  setField node listNode.prev NULL
  let head ← getField l list.head
  setField node listNode.next head
  -- without a head, head is tail
  (if head = NULL then setField l list.tail node else setField head listNode.prev node)
  setField node listNode.value value
  setField l list.head node
  let len ← getField l list.len
  setField l list.len (len + 1)
  return l

def listAddNodeTail (l value : Addr) : M Addr := do
  let node ← zmalloc L listNode.sizeof
  setField node listNode.next NULL
  let tail ← getField l list.tail
  setField node listNode.prev tail
  -- without a tail, head is tail
  (if tail = NULL then setField l list.head node else setField tail listNode.next node)
  setField l list.tail node
  setField node listNode.value value
  let len ← getField l list.len
  setField l list.len (len + 1)
  return l

/-- The part of `listDelNode` for a list of one element, `node`. -/
def listDelOnly (l node : Addr) : M Unit := do
  setField l list.tail NULL
  setField l list.head NULL
  freeValue E l node
  zfree node
  let len ← getField l list.len
  setField l list.len (len - 1)

/-- The part of `listDelNode` that takes `node` out of the links. -/
def listUnlink (l node : Addr) : M Unit := do
  let head ← getField l list.head
  if node = head then
    let next ← getField node listNode.next
    setField l list.head next
    setField next listNode.prev NULL
  else
    let tail ← getField l list.tail
    if node = tail then
      let prev ← getField node listNode.prev
      setField l list.tail prev
      setField prev listNode.next NULL
    else
      let prev ← getField node listNode.prev
      let next ← getField node listNode.next
      setField prev listNode.next next
      setField next listNode.prev prev

/-- The rest of `listDelNode`, for a list of two or more elements. -/
def listDelOther (l node : Addr) : M Unit := do
  listUnlink l node
  freeValue E l node
  let len ← getField l list.len
  setField l list.len (len - 1)
  zfree node

def listDelNode (l node : Addr) : M Unit := do
  let len ← listLength l
  if len = 0 then return ()
  else if len = 1 then
    let head ← getField l list.head
    if head = node then listDelOnly E l node else listDelOther E l node
  else listDelOther E l node

def listGetIterator (l : Addr) (direction : BitVec 32) : M Addr := do
  let iter ← zmalloc L listIter.sizeof
  setInt iter listIter.direction direction
  let next ← getField l (if direction = FORWARD then list.head else list.tail)
  setField iter listIter.next next
  return iter

def listReleaseIter (iter : Addr) : M Unit := zfree iter

def listNext (iter : Addr) : M Addr := do
  let node ← getField iter listIter.next
  if node = NULL then return NULL
  else
    let direction ← getInt iter listIter.direction
    let next ← getField node (if direction = FORWARD then listNode.next else listNode.prev)
    setField iter listIter.next next
    return node

def listRewind (l iter : Addr) : M Unit := do
  let head ← getField l list.head
  setField iter listIter.next head
  setInt iter listIter.direction FORWARD

def listRewindTail (l iter : Addr) : M Unit := do
  let tail ← getField l list.tail
  setField iter listIter.next tail
  setInt iter listIter.direction BACKWARD

/-- The condition under which `listSearchKey` returns a node with this value. -/
def listMatches (l value key : Addr) : M Bool := do
  let f ← getField l list.match'
  if f = NULL then return decide (key = value)
  else
    let r ← callMatch E f value key
    return decide (r ≠ 0)

def listSearchKeyLoop (l key iter : Addr) : ℕ → M Addr
  | 0 => stop .hang
  | fuel + 1 => do
    let node ← listNext iter
    if node = NULL then
      listReleaseIter iter
      return NULL
    else
      let value ← getField node listNode.value
      let found ← listMatches E l value key
      if found then
        listReleaseIter iter
        return node
      else listSearchKeyLoop l key iter fuel

def listSearchKey (l key : Addr) : M Addr := do
  let iter ← listGetIterator L l FORWARD
  let n ← fuel
  listSearchKeyLoop E l key iter n

def listIndexLoop (index : BitVec 32) : ℕ → BitVec 32 → Addr → M Addr
  | 0, _, _ => stop .hang
  | fuel + 1, i, node =>
    if node = NULL then return NULL
    else if i = index then return node
    else do
      let next ← getField node listNode.next
      listIndexLoop index fuel (i + 1) next

def listIndex (l : Addr) (index : BitVec 32) : M Addr := do
  let node ← getField l list.head
  let n ← fuel
  listIndexLoop index n 0 node

/-- The value `listDup` gives the copy of a node, NULL when it gives up. -/
def listDupValue (copy value : Addr) : M (Option Addr) := do
  let dup ← getField copy list.dup
  if dup = NULL then return some value
  else
    let value' ← callDup E dup value
    return if value' = NULL then none else some value'

def listDupLoop (copy iter : Addr) : ℕ → M Addr
  | 0 => stop .hang
  | fuel + 1 => do
    let next ← getField iter listIter.next
    if next = NULL then
      listReleaseIter iter
      return copy
    else
      let node ← listNext iter
      let value ← getField node listNode.value
      let value' ← listDupValue E copy value
      match value' with
      | none =>
        listReleaseIter iter
        listRelease E copy
        return NULL
      | some v =>
        let copy' ← listAddNodeTail L copy v
        if copy' = NULL then
          listReleaseIter iter
          listRelease E copy'
          return NULL
        else listDupLoop copy' iter fuel

def listDup (orig : Addr) : M Addr := do
  let copy ← listCreate L
  let dup ← getField orig list.dup
  setField copy list.dup dup
  let free ← getField orig list.free
  setField copy list.free free
  let match' ← getField orig list.match'
  setField copy list.match' match'
  let iter ← listGetIterator L orig FORWARD
  let n ← fuel
  listDupLoop L E copy iter n

end Redis
