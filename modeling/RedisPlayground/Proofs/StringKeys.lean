import RedisPlayground.Proofs.Hashes
import RedisPlayground.Proofs.DictLookups

/-! Dicts with `commonHash` and strings for keys. Their answers depend on what the
strings hold and in which order they were added, not on where anything is stored. -/

namespace Redis

open CMem

/-- At `s`, `key` points to the string `text key`, and its hash is what `commonHash` makes of it. In a block,
an sds string say, this does not read what is in front of the string. -/
structure KeyAt (ptr : Addr → CharPtr) (text : Addr → List Byte) (hash : Addr → Word) (key : Addr)
    (s : State Globals) : Prop where
  string : cstring (ptr key) s = .ok (text key, s)
  hash : commonHash (ptr key) s = .ok (hash key, s)
  known : (ptr key).Known s.mem
  forward : (∃ bytes, ptr key = .ext bytes) ∨ ForwardLength (text key).length

/-- What was added, by the strings of the keys. -/
def named (text : Addr → List Byte) (H : History) : List (List Byte × Addr) := H.map fun e => (text e.1, e.2)

/-- The hash of a key is that of its string. -/
def HashesText (text : Addr → List Byte) (hash : Addr → Word) (key : Addr) : Prop := hash key = textHash (text key)

variable {L L' : Libc} {T T' : Addr → Option dictType} {type type' d d' key key' privdata privdata' : Addr}
  {ptr ptr' : Addr → CharPtr} {text text' : Addr → List Byte} {hash hash' : Addr → Word}
  {s₀ s₀' s₁ s₁' s s' : State Globals} {H H' : History} {tr tr' : List ((State Globals × History) × DOp)}

theorem KeyAt.of_text (hstring : cstring (ptr key) s = .ok (text key, s)) (hknown : (ptr key).Known s.mem)
    (hlen : ForwardLength (text key).length) (hhash : HashesText text hash key) : KeyAt ptr text hash key s where
  string := hstring
  hash := by
    rw [hhash]
    exact commonHash_of_reads hstring (reads_of_cstring hknown hstring) hlen
  known := hknown
  forward := Or.inr hlen

/-- A string of the caller. -/
theorem KeyAt.of_ext {rest : List Byte} (hptr : ptr key = .ext (text key ++ 0 :: rest)) (h0 : 0 ∉ text key)
    (hlen : ForwardLength (text key).length) (hhash : HashesText text hash key) : KeyAt ptr text hash key s :=
  .of_text (by rw [hptr, cstring_ext h0]) (by rw [hptr]; trivial) hlen hhash

/-- An sds string, up to its first NUL. -/
theorem KeyAt.of_sds {b : Buf} {rest : List Byte} (h : StrAt s.mem key b) (hb : b.chars = text key ++ 0 :: rest)
    (h0 : 0 ∉ text key) (hlen : ForwardLength (text key).length) (hhash : HashesText text hash key) :
    KeyAt sdsPtr text hash key s :=
  .of_text (cstring_sds h hb h0) ⟨_, h⟩ hlen hhash

theorem KeyAt.hashesText (h : KeyAt ptr text hash key s) : HashesText text hash key := by
  have hlen : ForwardLength (text key).length := by
    rcases h.forward with ⟨bytes, hbytes⟩ | hlen
    · by_contra hn
      have hub := commonHash_ub (hbytes ▸ h.string) hn
      rw [← hbytes, h.hash] at hub
      exact absurd hub (by simp)
    · exact hlen
  have hvalue := commonHash_of_reads h.string (reads_of_cstring h.known h.string) hlen
  exact (Prod.mk.inj (Except.ok.inj (h.hash.symm.trans hvalue))).1

theorem hashesText_run (h : Run (dstep L T d) (s₁, []) tr (s, H))
    (hadd : ∀ y ∈ tr, ∃ key val, y.2 = .dictAdd key val ∧ KeyAt ptr text hash key y.1.1) :
    ∀ e ∈ H, HashesText text hash e.1 := by
  refine h.invariant (P := fun tr y => (∀ y ∈ tr, ∃ key val, y.2 = .dictAdd key val ∧
    KeyAt ptr text hash key y.1.1) → ∀ e ∈ y.2, HashesText text hash e.1) (fun _ => by simp) ?_ hadd
  rintro tr ⟨s, H⟩ op ⟨s', H'⟩ hH ⟨-, rfl⟩ hadd
  rw [List.forall_mem_append, List.forall_mem_singleton] at hadd
  obtain ⟨htr, key, val, rfl, hkey⟩ := hadd
  exact List.forall_mem_cons.mpr ⟨hkey.hashesText, hH htr⟩

theorem latest_named (hH : ∀ e ∈ H, HashesText text hash e.1) (hH' : ∀ e ∈ H', HashesText text' hash' e.1)
    (hk : HashesText text hash key) (hk' : HashesText text' hash' key') (hkey : text key = text' key')
    (hnamed : named text H = named text' H') :
    latest (SameIndex hash key) H = latest (SameIndex hash' key') H' := by
  induction H generalizing H' with
  | nil =>
    obtain rfl : H' = [] := List.map_eq_nil_iff.mp hnamed.symm
    rfl
  | cons e H ih =>
    obtain ⟨e', H', rfl⟩ : ∃ e' K, H' = e' :: K := by
      cases H' with
      | nil => simp [named] at hnamed
      | cons e' K => exact ⟨e', K, rfl⟩
    obtain ⟨he, hnamed⟩ := List.cons.inj hnamed
    obtain ⟨hstr, hval⟩ := Prod.mk.inj he
    obtain ⟨hhead, hH⟩ := List.forall_mem_cons.mp hH
    obtain ⟨hhead', hH'⟩ := List.forall_mem_cons.mp hH'
    have hiff : SameIndex hash key e.1 ↔ SameIndex hash' key' e'.1 := by
      rw [SameIndex, SameIndex, hk, hk', hhead, hhead', hkey, hstr]
    rw [latest, latest, ih hH hH' hnamed]
    simp only [hiff, hval]

/-- Two dicts to which strings that hold the same were added in one order with the same values answer
the same for strings that hold the same, be they sds strings or strings of the caller. -/
theorem dicts_answer_by_content (hT : T type = some ⟨some hash⟩) (hT' : T' type' = some ⟨some hash'⟩)
    (hnew : dictCreate L type privdata s₀ = .ok (d, s₁)) (hnew' : dictCreate L' type' privdata' s₀' = .ok (d', s₁'))
    (h : Run (dstep L T d) (s₁, []) tr (s, H)) (h' : Run (dstep L' T' d') (s₁', []) tr' (s', H'))
    (hadd : ∀ y ∈ tr, ∃ key val, y.2 = .dictAdd key val ∧ KeyAt ptr text hash key y.1.1)
    (hadd' : ∀ y ∈ tr', ∃ key val, y.2 = .dictAdd key val ∧ KeyAt ptr' text' hash' key y.1.1)
    (hkey : KeyAt ptr text hash key s) (hkey' : KeyAt ptr' text' hash' key' s')
    (hnamed : named text H = named text' H') (htext : text key = text' key') (val : Addr) :
    dictFind T d key s = .ok (val, s) ↔ dictFind T' d' key' s' = .ok (val, s') := by
  have hadds : ∀ y ∈ tr, ∃ key val, y.2 = .dictAdd key val := fun y hy =>
    (hadd y hy).imp fun _ ⟨val, hop, _⟩ => ⟨val, hop⟩
  have hadds' : ∀ y ∈ tr', ∃ key val, y.2 = .dictAdd key val := fun y hy =>
    (hadd' y hy).imp fun _ ⟨val, hop, _⟩ => ⟨val, hop⟩
  obtain ⟨x, rfl, rfl, hnull, hI⟩ := Tabled.run_adds hT hnew h hadds
  obtain ⟨x', rfl, rfl, hnull', hI'⟩ := Tabled.run_adds hT' hnew' h' hadds'
  rw [dictFind_iff hT hI hnull, dictFind_iff hT' hI' hnull', latest_named (hashesText_run h hadd)
    (hashesText_run h' hadd') hkey.hashesText hkey'.hashesText htext hnamed]

/-- The string "redis key" with the digit `i`. -/
def redisKey (i : Addr) : List Byte := [114, 101, 100, 105, 115, 32, 107, 101, 121, UInt8.ofNat (48 + i.toNat)]

def textType (text : Addr → List Byte) (a : Addr) : Option dictType :=
  if a = 1 then some ⟨some fun key => textHash (text key)⟩ else none

/-- Key `i` is a string of the caller, and has something behind it. -/
def given (i : Addr) : CharPtr := .ext (redisKey i ++ 0 :: [7])

def given₀ : State Globals := after (dictCreate (bump 0) 1 NULL) zinit
def given₁ : State Globals := after (DOp.exec (bump 0) (textType redisKey) 0x1008 (.dictAdd 2 1642)) given₀
def given₂ : State Globals := after (DOp.exec (bump 0) (textType redisKey) 0x1008 (.dictAdd 3 1643)) given₁

def givenRun : List ((State Globals × History) × DOp) :=
  [((given₀, []), .dictAdd 2 1642), ((given₁, [(2, 1642)]), .dictAdd 3 1643)]

/-- Three sds strings; the first and the last are equal. -/
def stored (key : Addr) : List Byte := redisKey (if key = 0x2018 then 3 else 2)

def sds₁ : State Globals := after (sdsnew (bump 255) (.ext (redisKey 2 ++ [0]))) zinit
def sds₂ : State Globals := after (sdsnew (bump 255) (.ext (redisKey 3 ++ [0]))) sds₁
def sds₃ : State Globals := after (sdsnew (bump 255) (.ext (redisKey 2 ++ [0]))) sds₂

def stored₀ : State Globals := after (dictCreate (bump 255) 1 NULL) sds₃
def stored₁ : State Globals := after (DOp.exec (bump 255) (textType stored) 0x4008 (.dictAdd 0x1018 1642)) stored₀
def stored₂ : State Globals := after (DOp.exec (bump 255) (textType stored) 0x4008 (.dictAdd 0x2018 1643)) stored₁

def storedRun : List ((State Globals × History) × DOp) :=
  [((stored₀, []), .dictAdd 0x1018 1642), ((stored₁, [(0x1018, 1642)]), .dictAdd 0x2018 1643)]

theorem run_given : Run (dstep (bump 0) (textType redisKey) 0x1008) (given₀, []) givenRun
    (given₂, [(3, 1643), (2, 1642)]) := by
  have h₁ : DOp.exec (bump 0) (textType redisKey) 0x1008 (.dictAdd 2 1642) given₀ = .ok ((), given₁) :=
    ok_after (by decide +kernel)
  have h₂ : DOp.exec (bump 0) (textType redisKey) 0x1008 (.dictAdd 3 1643) given₁ = .ok ((), given₂) :=
    ok_after (by decide +kernel)
  exact (Run.nil.snoc (dstep_of h₁)).snoc (dstep_of h₂)

theorem run_stored : Run (dstep (bump 255) (textType stored) 0x4008) (stored₀, []) storedRun
    (stored₂, [(0x2018, 1643), (0x1018, 1642)]) := by
  have h₁ : DOp.exec (bump 255) (textType stored) 0x4008 (.dictAdd 0x1018 1642) stored₀ = .ok ((), stored₁) :=
    ok_after (by decide +kernel)
  have h₂ : DOp.exec (bump 255) (textType stored) 0x4008 (.dictAdd 0x2018 1643) stored₁ = .ok ((), stored₂) :=
    ok_after (by decide +kernel)
  exact (Run.nil.snoc (dstep_of h₁)).snoc (dstep_of h₂)

theorem keyAt_given {i : Addr} {s : State Globals} (h0 : 0 ∉ redisKey i) :
    KeyAt given redisKey (fun key => textHash (redisKey key)) i s :=
  .of_ext rfl h0 (Or.inl (show 10 % 2 ^ 32 < 2 ^ 31 by decide)) rfl

theorem keyAt_stored {key : Addr} {s : State Globals} (h : StrAt s.mem key ⟨10, 0, stored key ++ [0]⟩)
    (h0 : 0 ∉ stored key) : KeyAt sdsPtr stored (fun key => textHash (stored key)) key s :=
  .of_sds h rfl h0 (Or.inl (show 10 % 2 ^ 32 < 2 ^ 31 by decide)) rfl

/-- One lookup of "redis key2", whose chain is that of "redis key3" too. -/
theorem dicts_answer_by_content_keys :
    dictFind (textType redisKey) 0x1008 2 given₂ = .ok (1643, given₂) ↔
      dictFind (textType stored) 0x4008 0x3018 stored₂ = .ok (1643, stored₂) := by
  have hfirst : StrAt stored₀.mem 0x1018 ⟨10, 0, stored 0x1018 ++ [0]⟩ :=
    ⟨by decide +kernel, by decide, by decide, by decide⟩
  have hsecond : StrAt stored₁.mem 0x2018 ⟨10, 0, stored 0x2018 ++ [0]⟩ :=
    ⟨by decide +kernel, by decide, by decide, by decide⟩
  have hthird : StrAt stored₂.mem 0x3018 ⟨10, 0, stored 0x3018 ++ [0]⟩ :=
    ⟨by decide +kernel, by decide, by decide, by decide⟩
  have hgiven : ∀ y ∈ givenRun, ∃ key val, y.2 = .dictAdd key val ∧
      KeyAt given redisKey (fun key => textHash (redisKey key)) key y.1.1 := by
    intro y hy
    rcases List.mem_cons.mp hy with rfl | hy
    · exact ⟨2, 1642, rfl, keyAt_given (by decide)⟩
    · obtain rfl := List.mem_singleton.mp hy
      exact ⟨3, 1643, rfl, keyAt_given (by decide)⟩
  have hstored : ∀ y ∈ storedRun, ∃ key val, y.2 = .dictAdd key val ∧
      KeyAt sdsPtr stored (fun key => textHash (stored key)) key y.1.1 := by
    intro y hy
    rcases List.mem_cons.mp hy with rfl | hy
    · exact ⟨0x1018, 1642, rfl, keyAt_stored hfirst (by decide)⟩
    · obtain rfl := List.mem_singleton.mp hy
      exact ⟨0x2018, 1643, rfl, keyAt_stored hsecond (by decide)⟩
  exact dicts_answer_by_content rfl rfl (ok_after (by decide +kernel)) (ok_after (by decide +kernel)) run_given
    run_stored hgiven hstored (keyAt_given (by decide)) (keyAt_stored hthird (by decide)) (by decide) (by decide) 1643

end Redis
