import RedisPlayground.Proofs.ListRuns
import RedisPlayground.Proofs.StringClients
import RedisPlayground.Proofs.BlockClients

/-! A program that uses lists, strings, dicts and blocks of its own on one heap,
its calls in any order. Each of the four behaves as if it were alone, and what is
left when all handles are released is the heap from before. -/

namespace Redis

open CMem

section Lists

/-- A call, with the values on which it finds its key if it is a search. -/
structure LCall where
  op : COp
  hit : Addr → Bool

/-- The lists and iterators of a client whose lists own their values. -/
def lists (L : Libc) (F : Methods) (dup free : Addr) : Component Globals Handles LCall Addr where
  exec c := c.op.exec L F dup free
  Legal s h c := c.op.Legal F s h ∧ c.op.Answers F s c.hit
  handles h c r := c.op.handles h r

def LCallStep (dup free : Addr) (W : Multiset Obj) (e : LCall × Addr) (W' : Multiset Obj) : Prop :=
  ListStep dup free e.1.hit W (e.1.op, e.2) W'

/-- The handles of the client are the lists and iterators on its heap. -/
structure Handled (dup free : Addr) (h : Handles) (A W : Multiset Obj) : Prop where
  told : A = W
  lists : h.lists = W.filterMap Obj.header?
  iters : h.iters = W.filterMap Obj.iter?
  kept : ∀ o ∈ W, o.Kept dup free

theorem lists_component (L : Libc) (F : Methods) (dup free : Addr) (hd : dup ≠ NULL) (hf : free ≠ NULL)
    (hD : Dups F dup) (hfree : ∀ v, F.free free v = zfree v) :
    Refines Safe (lists L F dup free) objShape.many (Handled dup free) (LCallStep dup free) := by
  refine Refines.of_sat (fun m S => ?_) ?_
  · obtain ⟨m₁, hgone, hkept⟩ := exists_without m S
    exact ⟨m₁, hgone, hkept⟩
  intro m₁ s h A W c hW hH ⟨hlegal, hhit⟩
  obtain ⟨rfl, hlists, hiters, hkept⟩ := hH
  have hI : Owned dup free ⟨m₁, s.glob, s.trace⟩ (s, h) A := ⟨hW, hlists, hiters, hkept⟩
  refine (cop_tells hd hf hD hfree hI hlegal hhit).mono fun r s' hpost => ?_
  obtain ⟨W', htold, hI'⟩ := hpost
  exact ⟨W', W', htold, ⟨rfl, hI'.lists, hI'.iters, hI'.kept⟩, hI'.own⟩

end Lists

abbrev Call := LCall ⊕ TOp ⊕ DCall ⊕ ZOp

/-- All handles of a program: its lists and iterators, strings, dicts and blocks. -/
abbrev Holdings := Handles × Finset Addr × Multiset Addr × Multiset Addr

/-- What its data stands for: node sequences and iterators, contents, histories, bytes. -/
abbrev Contents := Multiset Obj × Strings × Multiset Filed × Multiset (Addr × List Byte)

/-- The objects its data is. -/
abbrev Objects := Multiset Obj × (Finset Addr × Strings) × Multiset DDict × Multiset (Addr × List Byte)

def program (L : Libc) (F : Methods) (dup free : Addr) (T : Addr → Option dictType) :
    Component Globals Holdings Call Addr :=
  (lists L F dup free).beside ((strings L).beside ((dicts L T).beside (blocks L)))

def programShape (T : Addr → Option dictType) : Shape Mem Addr (List Byte) Objects :=
  objShape.many.beside (stringsShape.beside ((dictShape T).many.beside blockShape.many rfl) rfl) rfl

abbrev programStep (dup free : Addr) : Contents → Call × Addr → Contents → Prop :=
  Beside (LCallStep dup free) (Beside TextStep (Beside DictStep BlockStep))

/-- No handles, and nothing they could stand for. -/
def noHoldings : Holdings := (⟨0, 0⟩, ∅, 0, 0)
def noContents : Contents := (0, fun _ => none, 0, 0)

/-- What a program sees of its data. -/
structure Shows (T : Addr → Option dictType) (s : State Globals) (h : Holdings) (a : Contents) : Prop where
  lists : h.1.lists = a.1.filterMap Obj.header?
  iters : h.1.iters = a.1.filterMap Obj.iter?
  apart : (objShape.owned a.1).Nodup
  formed : ∀ x, .list x ∈ a.1 → WellFormed s x
  places : ∀ it n w, .iter it n w ∈ a.1 → getField it listIter.next s = .ok (n, s)
  strings : ∀ p, p ∈ h.2.1 ↔ a.2.1 p ≠ none
  contents : ∀ p c, a.2.1 p = some c → HasContent s p c
  dicts : h.2.2.1 = a.2.2.1.map Filed.addr
  tables : ∀ d ∈ a.2.2.1, ∃ ht ns, ns.map Prod.snd = d.history ∧ TableAt s d.addr (hashOf T d.type) ht ns
  answers : ∀ d ∈ a.2.2.1, ∀ key val, dictFind T d.addr key s = .ok (val, s) ↔
    latest (SameIndex (hashOf T d.type) key) d.history = some val
  blocks : h.2.2.2 = a.2.2.2.map Prod.fst
  sizes : ∀ o ∈ a.2.2.2, zsizeof o.1 s = .ok (BitVec.ofNat 64 o.2.length, s)
  bytes : ∀ o ∈ a.2.2.2, ∀ off n, off + n ≤ o.2.length → getBytes o.1 off n s = .ok (slice o.2 off n, s)

variable {L : Libc} {F : Methods} {dup free : Addr} {T : Addr → Option dictType} {s s' s₀ : State Globals}
  {h h' : Holdings} {a : Contents} {o : Objects} {op : Call} {r : Addr}

/-- The objects of a program whose handles are `h` and whose data stands for `a`. -/
def Stands (dup free : Addr) (h : Holdings) (a : Contents) (o : Objects) : Prop :=
  Handled dup free h.1 a.1 o.1 ∧ o.2.1 = (h.2.1, a.2.1) ∧ Dicted h.2.2.1 a.2.2.1 o.2.2.1 ∧
    Pointed h.2.2.2 a.2.2.2 o.2.2.2

theorem Stands.shows (hS : Stands dup free h a o) (hok : (programShape T).Ok s.mem o)
    (hn : ((programShape T).foot o).Nodup) : Shows T s h a := by
  obtain ⟨W, ⟨ls, A⟩, Ds, B⟩ := o
  obtain ⟨h, ls', ds, ps⟩ := h
  obtain ⟨W', A', D, B'⟩ := a
  obtain ⟨⟨htold, hlists, hiters, -⟩, heq, hdicts, hblocks⟩ := hS
  obtain rfl : W' = W := htold
  obtain ⟨rfl, rfl⟩ := Prod.mk.inj heq
  obtain rfl : ds = Ds.map DDict.addr := hdicts.handles
  obtain rfl : D = Ds.map DDict.told := hdicts.told
  obtain rfl : B' = B := hblocks.told
  obtain ⟨hW, hstr, hD, hB⟩ := hok
  obtain ⟨hnW, hn, -⟩ := Multiset.nodup_add.mp hn
  obtain ⟨-, hn, -⟩ := Multiset.nodup_add.mp hn
  obtain ⟨hnD, -, -⟩ := Multiset.nodup_add.mp hn
  have htabled : ∀ x ∈ Ds, x.Usable T s.mem ∧ Tabled (hashOf T x.type) x (s, x.entries.map Prod.snd) := by
    intro x hx
    have hfoot := Multiset.nodup_of_le (Shape.foot_le_owned (X := dictShape T) hx) hnD
    rw [dictShape_foot, Multiset.nodup_add] at hfoot
    exact ⟨hD x hx, (hD x hx).ok, hfoot.2.1, rfl⟩
  refine ⟨hlists, hiters, hnW, ?_, ?_, hstr.1, ?_, ?_, ?_, ?_, hblocks.handles, ?_, ?_⟩
  · exact fun x hx => DList.Hangs.wellFormed (DList.Ok.hangs (hW _ hx))
  · exact fun it n w hit => getField_ok (hW _ hit) rfl
  · intro p c hc
    obtain ⟨room, hroom⟩ := hstr.2 p c hc
    exact hroom.hasContent
  · rw [Multiset.map_map]
    rfl
  · intro d hd
    obtain ⟨x, hx, rfl⟩ := Multiset.mem_map.mp hd
    obtain ⟨hok, ht⟩ := htabled x hx
    exact ⟨_, x.entries, rfl, hok.ok.tableAt ht.nodup⟩
  · intro d hd key val
    obtain ⟨x, hx, rfl⟩ := Multiset.mem_map.mp hd
    obtain ⟨hok, ht⟩ := htabled x hx
    exact dictFind_iff hok.hashOf ht (by rw [hok.ht1])
  · exact fun o ho => wp.eq_ok ((wp_zsizeof (hB o ho)).mpr ⟨rfl, rfl⟩)
  · exact fun o ho off n hn => wp.eq_ok ((wp_getBytes (hB o ho) hn).mpr ⟨rfl, rfl⟩)

/-- Without handles a program owns nothing. -/
theorem Stands.foot_zero (hS : Stands dup free noHoldings a o) : (programShape T).foot o = 0 := by
  obtain ⟨W, ⟨ls, A⟩, Ds, B⟩ := o
  obtain ⟨⟨-, hlists, hiters, hkept⟩, heq, hds, hps⟩ := hS
  obtain ⟨rfl, -⟩ := Prod.mk.inj heq
  obtain rfl : Ds = 0 := Multiset.map_eq_zero.mp hds.handles.symm
  obtain rfl : B = 0 := Multiset.map_eq_zero.mp hps.handles.symm
  obtain rfl : W = 0 := no_objects hlists.symm hiters.symm hkept
  rfl

/-- The books of every component are right, so they are in every run. -/
theorem settled_run {H ι ρ : Type} {c : Component Globals H ι ρ} {h₀ h : H} {tr : List ((State Globals × H) × ι × ρ)}
    (hc : ∀ op, Keeps (c.exec op)) (hrun : Run c.step (s₀, h₀) tr (s, h)) : Settled s₀ s := by
  refine hrun.invariant (P := fun _ x => Settled s₀ x.1) (settled_law.refl s₀) ?_
  rintro tr ⟨s, h⟩ ⟨op, r⟩ ⟨s', h'⟩ hset ⟨-, hexec, -⟩
  exact hset.trans ((hc op).of_ok hexec)

theorem keeps_program (hF : Client F) (op : Call) : Keeps ((program L F dup free T).exec op) := by
  rcases op with op | op | op | op
  · exact keeps_cop hF op.op
  · exact keeps_strings L op
  · exact keeps_dicts L T op
  · exact keeps_blocks L op

theorem program_component (L : Libc) (T : Addr → Option dictType) (hd : dup ≠ NULL) (hf : free ≠ NULL)
    (hD : Dups F dup) (hfree : ∀ v, F.free free v = zfree v) :
    Refines Safe (program L F dup free T) (programShape T) (Stands dup free) (programStep dup free) :=
  (lists_component L F dup free hd hf hD hfree).beside
    ((strings_component L).beside ((dicts_component L T).beside (blocks_component L) rfl) rfl) rfl

/-- In every interleaving of calls on lists, strings, dicts and blocks, each of them does what it does alone,
no call has undefined behaviour, and once all handles are released the heap and the counter are what they
were, every block having been freed as often as it was allocated. -/
theorem one_heap (L : Libc) (F : Methods) (dup free : Addr) (T : Addr → Option dictType) (hd : dup ≠ NULL)
    (hf : free ≠ NULL) (hD : Dups F dup) (hfree : ∀ v, F.free free v = zfree v) (hF : Client F)
    (s₀ s : State Globals) (h : Holdings)
    (tr : List ((State Globals × Holdings) × Call × Addr))
    (hrun : Run (program L F dup free T).step (s₀, noHoldings) tr (s, h)) :
    (∃ atr a, Run (programStep dup free) noContents atr a ∧ labels atr = labels tr ∧ Shows T s h a) ∧
    (∀ op, (program L F dup free T).Legal s h op →
      wp Safe ((program L F dup free T).exec op) (fun _ _ => True) s) ∧
    (h = noHoldings → s.mem = s₀.mem ∧ s.glob.used_memory = s₀.glob.used_memory ∧
      ∃ es, s.trace = es ++ s₀.trace ∧ ledger s₀.mem.keys es = some s₀.mem.keys) := by
  have hc : Refines Safe (program L F dup free T) (programShape T) (Stands dup free) (programStep dup free) :=
    program_component L T hd hf hD hfree
  have hstart : Stands dup free noHoldings noContents (0, (∅, fun _ => none), 0, 0) :=
    ⟨⟨rfl, rfl, rfl, by simp⟩, rfl, ⟨rfl, rfl⟩, rfl, rfl⟩
  have hok₀ : (programShape T).Ok s₀.mem (0, (∅, fun _ => none), 0, 0) :=
    ⟨fun o ho => absurd ho (Multiset.notMem_zero o), ⟨by simp, by simp⟩,
      fun x hx => absurd hx (Multiset.notMem_zero x), fun o ho => absurd ho (Multiset.notMem_zero o)⟩
  obtain ⟨atr, a, o, hatr, hlab, hS, hok, hu⟩ := hc.run hstart hok₀ rfl hrun
  refine ⟨⟨atr, a, hatr, hlab, hS.shows hok hu.nodup⟩, fun op hlegal => ?_, ?_⟩
  · exact (hc.step hS hok hu.nodup hlegal).mono fun _ _ _ => trivial
  · rintro rfl
    rw [hS.foot_zero] at hu
    have hmem : s.mem = s₀.mem := mem_ext fun p => congrFun hu.eq_of_empty p
    obtain ⟨hdebt, es, htrace, hlog⟩ := settled_run (keeps_program hF) hrun
    exact ⟨hmem, used_memory_of_debt hdebt hmem, es, htrace, hmem ▸ hlog⟩

/-- A list with a value, a string that grows, a dict with private data and a block, made and released in turns. -/
abbrev medley : Component Globals Holdings Call Addr := program (bump 0) intMethods 1 2 plainType

def listCall (op : COp) : Call := .inl ⟨op, fun _ => false⟩

def makeList : Call := listCall (.listCreate 3)
def makeString : Call := .inr (.inl (.call (.sdsnew (.ext [97, 0])) [97]))
def makeDict : Call := .inr (.inr (.inl (.dictCreate 1 (some (16, [])))))
def makeBlock : Call := .inr (.inr (.inr (.zmalloc 2)))
def pushValue : Call := listCall (.listAddNodeTail 0x1008 4 [7, 0, 0, 0])
def addKey : Call := .inr (.inr (.inl (.dictAdd 0x4008 5 50)))
def appendByte : Call := .inr (.inl (.call (.sdscat 0x2018 (.ext [98, 0])) [98]))
def storeByte : Call := .inr (.inr (.inr (.store 0x6008 1 [9])))
def findValue : Call := .inl ⟨.listSearchKey 0x1008 0x7008, fun v => v == 0x7008⟩
def pickNode : Call := listCall (.listIndex 0x1008 0)
def dropList : Call := listCall (.safe_listRelease 0x1008)
def dropDict : Call := .inr (.inr (.inl (.dictRelease 0x4008)))
def dropString : Call := .inr (.inl (.sdsfree 0xA018))
def dropBlock : Call := .inr (.inr (.inr (.zfree 0x6008)))

def medley₁ : State Globals := after (medley.exec makeList) zinit
def medley₂ : State Globals := after (medley.exec makeString) medley₁
def medley₃ : State Globals := after (medley.exec makeDict) medley₂
def medley₄ : State Globals := after (medley.exec makeBlock) medley₃
def medley₅ : State Globals := after (medley.exec pushValue) medley₄
def medley₆ : State Globals := after (medley.exec addKey) medley₅
def medley₇ : State Globals := after (medley.exec appendByte) medley₆
def medley₈ : State Globals := after (medley.exec storeByte) medley₇
def medley₉ : State Globals := after (medley.exec findValue) medley₈
def medley₁₀ : State Globals := after (medley.exec pickNode) medley₉
def medley₁₁ : State Globals := after (medley.exec dropList) medley₁₀
def medley₁₂ : State Globals := after (medley.exec dropDict) medley₁₁
def medley₁₃ : State Globals := after (medley.exec dropString) medley₁₂
def medley₁₄ : State Globals := after (medley.exec dropBlock) medley₁₃

def medleyRun : List ((State Globals × Holdings) × Call × Addr) :=
  [((zinit, noHoldings), makeList, 0x1008), ((medley₁, ⟨{0x1008}, 0⟩, ∅, 0, 0), makeString, 0x2018),
    ((medley₂, ⟨{0x1008}, 0⟩, {0x2018}, 0, 0), makeDict, 0x4008),
    ((medley₃, ⟨{0x1008}, 0⟩, {0x2018}, {0x4008}, 0), makeBlock, 0x6008),
    ((medley₄, ⟨{0x1008}, 0⟩, {0x2018}, {0x4008}, {0x6008}), pushValue, 0x1008),
    ((medley₅, ⟨{0x1008}, 0⟩, {0x2018}, {0x4008}, {0x6008}), addKey, 0x4008),
    ((medley₆, ⟨{0x1008}, 0⟩, {0x2018}, {0x4008}, {0x6008}), appendByte, 0xA018),
    ((medley₇, ⟨{0x1008}, 0⟩, {0xA018}, {0x4008}, {0x6008}), storeByte, 0x6008),
    ((medley₈, ⟨{0x1008}, 0⟩, {0xA018}, {0x4008}, {0x6008}), findValue, 0x8008),
    ((medley₉, ⟨{0x1008}, 0⟩, {0xA018}, {0x4008}, {0x6008}), pickNode, 0x8008),
    ((medley₁₀, ⟨{0x1008}, 0⟩, {0xA018}, {0x4008}, {0x6008}), dropList, NULL),
    ((medley₁₁, ⟨0, 0⟩, {0xA018}, {0x4008}, {0x6008}), dropDict, NULL),
    ((medley₁₂, ⟨0, 0⟩, {0xA018}, 0, {0x6008}), dropString, NULL),
    ((medley₁₃, ⟨0, 0⟩, ∅, 0, {0x6008}), dropBlock, 0x6008)]

theorem medley_step (hlegal : medley.Legal s h op) (hok : result (medley.exec op) s = some r)
    (hs : s' = after (medley.exec op) s) (hh : h' = medley.handles h op r) : medley.step (s, h) (op, r) (s', h') :=
  ⟨hlegal, hs ▸ ok_after hok, hh⟩

theorem run_medley_full : Run medley.step (zinit, noHoldings) (medleyRun.take 8)
    (medley₈, ⟨{0x1008}, 0⟩, {0xA018}, {0x4008}, {0x6008}) := by
  have h₁ : medley.step (zinit, noHoldings) (makeList, 0x1008) (medley₁, ⟨{0x1008}, 0⟩, ∅, 0, 0) :=
    medley_step ⟨trivial, trivial⟩ (by decide +kernel) rfl rfl
  have h₂ : medley.step (medley₁, ⟨{0x1008}, 0⟩, ∅, 0, 0) (makeString, 0x2018)
      (medley₂, ⟨{0x1008}, 0⟩, {0x2018}, 0, 0) :=
    medley_step ⟨by decide, Or.inr ⟨trivial, rfl⟩⟩ (by decide +kernel) rfl rfl
  have h₃ : medley.step (medley₂, ⟨{0x1008}, 0⟩, {0x2018}, 0, 0) (makeDict, 0x4008)
      (medley₃, ⟨{0x1008}, 0⟩, {0x2018}, {0x4008}, 0) := by
    refine medley_step ⟨⟨id, rfl⟩, ?_⟩ (by decide +kernel) rfl rfl
    rintro size bytes ⟨rfl, rfl⟩
    decide
  have h₄ : medley.step (medley₃, ⟨{0x1008}, 0⟩, {0x2018}, {0x4008}, 0) (makeBlock, 0x6008)
      (medley₄, ⟨{0x1008}, 0⟩, {0x2018}, {0x4008}, {0x6008}) :=
    medley_step (show (2 : Word).toNat + 8 < 2 ^ 64 by decide) (by decide +kernel) rfl rfl
  have h₅ : medley.step (medley₄, ⟨{0x1008}, 0⟩, {0x2018}, {0x4008}, {0x6008}) (pushValue, 0x1008)
      (medley₅, ⟨{0x1008}, 0⟩, {0x2018}, {0x4008}, {0x6008}) :=
    medley_step ⟨⟨Multiset.mem_singleton_self _, by decide, by decide⟩, trivial⟩ (by decide +kernel) rfl rfl
  have h₆ : medley.step (medley₅, ⟨{0x1008}, 0⟩, {0x2018}, {0x4008}, {0x6008}) (addKey, 0x4008)
      (medley₆, ⟨{0x1008}, 0⟩, {0x2018}, {0x4008}, {0x6008}) :=
    medley_step (Multiset.mem_singleton_self (0x4008 : Addr)) (by decide +kernel) rfl rfl
  have h₇ : medley.step (medley₆, ⟨{0x1008}, 0⟩, {0x2018}, {0x4008}, {0x6008}) (appendByte, 0xA018)
      (medley₇, ⟨{0x1008}, 0⟩, {0xA018}, {0x4008}, {0x6008}) := by
    have hlen : result (sdslen 0x2018) medley₆ = some 1 := by decide +kernel
    refine medley_step ⟨Finset.mem_singleton_self _, ⟨trivial, rfl⟩, 1, readOnly_sdslen.ok_of_result hlen,
      by decide⟩ (by decide +kernel) rfl rfl
  have h₈ : medley.step (medley₇, ⟨{0x1008}, 0⟩, {0xA018}, {0x4008}, {0x6008}) (storeByte, 0x6008)
      (medley₈, ⟨{0x1008}, 0⟩, {0xA018}, {0x4008}, {0x6008}) := by
    have hsize : result (zsizeof 0x6008) medley₇ = some 2 := by decide +kernel
    exact medley_step ⟨Multiset.mem_singleton_self _, 2, readOnly_zsizeof.ok_of_result hsize, by decide⟩
      (by decide +kernel) rfl rfl
  exact (((((((Run.nil.snoc h₁).snoc h₂).snoc h₃).snoc h₄).snoc h₅).snoc h₆).snoc h₇).snoc h₈

theorem medley_searchable : Searchable intMethods medley₈ 0x1008 0x7008 ∧
    COp.Answers intMethods medley₈ (fun v => v == 0x7008) (.listSearchKey 0x1008 0x7008) := by
  have hheader : Holds medley₈.mem 0x1008 (words [0x8008, 0x8008, 1, 1, 2, 3]) :=
    ⟨by decide +kernel, by decide, by decide, by decide⟩
  have hnode : NodeAt medley₈.mem NULL 0x8008 NULL 0x7008 := ⟨by decide +kernel, by decide, by decide, by decide⟩
  have hvalue : Holds medley₈.mem 0x7008 [7, 0, 0, 0] := ⟨by decide +kernel, by decide, by decide, by decide⟩
  have hhangs : DList.Hangs medley₈.mem ⟨0x1008, [(0x8008, 0x7008)], 1, 2, 3⟩ := ⟨hheader, hnode, trivial⟩
  have hfound : result (listMatches intMethods 0x1008 0x7008 0x7008) medley₈ = some true := by decide +kernel
  generalize medley₈ = s at *
  refine ⟨searchable_int hhangs (fun v hv => ?_) hvalue (by decide), fun n v hn hval => ?_⟩
  · obtain rfl := List.mem_singleton.mp hv
    exact ⟨_, hvalue, by decide⟩
  · obtain ⟨xs, w, ys, hns⟩ := hn.split hhangs
    have hmem : (n, w) ∈ xs ++ (n, w) :: ys := List.mem_append_right xs List.mem_cons_self
    rw [← hns] at hmem
    obtain ⟨rfl, -⟩ := Prod.mk.inj (List.mem_singleton.mp hmem)
    obtain rfl : 0x7008 = v := by simpa using (getField_ok hnode rfl).symm.trans hval
    exact hfound

theorem run_medley : Run medley.step (zinit, noHoldings) medleyRun (medley₁₄, noHoldings) := by
  have hl : (0x1008 : Addr) ∈ ({0x1008} : Multiset Addr) := Multiset.mem_singleton_self _
  have h₉ : medley.step (medley₈, ⟨{0x1008}, 0⟩, {0xA018}, {0x4008}, {0x6008}) (findValue, 0x8008)
      (medley₉, ⟨{0x1008}, 0⟩, {0xA018}, {0x4008}, {0x6008}) :=
    medley_step ⟨⟨hl, medley_searchable.1⟩, medley_searchable.2⟩ (by decide +kernel) rfl rfl
  have h₁₀ : medley.step (medley₉, ⟨{0x1008}, 0⟩, {0xA018}, {0x4008}, {0x6008}) (pickNode, 0x8008)
      (medley₁₀, ⟨{0x1008}, 0⟩, {0xA018}, {0x4008}, {0x6008}) := by
    have hlen : result (listLength 0x1008) medley₉ = some 1 := by decide +kernel
    exact medley_step ⟨⟨hl, 1, readOnly_getField.ok_of_result hlen, by decide⟩, trivial⟩ (by decide +kernel) rfl rfl
  have h₁₁ : medley.step (medley₁₀, ⟨{0x1008}, 0⟩, {0xA018}, {0x4008}, {0x6008}) (dropList, NULL)
      (medley₁₁, ⟨0, 0⟩, {0xA018}, {0x4008}, {0x6008}) :=
    medley_step ⟨hl, trivial⟩ (by decide +kernel) rfl rfl
  have h₁₂ : medley.step (medley₁₁, ⟨0, 0⟩, {0xA018}, {0x4008}, {0x6008}) (dropDict, NULL)
      (medley₁₂, ⟨0, 0⟩, {0xA018}, 0, {0x6008}) :=
    medley_step (Multiset.mem_singleton_self (0x4008 : Addr)) (by decide +kernel) rfl rfl
  have h₁₃ : medley.step (medley₁₂, ⟨0, 0⟩, {0xA018}, 0, {0x6008}) (dropString, NULL)
      (medley₁₃, ⟨0, 0⟩, ∅, 0, {0x6008}) :=
    medley_step (Finset.mem_singleton_self (0xA018 : Addr)) (by decide +kernel) rfl rfl
  have h₁₄ : medley.step (medley₁₃, ⟨0, 0⟩, ∅, 0, {0x6008}) (dropBlock, 0x6008) (medley₁₄, noHoldings) :=
    medley_step (Or.inr (Multiset.mem_singleton_self _)) (by decide +kernel) rfl rfl
  exact (((((run_medley_full.snoc h₉).snoc h₁₀).snoc h₁₁).snoc h₁₂).snoc h₁₃).snoc h₁₄

theorem one_heap_medley :
    (∃ atr a, Run (programStep 1 2) noContents atr a ∧ labels atr = labels medleyRun ∧
      Shows plainType medley₁₄ noHoldings a) ∧
    (∀ op, medley.Legal medley₁₄ noHoldings op → wp Safe (medley.exec op) (fun _ _ => True) medley₁₄) ∧
    (noHoldings = noHoldings → medley₁₄.mem = zinit.mem ∧ medley₁₄.glob.used_memory = zinit.glob.used_memory ∧
      ∃ es, medley₁₄.trace = es ++ zinit.trace ∧ ledger zinit.mem.keys es = some zinit.mem.keys) :=
  one_heap (bump 0) intMethods 1 2 plainType (by decide) (by decide) (dups_int 1) (fun _ => rfl) client_int
    zinit medley₁₄ noHoldings medleyRun run_medley

end Redis
