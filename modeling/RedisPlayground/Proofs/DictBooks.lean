import RedisPlayground.Spec.Dict
import RedisPlayground.Proofs.ListBooks

/-! The dict functions that allocate, and the release. What holds across every access to the heap
holds across them. -/

namespace Redis

open CMem

namespace Law

variable {R : State Globals → State Globals → Prop} (hR : Law R) (L : Libc) (T : Addr → Option dictType)

include hR

theorem fuel : Obeys R fuel := hR.readOnly (readOnly_of_wp fun _ => rfl)

theorem stop {α : Type} (e : Stop) : Obeys R (stop e : M α) := hR.readOnly (readOnly_stop e)

theorem getHt (d : Addr) (i : ℕ) : Obeys R (getHt d i) :=
  hR.bind (hR.getField _ _) fun _ => hR.bind (hR.getField _ _) fun _ =>
    hR.bind (hR.getField _ _) fun _ => hR.bind (hR.getField _ _) fun _ => hR.pure _

theorem setHt (d : Addr) (i : ℕ) (n : dictht) : Obeys R (setHt d i n) :=
  hR.bind (hR.setField _ _ _) fun _ => hR.bind (hR.setField _ _ _) fun _ =>
    hR.bind (hR.setField _ _ _) fun _ => hR.setField _ _ _

theorem dictReset (d : Addr) : Obeys R (_dictReset d) := by
  have hht : ∀ i, Obeys R (_dicthtReset d i) := fun i =>
    hR.bind (hR.setField _ _ _) fun _ => hR.bind (hR.setField _ _ _) fun _ =>
      hR.bind (hR.setField _ _ _) fun _ => hR.setField _ _ _
  exact hR.bind (hR.setField _ _ _) fun _ => hR.bind (hR.setField _ _ _) fun _ =>
    hR.bind (hR.setInt _ _ _) fun _ => hR.bind (hht 0) fun _ => hht 1

theorem dictNextPower (size : Word) : Obeys R (_dictNextPower size) := by
  have hloop : ∀ n i, Obeys R (_dictNextPowerLoop size n i) := by
    intro n
    induction n with
    | zero => exact fun _ => hR.stop _
    | succ n ih => exact fun i => Law.ite (hR.pure _) (ih _)
  exact Law.ite (hR.pure _) (hloop _ _)

theorem dictExpand (d : Addr) (size : Word) : Obeys R (dictExpand L d size) :=
  hR.bind (hR.dictNextPower _) fun _ => hR.bind (hR.getField _ _) fun _ => Law.ite (hR.pure _) <|
    hR.bind (hR.zmalloc L _) fun _ => hR.bind (hR.getField _ _) fun _ => Law.ite
      (hR.bind (hR.setHt _ _ _) fun _ => hR.pure _)
      (hR.bind (hR.setHt _ _ _) fun _ => hR.bind (hR.setInt _ _ _) fun _ => hR.pure _)

theorem dictHtInit (d : Addr) : Obeys R (_dictHtInit L d) := by
  have hloop : ∀ table n, Obeys R (_dictHtInitLoop table n) := by
    intro table n
    induction n with
    | zero => exact hR.pure _
    | succ n ih => exact hR.bind ih fun _ => hR.setField _ _ _
  have hht : ∀ i, Obeys R (_dictHtInit_ht d i) := fun i =>
    hR.bind (hR.getField _ _) fun _ => hR.bind (hR.getField _ _) fun _ =>
      hR.bind (hloop _ _) fun _ => hR.pure _
  have hneeded : Obeys R (_dictExpandIfNeeded L d) :=
    hR.bind (hR.getField _ _) fun _ => hR.bind (hR.getField _ _) fun _ =>
      Law.ite (hR.dictExpand L _ _) (hR.pure _)
  exact hR.bind hneeded fun _ => Law.ite (hR.pure _) <|
    hR.bind (hht 0) fun _ => hR.bind (hht 1) fun _ => hR.pure _

theorem dictCreate (type privdata : Addr) : Obeys R (dictCreate L type privdata) := by
  have hinit : ∀ d, Obeys R (_dictInit L d type privdata) := fun d =>
    hR.bind (hR.dictReset _) fun _ => hR.bind (hR.setField _ _ _) fun _ =>
      hR.bind (hR.setField _ _ _) fun _ => hR.bind (hR.dictHtInit L _) fun _ => hR.pure _
  have halloc : Obeys R (_dictAlloc L dict.sizeof) :=
    hR.bind (hR.zmalloc L _) fun _ => hR.bind (Law.ite (hR.pure _) (hR.pure _)) fun _ => hR.pure _
  exact hR.bind halloc fun d => hR.bind (hinit d) fun _ => hR.pure _

theorem dictHashKey (d key : Addr) : Obeys R (dictHashKey T d key) := by
  refine hR.bind (hR.getField _ _) fun type => ?_
  split
  · exact hR.pure _
  · exact hR.stop _

theorem dictEntryCreate (key val : Addr) : Obeys R (dictEntryCreate L key val) := by
  have hentry : Obeys R (_dictEntryCreate L) :=
    hR.bind (hR.zmalloc L _) fun _ => hR.bind (hR.setField _ _ _) fun _ =>
      hR.bind (hR.setField _ _ _) fun _ => hR.bind (hR.setField _ _ _) fun _ => hR.pure _
  exact hR.bind hentry fun _ => hR.bind (hR.setField _ _ _) fun _ =>
    hR.bind (hR.setField _ _ _) fun _ => hR.pure _

theorem dictAdd (d key val : Addr) : Obeys R (dictAdd L T d key val) :=
  Law.ite (hR.pure _) <| hR.bind (hR.getHt _ _) fun _ => hR.bind (hR.dictEntryCreate L _ _) fun _ =>
    hR.bind (hR.dictHashKey T _ _) fun _ => hR.bind (hR.getField _ _) fun _ =>
    hR.bind (hR.setField _ _ _) fun _ => hR.bind (hR.setField _ _ _) fun _ => hR.pure _

theorem dictRelease (d : Addr) : Obeys R (dictRelease d) := by
  have hentry : ∀ p, Obeys R (_dictEntryRelease p) := fun p =>
    hR.bind (hR.setField _ _ _) fun _ => hR.bind (hR.setField _ _ _) fun _ =>
      hR.bind (hR.setField _ _ _) fun _ => hR.bind (hR.safe_zfree _) fun _ => hR.pure _
  have hchain : ∀ n p, Obeys R (_dictEntryReleaseChain n p) := by
    intro n
    induction n with
    | zero => exact fun _ => hR.stop _
    | succ n ih =>
      exact fun p => Law.ite (hR.pure _) <| hR.bind (hR.getField _ _) fun next =>
        hR.bind (hentry p) fun _ => ih next
  have hloop : ∀ table n, Obeys R (_dictEntryReleaseLoop table n) := by
    intro table n
    induction n with
    | zero => exact hR.pure _
    | succ n ih =>
      exact hR.bind ih fun _ => hR.bind (hR.getField _ _) fun _ => hR.bind hR.fuel fun _ => hchain _ _
  have hht : ∀ i, Obeys R (_dictHtRelease_ht d i) := fun i =>
    hR.bind (hR.bind (hR.getField _ _) fun _ => hR.bind (hR.getField _ _) fun _ => hloop _ _) fun _ =>
      hR.bind (hR.getField _ _) fun _ => hR.zfree _
  have hpriv : Obeys R (_privDataRelease d) :=
    hR.bind (hR.getField _ _) fun _ => Law.ite (hR.pure _) (hR.zfree _)
  have hfree : Obeys R (_dictFree d) :=
    Law.ite (hR.pure _) <| hR.bind (hR.safe_zfree _) fun _ => hR.pure _
  exact hR.bind hpriv fun _ => hR.bind (hR.bind (hht 0) fun _ => hht 1) fun _ =>
    hR.bind (hR.dictReset _) fun _ => hfree

end Law

end Redis
