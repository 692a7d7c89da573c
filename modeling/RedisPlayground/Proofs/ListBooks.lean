import RedisPlayground.Spec.Adlist
import RedisPlayground.Proofs.Accounting

/-! The list functions that call no method. What holds across every access to
the heap holds across them: the books stay right, and no call is recorded. -/

namespace Redis

open CMem

namespace Law

variable {R : State Globals → State Globals → Prop} (hR : Law R) (L : Libc)

include hR

theorem safe_zfree (p : Addr) : Obeys R (safe_zfree p) := hR.bind (hR.zfree p) fun _ => hR.pure _

theorem listCreate : Obeys R (listCreate L) :=
  hR.bind (hR.zmalloc L _) fun _ => Law.ite (hR.pure _) <|
    hR.bind (hR.setField _ _ _) fun _ => hR.bind (hR.setField _ _ _) fun _ =>
    hR.bind (hR.setField _ _ _) fun _ => hR.bind (hR.setField _ _ _) fun _ =>
    hR.bind (hR.setField _ _ _) fun _ => hR.bind (hR.setField _ _ _) fun _ => hR.pure _

theorem listAddNodeHead (l v : Addr) : Obeys R (listAddNodeHead L l v) :=
  hR.bind (hR.zmalloc L _) fun _ => hR.bind (hR.setField _ _ _) fun _ =>
    hR.bind (hR.getField _ _) fun _ => hR.bind (hR.setField _ _ _) fun _ =>
    hR.bind (Law.ite (hR.setField _ _ _) (hR.setField _ _ _)) fun _ =>
    hR.bind (hR.setField _ _ _) fun _ => hR.bind (hR.setField _ _ _) fun _ =>
    hR.bind (hR.getField _ _) fun _ => hR.bind (hR.setField _ _ _) fun _ => hR.pure _

theorem listAddNodeTail (l v : Addr) : Obeys R (listAddNodeTail L l v) :=
  hR.bind (hR.zmalloc L _) fun _ => hR.bind (hR.setField _ _ _) fun _ =>
    hR.bind (hR.getField _ _) fun _ => hR.bind (hR.setField _ _ _) fun _ =>
    hR.bind (Law.ite (hR.setField _ _ _) (hR.setField _ _ _)) fun _ =>
    hR.bind (hR.setField _ _ _) fun _ => hR.bind (hR.setField _ _ _) fun _ =>
    hR.bind (hR.getField _ _) fun _ => hR.bind (hR.setField _ _ _) fun _ => hR.pure _

theorem listGetIterator (l : Addr) (dir : BitVec 32) : Obeys R (listGetIterator L l dir) :=
  hR.bind (hR.zmalloc L _) fun _ => hR.bind (hR.setInt _ _ _) fun _ =>
    hR.bind (hR.getField _ _) fun _ => hR.bind (hR.setField _ _ _) fun _ => hR.pure _

theorem listNext (it : Addr) : Obeys R (listNext it) :=
  hR.bind (hR.getField _ _) fun _ => Law.ite (hR.pure _) <|
    hR.bind (hR.getInt _ _) fun _ => hR.bind (hR.getField _ _) fun _ =>
    hR.bind (hR.setField _ _ _) fun _ => hR.pure _

theorem listUnlink (l n : Addr) : Obeys R (listUnlink l n) :=
  hR.bind (hR.getField _ _) fun _ => Law.ite
    (hR.bind (hR.getField _ _) fun _ => hR.bind (hR.setField _ _ _) fun _ => hR.setField _ _ _)
    (hR.bind (hR.getField _ _) fun _ => Law.ite
      (hR.bind (hR.getField _ _) fun _ => hR.bind (hR.setField _ _ _) fun _ => hR.setField _ _ _)
      (hR.bind (hR.getField _ _) fun _ => hR.bind (hR.getField _ _) fun _ =>
        hR.bind (hR.setField _ _ _) fun _ => hR.setField _ _ _))

end Law

end Redis
