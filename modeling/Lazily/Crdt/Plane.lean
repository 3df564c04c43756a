import Lazily.Crdt.Clock
import Lazily.Lib.Watermark
import Mathlib.Order.MinMax

/-!
# The coordination plane of one replica

`CrdtPlane` holds the clock, the expected membership and what has been observed from each member.
Its stability frontier is the least stamp observed over the membership. The plane keeps its entries
under the peer that issued them, and its clock past all of them.
-/

namespace Lazily.Crdt

open Lib Option Hlc

/-- The plane of one replica. -/
structure CrdtPlane where
  peer : PeerId
  clock : Hlc
  membership : List PeerId
  frontier : Watermark HlcStamp
  opFrontier : Watermark OpId
  clock_peer : clock.peer = peer
  keyed : ∀ (p : PeerId) s, frontier[p]? = some s → s.peer = p
  ahead : ∀ (p : PeerId) s, frontier[p]? = some s → s ≤ clock.now

namespace CrdtPlane

def new (peer : PeerId) : CrdtPlane where
  peer := peer
  clock := .new peer
  membership := [peer]
  frontier := ∅
  opFrontier := ∅
  clock_peer := rfl
  keyed := by simp
  ahead := by simp

def addPeer (plane : CrdtPlane) (peer : PeerId) : CrdtPlane :=
  { plane with membership := plane.membership.insert peer }

theorem entry_observe {plane : CrdtPlane} {stamp s : HlcStamp} {p : PeerId}
    (h : (plane.frontier.observe stamp.peer stamp).1[p]? = some s) :
    s = stamp ∧ p = stamp.peer ∨ plane.frontier[p]? = some s := by
  by_cases hp : p = stamp.peer
  · subst hp
    rw [Watermark.getElem?_observe_self] at h
    cases hcur : plane.frontier[stamp.peer]? with
    | none =>
      rw [hcur] at h
      exact .inl ⟨(some.inj h).symm, rfl⟩
    | some cur =>
      rw [hcur, elim_some, some_inj] at h
      rcases max_choice stamp cur with hmax | hmax
      · exact .inl ⟨by rw [← h, hmax], rfl⟩
      · exact .inr (by rw [← h, hmax])
  · rw [Watermark.getElem?_observe_ne _ _ hp] at h
    exact .inr h

def tick (plane : CrdtPlane) (nowMicros : Nat) : CrdtPlane × HlcStamp :=
  let r := plane.clock.send nowMicros
  ({ plane with
      clock := r.1
      frontier := (plane.frontier.observe r.2.peer r.2).1
      clock_peer := by rw [Hlc.send_peer, plane.clock_peer]
      keyed := fun p s h => by
        rcases entry_observe h with ⟨rfl, rfl⟩ | h
        · rfl
        · exact plane.keyed p s h
      ahead := fun p s h => by
        rcases entry_observe h with ⟨rfl, -⟩ | h
        · exact le_rfl
        · exact (plane.ahead p s h).trans (Hlc.lt_now_send plane.clock nowMicros).le }, r.2)

/-- Observe a remote stamp: its peer is a member, and the clock goes past it. -/
def observeRemote (plane : CrdtPlane) (remote : HlcStamp) (nowMicros : Nat) :
    CrdtPlane × HlcStamp :=
  let r := plane.clock.recv remote nowMicros
  ({ plane with
      clock := r.1
      membership := plane.membership.insert remote.peer
      frontier := (plane.frontier.observe remote.peer remote).1
      clock_peer := plane.clock_peer
      keyed := fun p s h => by
        rcases entry_observe h with ⟨rfl, rfl⟩ | h
        · rfl
        · exact plane.keyed p s h
      ahead := fun p s h => by
        have hrecv := Hlc.lt_now_recv plane.clock nowMicros remote
        rcases entry_observe h with ⟨rfl, -⟩ | h
        · exact hrecv.2.le
        · exact (plane.ahead p s h).trans hrecv.1.le }, r.2)

/-- The least stamp observed over the membership. -/
def stabilityFrontier (plane : CrdtPlane) : Option HlcStamp :=
  plane.frontier.stable plane.membership

/-- Fold the position of a text replica into the frontier of the text layer. -/
def observeOp (plane : CrdtPlane) (op : OpId) : CrdtPlane :=
  { plane with
    membership := plane.membership.insert op.peer
    opFrontier := (plane.opFrontier.observe op.peer op).1 }

def opStabilityFrontier (plane : CrdtPlane) : Option OpId :=
  plane.opFrontier.stable plane.membership

variable (plane : CrdtPlane)
include plane

variable (n : Nat)

@[simp] theorem tick_peer : (plane.tick n).1.peer = plane.peer := rfl

theorem tick_stamp_peer : (plane.tick n).2.peer = plane.peer := by
  show (plane.clock.send n).2.peer = plane.peer
  rw [send_stamp, now_peer, send_peer, plane.clock_peer]

/-- A fresh stamp is the new position of the clock, past the one before. -/
theorem lt_tick : plane.clock.now < (plane.tick n).2 := lt_now_send plane.clock n

theorem tick_now : (plane.tick n).1.clock.now = (plane.tick n).2 := rfl

theorem lt_observeRemote (s : HlcStamp) : plane.clock.now < (plane.observeRemote s n).1.clock.now :=
  (lt_now_recv plane.clock n s).1

end CrdtPlane

end Lazily.Crdt
