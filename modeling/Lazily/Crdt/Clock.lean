import Mathlib.Algebra.Ring.Nat
import Mathlib.Data.Prod.Lex
import Mathlib.Tactic.Common

/-!
# Hybrid logical clocks

Stamps `(wall_time, logical, peer)` in lexicographic order and the clock of one peer (`crdt.rs`).
Wall times and counters are natural numbers: the results are about clocks below counter overflow.
Each call moves the clock past what it stamps and what it receives, so the stamps of a network of
clocks are unique and grow along each peer: `stamps_unique`.
-/

namespace Lazily.Crdt

abbrev PeerId := Nat

structure HlcStamp where
  wallTime : Nat
  logical : Nat
  peer : PeerId
  deriving DecidableEq, Repr

namespace HlcStamp

/-- The key of the derived order. -/
def key (s : HlcStamp) : Nat ×ₗ Nat ×ₗ Nat := toLex (s.wallTime, toLex (s.logical, s.peer))

theorem key_injective : Function.Injective key := by
  rintro ⟨w, l, p⟩ ⟨w', l', p'⟩ h
  simpa [key] using h

instance : LinearOrder HlcStamp := LinearOrder.lift' key key_injective

instance : Std.TransCmp (compare : HlcStamp → HlcStamp → Ordering) := inferInstance

instance : Std.LawfulEqCmp (compare : HlcStamp → HlcStamp → Ordering) where
  eq_of_compare h := compare_eq_iff_eq.1 h

theorem lt_iff {s t : HlcStamp} : s < t ↔ s.wallTime < t.wallTime ∨ s.wallTime = t.wallTime ∧
      (s.logical < t.logical ∨ s.logical = t.logical ∧ s.peer < t.peer) := by
  change toLex (s.wallTime, toLex (s.logical, s.peer)) <
    toLex (t.wallTime, toLex (t.logical, t.peer)) ↔ _
  simp [Prod.Lex.toLex_lt_toLex]

end HlcStamp

/-- The clock of one peer; the caller supplies the wall time. -/
structure Hlc where
  peer : PeerId
  lastWall : Nat
  lastLogical : Nat
  deriving DecidableEq, Repr

namespace Hlc

def new (peer : PeerId) : Hlc := ⟨peer, 0, 0⟩

def now (c : Hlc) : HlcStamp := ⟨c.lastWall, c.lastLogical, c.peer⟩

def send (c : Hlc) (nowMicros : Nat) : Hlc × HlcStamp :=
  let c' : Hlc :=
    if c.lastWall < nowMicros then { c with lastWall := nowMicros, lastLogical := 0 }
    else { c with lastLogical := c.lastLogical + 1 }
  (c', ⟨c'.lastWall, c'.lastLogical, c'.peer⟩)

def recv (c : Hlc) (remote : HlcStamp) (nowMicros : Nat) : Hlc × HlcStamp :=
  let wall := max (max c.lastWall remote.wallTime) nowMicros
  let logical :=
    if wall = c.lastWall ∧ wall = remote.wallTime then max c.lastLogical remote.logical + 1
    else if wall = c.lastWall then c.lastLogical + 1
    else if wall = remote.wallTime then remote.logical + 1
    else 0
  let c' : Hlc := { c with lastWall := wall, lastLogical := logical }
  (c', ⟨c'.lastWall, c'.lastLogical, c'.peer⟩)

variable (c : Hlc)
include c

variable (n : Nat)

@[simp] theorem send_peer : (c.send n).1.peer = c.peer := by
  unfold send
  split <;> rfl

@[simp] theorem recv_peer (s : HlcStamp) : (c.recv s n).1.peer = c.peer := rfl

@[simp] theorem now_peer : c.now.peer = c.peer := rfl

/-- A stamp is the position of the clock it leaves. -/
theorem send_stamp : (c.send n).2 = (c.send n).1.now := rfl

theorem lt_now_send : c.now < (c.send n).1.now := by
  unfold send now
  rw [HlcStamp.lt_iff]
  split
  · exact .inl (by assumption)
  · exact .inr ⟨rfl, .inl (Nat.lt_succ_self _)⟩

/-- After a receive the clock is past its own position and past the stamp. -/
theorem lt_now_recv (s : HlcStamp) : c.now < (c.recv s n).1.now ∧ s < (c.recv s n).1.now := by
  simp only [HlcStamp.lt_iff, recv, now]
  split
  · omega
  · split
    · omega
    · split <;> omega

end Hlc

/-! ## The clocks of several peers -/

/-- A call on the clock of a peer. The stamp it observes is any stamp. -/
inductive HlcEvent where
  | send (peer : PeerId) (nowMicros : Nat)
  | recv (peer : PeerId) (remote : HlcStamp) (nowMicros : Nat)
  deriving DecidableEq, Repr

def HlcEvent.peer : HlcEvent → PeerId
  | .send peer _ => peer
  | .recv peer _ _ => peer

/-- One clock a peer, new or forked, under the peer's own id. -/
structure HlcNet where
  clock : PeerId → Hlc
  own : ∀ p, (clock p).peer = p

namespace HlcNet

/-- The call on the peer's clock: the clock after it, and the stamp it returns. -/
def call (net : HlcNet) : HlcEvent → Hlc × HlcStamp
  | .send p now => (net.clock p).send now
  | .recv p remote now => (net.clock p).recv remote now

theorem call_peer (net : HlcNet) (e : HlcEvent) : (net.call e).1.peer = e.peer := by
  cases e with
  | send p now => exact (Hlc.send_peer _ _).trans (net.own p)
  | recv p remote now => exact (Hlc.recv_peer _ _ _).trans (net.own p)

def step (net : HlcNet) (e : HlcEvent) : HlcNet where
  clock p := if p = e.peer then (net.call e).1 else net.clock p
  own p := by
    split
    · rename_i hp
      rw [hp, net.call_peer]
    · exact net.own p

/-- The calls of a run with the stamps they issue. -/
def log (net : HlcNet) : List HlcEvent → List (HlcEvent × HlcStamp)
  | [] => []
  | e :: es => (e, (net.call e).2) :: log (net.step e) es

def now (net : HlcNet) (p : PeerId) : HlcStamp := (net.clock p).now

theorem now_step_self (net : HlcNet) (e : HlcEvent) : (net.step e).now e.peer = (net.call e).2 := by
  cases e <;> simp [now, step, call, Hlc.now, HlcEvent.peer, Hlc.send, Hlc.recv]

theorem lt_now_step (net : HlcNet) (e : HlcEvent) : net.now e.peer < (net.step e).now e.peer := by
  rw [now_step_self]
  cases e with
  | send p now => exact (net.clock p).lt_now_send now
  | recv p remote now => exact ((net.clock p).lt_now_recv now remote).1

theorem now_le_step (net : HlcNet) (e : HlcEvent) (p : PeerId) :
    net.now p ≤ (net.step e).now p := by
  by_cases hp : p = e.peer
  · exact hp ▸ (net.lt_now_step e).le
  · simp [now, step, hp]

/-- What a clock has passed, its later stamps are past. -/
theorem lt_of_mem_log {s : HlcStamp} {p : PeerId} : ∀ (es : List HlcEvent) (net : HlcNet),
    s ≤ net.now p → ∀ entry ∈ net.log es, entry.1.peer = p → s < entry.2
  | [], _, _, _, hentry, _ => absurd hentry List.not_mem_nil
  | e :: es, net, hs, entry, hentry, hpeer => by
    rcases List.mem_cons.1 hentry with rfl | hentry
    · subst hpeer
      exact hs.trans_lt (now_step_self net e ▸ net.lt_now_step e)
    · exact lt_of_mem_log es (net.step e) (hs.trans (net.now_le_step e p)) entry hentry hpeer

theorem stamp_peer : ∀ (es : List HlcEvent) (net : HlcNet), ∀ entry ∈ net.log es,
    entry.2.peer = entry.1.peer
  | [], _, _, hentry => absurd hentry List.not_mem_nil
  | e :: es, net, entry, hentry => by
    rcases List.mem_cons.1 hentry with rfl | hentry
    · rw [← now_step_self]
      exact (net.step e).own e.peer
    · exact stamp_peer es (net.step e) entry hentry

theorem log_increasing : ∀ (es : List HlcEvent) (net : HlcNet),
    (net.log es).Pairwise fun a b => b.1.peer = a.1.peer → a.2 < b.2
  | [], _ => .nil
  | e :: es, net =>
    .cons (fun entry hentry hpeer =>
        lt_of_mem_log es (net.step e) (now_step_self net e).ge entry hentry hpeer)
      (log_increasing es (net.step e))

theorem recv_lt_stamp {p : PeerId} {remote : HlcStamp} {now : Nat} :
    ∀ (es : List HlcEvent) (net : HlcNet), ∀ entry ∈ net.log es,
      entry.1 = .recv p remote now → remote < entry.2
  | [], _, _, hentry, _ => absurd hentry List.not_mem_nil
  | e :: es, net, entry, hentry, he => by
    rcases List.mem_cons.1 hentry with rfl | hentry
    · simp only at he
      subst he
      exact ((net.clock p).lt_now_recv now remote).2
    · exact recv_lt_stamp es (net.step e) entry hentry he

/-- In every run of the clocks of any peers, whatever wall times they read and whatever stamps they
observe: the stamps of one clock increase, a stamp that a clock issues at or after the receipt of
`remote` is past it, and no two stamps are equal. -/
theorem stamps_unique (net : HlcNet) (es : List HlcEvent) :
    ((net.log es).Pairwise fun a b => b.1.peer = a.1.peer → a.2 < b.2) ∧
    (∀ entry ∈ net.log es, ∀ p remote now, entry.1 = .recv p remote now → remote < entry.2) ∧
    ((net.log es).Pairwise fun a b =>
      ∀ remote now, a.1 = .recv b.1.peer remote now → remote < b.2) ∧
    ((net.log es).map Prod.snd).Nodup := by
  have hincr := log_increasing es net
  have hpeer := stamp_peer es net
  refine ⟨hincr, fun entry hentry p remote now => recv_lt_stamp es net entry hentry, ?_, ?_⟩
  · refine hincr.imp_of_mem fun {a b} ha _ hlt remote now hrecv => ?_
    refine (recv_lt_stamp es net a ha hrecv).trans (hlt ?_)
    rw [hrecv]
    rfl
  · refine List.pairwise_map.2 (hincr.imp_of_mem fun {a b} ha hb hlt heq => ?_)
    -- equal stamps name one peer, whose clock issued both
    have hsame : b.1.peer = a.1.peer := by rw [← hpeer a ha, ← hpeer b hb, heq]
    exact (hlt hsame).ne heq

end HlcNet

/-! ## Identifiers of text ops

Lamport counters with the peer as tiebreak (`text_crdt.rs`). Counters are natural numbers: the
results are about counters below overflow.
-/

structure OpId where
  counter : Nat
  peer : Nat
  deriving DecidableEq, Repr

namespace OpId

def key (o : OpId) : Nat ×ₗ Nat := toLex (o.counter, o.peer)

theorem key_injective : Function.Injective key := by
  rintro ⟨c, p⟩ ⟨c', p'⟩ h
  simpa [key] using h

instance : LinearOrder OpId := LinearOrder.lift' key key_injective

instance : Std.TransCmp (compare : OpId → OpId → Ordering) := inferInstance

instance : Std.LawfulEqCmp (compare : OpId → OpId → Ordering) where
  eq_of_compare h := compare_eq_iff_eq.1 h

theorem lt_iff {o o' : OpId} :
    o < o' ↔ o.counter < o'.counter ∨ o.counter = o'.counter ∧ o.peer < o'.peer := by
  change toLex (o.counter, o.peer) < toLex (o'.counter, o'.peer) ↔ _
  simp [Prod.Lex.toLex_lt_toLex]

end OpId

end Lazily.Crdt
