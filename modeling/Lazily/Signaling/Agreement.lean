import Lazily.Signaling.Room
import Lazily.Lib.Reach
import Mathlib.Data.Finset.Basic

/-!
# Roster agreement

A connection learns the roster from its welcome and the announcements after it. In every run of
calls the two maps of the room are inverse, each joined connection has the roster without itself,
and a forwarded frame names the connection it comes from and reaches the one it is addressed to
(`roster_agreement`). `effect_call` is what a call sends, `Agreed.step` what it keeps.
-/

namespace Lazily.Signaling

open Lib List RoomCore Table ServerMessage

variable {C V : Type} [DecidableEq C]

/-! ## What a connection knows -/

/-- The id a connection has joined under, and the peers it knows of. -/
structure View where
  self : PeerId
  peers : Finset PeerId
  deriving DecidableEq

/-- Fold a message into the view. -/
def hear (view : Option View) : ServerMessage V → Option View
  | .welcome peer peers => some ⟨peer, peers.toFinset⟩
  | .peerJoined peer => view.map fun v => { v with peers := insert peer v.peers }
  | .peerLeft peer => view.map fun v => { v with peers := v.peers.erase peer }
  | .offer _ _ | .answer _ _ | .ice _ _ | .relay _ _ | .error _ _ => view

def heard (sends : Sends C V) (conn : C) : List (ServerMessage V) :=
  (sends.filter (·.1 = conn)).map (·.2)

theorem heard_append (sends sends' : Sends C V) (conn : C) :
    heard (sends ++ sends') conn = heard sends conn ++ heard sends' conn := by
  simp [heard]

theorem heard_cons (conn' : C) (message : ServerMessage V) (sends : Sends C V) (conn : C) :
    heard ((conn', message) :: sends) conn =
      if conn' = conn then message :: heard sends conn else heard sends conn := by
  simp only [heard, filter_cons, decide_eq_true_eq]
  split <;> rfl

/-! ## Forwarded frames -/

/-- The sender a forwarded frame names. -/
def ServerMessage.sender? : ServerMessage V → Option PeerId
  | .offer sender _ | .answer sender _ | .ice sender _ | .relay sender _ => some sender
  | .welcome _ _ | .peerJoined _ | .peerLeft _ | .error _ _ => none

/-- The peer a frame is addressed to, and what it becomes. -/
def ClientMessage.directed? : ClientMessage V → Option (PeerId × (PeerId → ServerMessage V))
  | .offer dest sdp => some (dest, (.offer · sdp))
  | .answer dest sdp => some (dest, (.answer · sdp))
  | .ice dest candidate => some (dest, (.ice · candidate))
  | .relay dest payload => some (dest, (.relay · payload))
  | .join _ | .leave => none

/-! ## Runs -/

/-- A call on the room, or on its permissions. -/
inductive Call (C V : Type) where
  | message (conn : C) (message : ClientMessage V)
  | close (conn : C)
  | allowJoin (peer : PeerId)
  | allowSignal (peer target : PeerId)
  | allowMany (peer : PeerId) (targets : List PeerId)
  | revokePeer (peer : PeerId)

def RoomCore.call (room : RoomCore C) : Call C V → RoomCore C × Sends C V
  | .message conn message => room.handleMessage conn message
  | .close conn => room.handleClose conn
  | .allowJoin peer => ({ room with permissions := room.permissions.allowJoin peer }, [])
  | .allowSignal peer target =>
    ({ room with permissions := room.permissions.allowSignal peer target }, [])
  | .allowMany peer targets =>
    ({ room with permissions := room.permissions.allowMany peer targets }, [])
  | .revokePeer peer => ({ room with permissions := room.permissions.revokePeer peer }, [])

structure Session (C V : Type) where
  room : RoomCore C
  sent : Sends C V

namespace Session

def start (permissions : SignalingPermissions) : Session C V := ⟨.new permissions, []⟩

variable (s : Session C V)

def step (call : Call C V) : Session C V :=
  let (room, sends) := s.room.call call
  ⟨room, s.sent ++ sends⟩

def run (calls : List (Call C V)) : Session C V := calls.foldl step s

def view (conn : C) : Option View := (heard s.sent conn).foldl hear none

end Session

/-! ## What a call does to the room -/

/-- Each peer is at one connection, each connection joined as one peer. -/
def RoomCore.Inverse (room : RoomCore C) : Prop :=
  ∀ peer conn, room.byPeer.lookup peer = some conn ↔ room.byConn.lookup conn = some peer

def RoomCore.others (room : RoomCore C) (peer : PeerId) : Finset PeerId :=
  (room.roster.filter (· ≠ peer)).toFinset

namespace RoomCore

variable {peer p : PeerId} {room : RoomCore C}

omit [DecidableEq C] in
theorem mem_others : p ∈ room.others peer ↔ (room.byPeer.lookup p).isSome ∧ p ≠ peer := by
  rw [others, mem_toFinset, mem_filter, roster, mem_insertionSort, mem_keys_iff, decide_eq_true_eq]

/-- A broadcast reaches a joined connection once, unless it is the one left out. -/
theorem heard_broadcast (hinv : room.Inverse) (exclude : PeerId)
    (message : ServerMessage V) (conn : C) : heard (room.broadcastExcept exclude message) conn =
      match room.byConn.lookup conn with
      | some peer => if peer = exclude then [] else [message]
      | none => [] := by
  have hmap : heard (room.broadcastExcept exclude message) conn =
      (room.byPeer.entries.reverse.filter fun e => e.2 = conn ∧ e.1 ≠ exclude).map
        fun _ => message := by
    simp [heard, broadcastExcept, filter_map, Function.comp_def]
  rw [hmap]
  have hentry : ∀ e ∈ room.byPeer.entries.reverse, e.2 = conn →
      room.byConn.lookup conn = some e.1 := by
    intro e he heq
    rw [mem_reverse] at he
    rw [← heq, ← hinv, ← mem_entries]
    exact he
  split
  · rename_i peer hpeer
    have honly : ∀ e ∈ room.byPeer.entries.reverse,
        decide (e.2 = conn ∧ e.1 ≠ exclude) = (e == ⟨peer, conn⟩ && decide (peer ≠ exclude)) := by
      intro e he
      by_cases heq : e.2 = conn
      · have hsame := hentry e he heq
        rw [hpeer, Option.some_inj] at hsame
        have : e = ⟨peer, conn⟩ := Sigma.ext hsame.symm (heq_of_eq heq)
        simp [this]
      · have hne : e ≠ ⟨peer, conn⟩ := fun h => heq (by rw [h])
        simp [heq, hne]
    rw [filter_congr honly]
    by_cases hex : peer = exclude
    · simp [hex]
    · have hmem : (⟨peer, conn⟩ : Sigma fun _ => C) ∈ room.byPeer.entries.reverse := by
        rw [mem_reverse, mem_entries, hinv]
        exact hpeer
      have hnodup := nodup_reverse.2 (nodup_entries room.byPeer)
      simp only [ne_eq, hex, not_false_eq_true, decide_true, Bool.and_true]
      rw [filter_beq, hnodup.count, if_pos hmem]
      rfl
  · rename_i hnone
    rw [map_eq_nil_iff, filter_eq_nil_iff]
    intro e he hcond
    have hconn : e.2 = conn := (of_decide_eq_true hcond).1
    rw [hentry e he hconn] at hnone
    cases hnone

def added (room : RoomCore C) (conn : C) (peer : PeerId) : RoomCore C :=
  { room with byPeer := room.byPeer.insert peer conn, byConn := room.byConn.insert conn peer }

def removed (room : RoomCore C) (conn : C) (peer : PeerId) : RoomCore C :=
  { room with byConn := room.byConn.erase conn, byPeer := room.byPeer.erase peer }

/-- What a call can do. -/
inductive Effect (room : RoomCore C) : RoomCore C × Sends C V → Prop
  | quiet {permissions : SignalingPermissions} {sends : Sends C V}
      (h : ∀ s ∈ sends, ∀ view, hear view s.2 = view) :
      Effect room ({ room with permissions := permissions }, sends)
  | joined {conn : C} {peer : PeerId} (hconn : room.byConn.lookup conn = none)
      (hpeer : room.byPeer.lookup peer = none) :
      Effect room (room.added conn peer,
        (conn, .welcome peer ((room.added conn peer).roster.filter (· ≠ peer))) ::
          (room.added conn peer).broadcastExcept peer (.peerJoined peer))
  | left {conn : C} {peer : PeerId} (hconn : room.byConn.lookup conn = some peer) :
      Effect room (room.removed conn peer,
        (room.removed conn peer).broadcastExcept peer (.peerLeft peer))

variable {room : RoomCore C} {build : PeerId → ServerMessage V} (conn : C)

theorem Effect.error (code : ErrorCode) (message : String) :
    Effect (V := V) room (room, [(conn, .error code message)]) := by
  refine .quiet fun s hs view => ?_
  rw [mem_singleton.1 hs]
  rfl

theorem effect_handleJoin (peer : PeerId) : Effect (V := V) room (room.handleJoin conn peer) := by
  unfold handleJoin permissionDenied
  split
  · exact .error ..
  · rename_i hconn
    split
    · exact .error ..
    · split
      · exact .error ..
      · rename_i hpeer
        exact .joined (by simpa using hconn) (by simpa using hpeer)

theorem effect_handleLeave : Effect (V := V) room (room.handleLeave conn) := by
  unfold handleLeave
  split
  · exact .quiet (by simp)
  · rename_i peer hconn
    exact .left hconn

theorem forward_cases (room : RoomCore C) (conn : C) (kind : DirectedKind) (dest : PeerId)
    (build : PeerId → ServerMessage V) :
    (∃ code message, room.forward conn kind dest build = (room, [(conn, .error code message)])) ∨
      ∃ sender target, room.byConn.lookup conn = some sender ∧
        room.byPeer.lookup dest = some target ∧
        room.forward conn kind dest build = (room, [(target, build sender)]) := by
  unfold forward permissionDenied
  split
  · exact .inl ⟨_, _, rfl⟩
  · rename_i sender hconn
    split
    · exact .inl ⟨_, _, rfl⟩
    · split
      · exact .inl ⟨_, _, rfl⟩
      · rename_i target hdest
        exact .inr ⟨sender, target, hconn, hdest, rfl⟩

theorem effect_forward (kind : DirectedKind) (dest : PeerId)
    (hbuild : ∀ sender view, hear view (build sender) = view) :
    Effect room (room.forward conn kind dest build) := by
  rcases forward_cases room conn kind dest build with ⟨code, message, heq⟩ | ⟨_, _, -, -, heq⟩
  · rw [heq]
    exact .error ..
  · rw [heq]
    refine .quiet fun s hs view => ?_
    rw [mem_singleton.1 hs]
    exact hbuild _ _

theorem effect_call (room : RoomCore C) (call : Call C V) : Effect room (room.call call) := by
  cases call with
  | message conn message =>
    cases message with
    | join peer => exact effect_handleJoin conn peer
    | leave => exact effect_handleLeave conn
    | offer | answer | ice | relay => exact effect_forward _ _ _ fun _ _ => rfl
  | close conn => exact effect_handleLeave conn
  | allowJoin | allowSignal | allowMany | revokePeer => exact .quiet (by simp)

omit [DecidableEq C] in
theorem sender_broadcast {exclude : PeerId} {message : ServerMessage V}
    (hmessage : message.sender? = none) :
    ∀ s ∈ room.broadcastExcept exclude message, s.2.sender? = none := by
  intro s hs
  obtain ⟨e, -, rfl⟩ := mem_map.1 hs
  exact hmessage

theorem sender_handleJoin (conn : C) (peer : PeerId) :
    ∀ s ∈ (room.handleJoin (V := V) conn peer).2, s.2.sender? = none := by
  unfold handleJoin permissionDenied
  split
  · simp [sender?]
  · split
    · simp [sender?]
    · split
      · simp [sender?]
      · exact forall_mem_cons.2 ⟨rfl, sender_broadcast rfl⟩

theorem sender_handleLeave (conn : C) :
    ∀ s ∈ (room.handleLeave (V := V) conn).2, s.2.sender? = none := by
  unfold handleLeave
  split
  · simp
  · exact sender_broadcast rfl

variable {conn : C} {s : C × ServerMessage V} {sender : PeerId}

theorem sender_forward {kind : DirectedKind} {dest : PeerId}
    (hbuild : ∀ sender, (build sender).sender? = some sender)
    (hs : s ∈ (room.forward conn kind dest build).2)
    (hsender : s.2.sender? = some sender) : room.byConn.lookup conn = some sender ∧
      room.byPeer.lookup dest = some s.1 ∧ s.2 = build sender := by
  rcases forward_cases room conn kind dest build with
    ⟨code, message, heq⟩ | ⟨sender', target, hconn, hdest, heq⟩
  · rw [heq, mem_singleton] at hs
    rw [hs] at hsender
    cases hsender
  · rw [heq, mem_singleton] at hs
    rw [hs, hbuild, Option.some_inj] at hsender
    rw [hs, ← hsender]
    exact ⟨hconn, hdest, rfl⟩

/-- A frame that names a sender was sent by the connection joined as it, and goes to the one joined
as the peer it is addressed to. -/
theorem forwarded_call {call : Call C V} (hs : s ∈ (room.call call).2)
    (hsender : s.2.sender? = some sender) :
    ∃ conn message dest build, call = .message conn message ∧
      message.directed? = some (dest, build) ∧ room.byConn.lookup conn = some sender ∧
      room.byPeer.lookup dest = some s.1 ∧ s.2 = build sender := by
  cases call with
  | message conn message =>
    cases message with
    | join peer =>
      rw [sender_handleJoin conn peer s hs] at hsender
      cases hsender
    | leave =>
      rw [sender_handleLeave conn s hs] at hsender
      cases hsender
    | offer | answer | ice | relay =>
      exact ⟨conn, _, _, _, rfl, rfl, sender_forward (fun _ => rfl) hs hsender⟩
  | close conn =>
    rw [sender_handleLeave conn s hs] at hsender
    cases hsender
  | allowJoin | allowSignal | allowMany | revokePeer => cases hs

/-! ## The maps stay inverse -/

variable {conn : C} {peer : PeerId}

theorem Inverse.added (hinv : room.Inverse) (hconn : room.byConn.lookup conn = none)
    (hpeer : room.byPeer.lookup peer = none) : (room.added conn peer).Inverse := by
  intro p c
  simp only [RoomCore.added, lookup_insert_if]
  by_cases hp : p = peer <;> by_cases hc : c = conn
  · simp [hp, hc]
  · rw [if_pos hp, if_neg hc, hp, ← hinv, hpeer]
    simp [Ne.symm hc]
  · rw [if_neg hp, if_pos hc, hc, hinv, hconn]
    simp [Ne.symm hp]
  · rw [if_neg hp, if_neg hc]
    exact hinv p c

theorem Inverse.removed (hinv : room.Inverse) (hconn : room.byConn.lookup conn = some peer) :
    (room.removed conn peer).Inverse := by
  have hpeer := (hinv peer conn).2 hconn
  intro p c
  simp only [RoomCore.removed, lookup_erase_if]
  by_cases hp : p = peer <;> by_cases hc : c = conn
  · simp [hp, hc]
  · rw [if_pos hp, if_neg hc, ← hinv, hp, hpeer]
    simp [Ne.symm hc]
  · rw [if_neg hp, if_pos hc, hinv, hc, hconn]
    simp [Ne.symm hp]
  · rw [if_neg hp, if_neg hc]
    exact hinv p c

theorem others_added (hne : p ≠ peer) :
    (room.added conn peer).others p = insert peer (room.others p) := by
  ext q
  rw [Finset.mem_insert, mem_others, mem_others, added, lookup_insert_if]
  by_cases hq : q = peer
  · simp [hq, Ne.symm hne]
  · simp [hq]

theorem others_removed : (room.removed conn peer).others p = (room.others p).erase peer := by
  ext q
  rw [Finset.mem_erase, mem_others, mem_others, removed, lookup_erase_if]
  by_cases hq : q = peer <;> simp [hq]

end RoomCore

namespace Session

/-- The maps are inverse, and each joined connection has the roster without itself. -/
structure Agreed (s : Session C V) : Prop where
  inverse : s.room.Inverse
  views : ∀ conn peer, s.room.byConn.lookup conn = some peer →
    s.view conn = some ⟨peer, s.room.others peer⟩

theorem view_append (s : Session C V) (room : RoomCore C) (sends : Sends C V) (conn : C) :
    view ⟨room, s.sent ++ sends⟩ conn = (heard sends conn).foldl hear (s.view conn) := by
  rw [view, heard_append, foldl_append]
  rfl

variable {s : Session C V} {conn : C} {peer : PeerId}

theorem Agreed.quiet (ha : s.Agreed) {permissions : SignalingPermissions} {sends : Sends C V}
    (h : ∀ s ∈ sends, ∀ view, hear view s.2 = view) :
    Agreed ⟨{ s.room with permissions := permissions }, s.sent ++ sends⟩ := by
  refine ⟨ha.inverse, fun conn peer hconn => ?_⟩
  rw [view_append]
  have hsame : ∀ messages : List (ServerMessage V), (∀ m ∈ messages, ∀ view, hear view m = view) →
      ∀ view, messages.foldl hear view = view := by
    intro messages
    induction messages with
    | nil => exact fun _ _ => rfl
    | cons m messages ih =>
      intro hall view
      rw [foldl_cons, hall m mem_cons_self]
      exact ih (fun m' hm' => hall m' (mem_cons_of_mem _ hm')) view
  rw [hsame _ fun m hm => ?_]
  · exact ha.views conn peer hconn
  · obtain ⟨s', hs', rfl⟩ := mem_map.1 hm
    exact h s' (mem_of_mem_filter hs')

theorem Agreed.joined (ha : s.Agreed) (hconn : s.room.byConn.lookup conn = none)
    (hpeer : s.room.byPeer.lookup peer = none) : Agreed ⟨s.room.added conn peer, s.sent ++
      (conn, .welcome peer ((s.room.added conn peer).roster.filter (· ≠ peer))) ::
        (s.room.added conn peer).broadcastExcept peer (.peerJoined peer)⟩ := by
  have hinv := ha.inverse.added hconn hpeer
  refine ⟨hinv, fun c p hc => ?_⟩
  rw [view_append, heard_cons, heard_broadcast hinv, hc]
  have hc' := hc
  simp only [added, lookup_insert_if] at hc'
  by_cases hcc : c = conn
  · -- the newcomer: its welcome, and not the announcement
    rw [if_pos hcc, Option.some_inj] at hc'
    simp only [hcc, hc', if_true, foldl_cons, hear]
    rfl
  · rw [if_neg hcc] at hc'
    have hne : p ≠ peer := by
      intro heq
      rw [heq, ← ha.inverse, hpeer] at hc'
      cases hc'
    simp only [if_neg (Ne.symm hcc), hne, if_false, foldl_cons, foldl_nil, hear,
      ha.views c p hc', Option.map_some, others_added hne]

theorem Agreed.left (ha : s.Agreed) (hconn : s.room.byConn.lookup conn = some peer) :
    Agreed ⟨s.room.removed conn peer,
      s.sent ++ (s.room.removed conn peer).broadcastExcept peer (.peerLeft peer)⟩ := by
  have hinv := ha.inverse.removed hconn
  refine ⟨hinv, fun c p hc => ?_⟩
  rw [view_append, heard_broadcast hinv, hc]
  have hp : p ≠ peer := by
    intro heq
    rw [heq, ← hinv] at hc
    simp only [removed, lookup_erase_if] at hc
    cases hc
  have hc' : s.room.byConn.lookup c = some p := by
    simp only [removed, lookup_erase_if] at hc
    split at hc
    · cases hc
    · exact hc
  simp only [hp, if_false, foldl_cons, foldl_nil, hear, ha.views c p hc',
    Option.map_some, others_removed]

theorem Agreed.step (ha : s.Agreed) (call : Call C V) : (s.step call).Agreed := by
  have heffect := effect_call s.room call
  unfold Session.step
  generalize s.room.call call = result at heffect
  cases heffect with
  | quiet h => exact ha.quiet h
  | joined hconn hpeer => exact ha.joined hconn hpeer
  | left hconn => exact ha.left hconn

theorem agreed_run (permissions : SignalingPermissions) (calls : List (Call C V)) :
    ((start permissions).run calls).Agreed :=
  foldl_invariant (I := Agreed)
    ⟨fun _ _ => by simp [start, new], fun _ _ h => by simp [start, new] at h⟩
    fun _ call ha => ha.step call

/-- **Roster agreement.** After every run of calls the maps are inverse, each joined connection has
made of its messages the roster without itself, and whatever the next call forwards names the id its
connection joined under and goes to the connection registered under the id it is addressed to. -/
theorem roster_agreement (permissions : SignalingPermissions) (calls : List (Call C V)) :
    let s := (start permissions).run calls
    s.room.Inverse ∧
    (∀ conn peer, s.room.byConn.lookup conn = some peer →
      s.view conn = some ⟨peer, (s.room.roster.filter (· ≠ peer)).toFinset⟩) ∧
    ∀ call : Call C V, ∀ sent ∈ (s.room.call call).2, ∀ sender, sent.2.sender? = some sender →
      ∃ conn message dest build, call = .message conn message ∧
        message.directed? = some (dest, build) ∧ s.room.byConn.lookup conn = some sender ∧
        (s.view conn).map View.self = some sender ∧
        s.room.byPeer.lookup dest = some sent.1 ∧ sent.2 = build sender := by
  have ha := agreed_run permissions calls
  refine ⟨ha.inverse, ha.views, fun call sent hsent sender hsender => ?_⟩
  obtain ⟨conn, message, dest, build, hcall, hdirected, hconn, hdest, hframe⟩ :=
    forwarded_call hsent hsender
  refine ⟨conn, message, dest, build, hcall, hdirected, hconn, ?_, hdest, hframe⟩
  rw [ha.views conn sender hconn]
  rfl

end Session

end Lazily.Signaling
