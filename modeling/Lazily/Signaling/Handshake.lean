import Mathlib.Tactic.Common

/-!
# The WebRTC handshake over the relay (`webrtc_signaling.rs`)

The offerer sends its offer and its candidate to a peer, the answerer waits for an offer and answers
it; both then pump the frames of the relay into the backend until the data channel opens.

A loop iteration is a round: whether the channel is open by then, whether the deadline has passed,
and what the receive returned. What the backend and the sockets do is a parameter (`Backend`). With
each command the model keeps the peer whose frame it came in, which no function reads.
-/

namespace Lazily.Handshake

abbrev PeerId := Nat

/-- A decoded message of the relay. The payload of a relayed frame is read by the decoder only. -/
inductive ServerMessage where
  | welcome (peer : PeerId) (peers : List PeerId)
  | peerJoined (peer : PeerId)
  | peerLeft (peer : PeerId)
  | offer (sender : PeerId) (sdp : String)
  | answer (sender : PeerId) (sdp : String)
  | ice (sender : PeerId) (candidate : String)
  | relay (sender : PeerId)
  | error (code message : String)
  deriving DecidableEq, Repr

inductive ClientMessage where
  | offer (dest : PeerId) (sdp : String)
  | answer (dest : PeerId) (sdp : String)
  | ice (dest : PeerId) (candidate : String)
  deriving DecidableEq, Repr

inductive Str0mNetError where
  | io (error : String) | rtc (error : String) | sdp (error : String) | closed | backpressure
  | notOfferer
  deriving DecidableEq, Repr

inductive WebrtcSignalingError where
  | signaling (error : String)
  | str0mNet (error : Str0mNetError)
  | closed
  | timeout
  | server (code message : String)
  deriving DecidableEq, Repr

/-- What the driver thread is told. -/
inductive DriverCmd where
  | acceptAnswer (sdp : String)
  | addRemoteCandidate (candidate : String)
  deriving DecidableEq, Repr

/-- The str0m backend and the signaling socket. -/
structure Backend where
  /-- `Str0mNet::offer`: the SDP of the offer. -/
  offer : Except Str0mNetError String
  /-- `Str0mNet::answer`: the SDP of the answer to an offer. -/
  answer : String → Except Str0mNetError String
  localCandidate : String
  parseAnswer : String → Except String Unit
  parseCandidate : String → Except String Unit
  /-- The error of each send of a client message. -/
  sendFails : Nat → Option String

/-- What `SignalingClient::recv` returned. It fails on the socket, and on a frame that does not
decode, whose sender the model keeps: the relay forwards whatever a member sent. -/
inductive Received where
  | frame (message : ServerMessage)
  | failed (sender : Option PeerId) (error : String)
  | closed
  | elapsed
  deriving DecidableEq, Repr

/-- One iteration: whether the channel is open after the commands given so far, and whether the
driver thread is gone. -/
structure Round where
  opened : List DriverCmd → Bool
  expired : Bool
  received : Received
  driverGone : Bool

inductive Outcome where
  | running
  | done
  | failed (error : WebrtcSignalingError)
  deriving DecidableEq, Repr

/-- A handshake under way. `peer` is the one it is with, once there is one. -/
structure State where
  isOfferer : Bool
  peer : Option PeerId
  earlyCandidates : List (Option PeerId × String)
  applied : List (Option PeerId × DriverCmd)
  sent : List ClientMessage
  outcome : Outcome
  deriving DecidableEq, Repr

/-! ## Frames -/

inductive HandshakeFrame where
  | offer (sender : PeerId) (sdp : String)
  | answer (sdp : String)
  | ice (candidate : String)
  | ignored
  deriving DecidableEq, Repr

def classifyHandshakeFrame : ServerMessage → Except WebrtcSignalingError HandshakeFrame
  | .offer sender sdp => .ok (.offer sender sdp)
  | .answer _ sdp => .ok (.answer sdp)
  | .ice _ candidate => .ok (.ice candidate)
  | .error code message => .error (.server code message)
  | .welcome _ _ | .peerJoined _ | .peerLeft _ | .relay _ => .ok .ignored

/-- The member of the room a frame comes from. -/
def ServerMessage.sender? : ServerMessage → Option PeerId
  | .offer sender _ | .answer sender _ | .ice sender _ | .relay sender => some sender
  | .welcome _ _ | .peerJoined _ | .peerLeft _ | .error _ _ => none

def Received.sender? : Received → Option PeerId
  | .frame message => message.sender?
  | .failed sender _ => sender
  | .closed | .elapsed => none

namespace State

def fail (s : State) (error : WebrtcSignalingError) : State := { s with outcome := .failed error }

def command (s : State) (gone : Bool) (sender : Option PeerId) (cmd : DriverCmd) : State :=
  if gone then s.fail (.str0mNet .closed) else { s with applied := s.applied ++ [(sender, cmd)] }

variable (env : Backend) (gone : Bool) (s : State)

def acceptAnswer (sender : Option PeerId) (sdp : String) : State :=
  if !s.isOfferer then s.fail (.str0mNet .notOfferer)
  else
    match env.parseAnswer sdp with
    | .error e => s.fail (.str0mNet (.sdp e))
    | .ok () => s.command gone sender (.acceptAnswer sdp)

def addRemoteCandidate (sender : Option PeerId) (candidate : String) : State :=
  match env.parseCandidate candidate with
  | .error e => s.fail (.str0mNet (.sdp e))
  | .ok () => s.command gone sender (.addRemoteCandidate candidate)

def applyHandshakeFrame (message : ServerMessage) : State :=
  match classifyHandshakeFrame message with
  | .error e => s.fail e
  | .ok (.answer sdp) => s.acceptAnswer env gone message.sender? sdp
  | .ok (.ice candidate) => s.addRemoteCandidate env gone message.sender? candidate
  | .ok (.offer _ _) | .ok .ignored => s

/-! ## The loops -/

/-- An iteration of `pump_until_open`. -/
def pump (r : Round) : State :=
  if r.opened (s.applied.map (·.2)) then { s with outcome := .done }
  else if r.expired then s.fail .timeout
  else
    match r.received with
    | .frame message => s.applyHandshakeFrame env r.driverGone message
    | .failed _ e => s.fail (.signaling e)
    | .closed => s.fail .closed
    | .elapsed => s

def send (message : ClientMessage) : State :=
  match s.outcome with
  | .running =>
    match env.sendFails s.sent.length with
    | some e => s.fail (.signaling e)
    | none => { s with sent := s.sent ++ [message] }
  | .done | .failed _ => s

/-- Apply a buffered candidate, unless the handshake has failed. -/
def applyEarly (early : Option PeerId × String) : State :=
  match s.outcome with
  | .running => s.addRemoteCandidate env gone early.1 early.2
  | .done | .failed _ => s

/-- Answer the offer of a peer, then apply the candidates that came before it. -/
def acceptOffer (peer : PeerId) (sdp : String) : State :=
  let s := { s with peer := some peer }
  match env.answer sdp with
  | .error e => s.fail (.str0mNet e)
  | .ok answer =>
    let s := (s.send env (.answer peer answer)).send env (.ice peer env.localCandidate)
    s.earlyCandidates.foldl (.applyEarly env gone) s

/-- An iteration of the wait for an offer; the receive waits until the deadline. -/
def awaitOffer (r : Round) : State :=
  if r.expired then s.fail .timeout
  else
    match r.received with
    | .frame message =>
      match classifyHandshakeFrame message with
      | .error e => s.fail e
      | .ok (.offer sender sdp) => s.acceptOffer env r.driverGone sender sdp
      | .ok (.ice candidate) =>
        { s with earlyCandidates := s.earlyCandidates ++ [(message.sender?, candidate)] }
      | .ok (.answer _) | .ok .ignored => s
    | .failed _ e => s.fail (.signaling e)
    | .closed => s.fail .closed
    | .elapsed => s.fail .timeout

def step (r : Round) : State :=
  match s.outcome, s.peer with
  | .running, none => s.awaitOffer env r
  | .running, some _ => s.pump env r
  | .done, _ | .failed _, _ => s

def run (rounds : List Round) : State := rounds.foldl (step env) s

end State

/-! ## The two sides -/

inductive Role where
  | offerer (peer : PeerId)
  | answerer
  deriving DecidableEq, Repr

/-- `offer_to_peer` up to its loop. -/
def offerToPeer (env : Backend) (peer : PeerId) : State :=
  let s : State := ⟨true, some peer, [], [], [], .running⟩
  match env.offer with
  | .error e => s.fail (.str0mNet e)
  | .ok sdp => (s.send env (.offer peer sdp)).send env (.ice peer env.localCandidate)

/-- `answer_next_offer` up to its first loop. -/
def answerNextOffer : State := ⟨false, none, [], [], [], .running⟩

def Role.start (env : Backend) : Role → State
  | .offerer peer => offerToPeer env peer
  | .answerer => answerNextOffer

end Lazily.Handshake
