import Lazily.Signaling.Handshake
import Lazily.Lib.Reach

/-!
# Which peer a handshake is with

The handshake loops drop the sender of answers and candidates, so any member of the room can have
its candidate applied or fail the handshake with an answer (`other_member_joins_handshake`), or with
a frame that does not decode. Where what comes in is of the peer the handshake is with, everything
applied is its, and the frames of the others might as well have been announcements (`bound_run`). A
handshake runs beside the one in which the others are muted (`Tied`), step by step.
-/

namespace Lazily.Handshake

open Lib List Option

/-! ## The frames of others -/

/-- The round with the frame of another member taken for an announcement. -/
def Round.mute (peer : PeerId) (r : Round) : Round :=
  match r.received.sender? with
  | some sender => if sender = peer then r else { r with received := .frame (.peerJoined sender) }
  | none => r

/-- What was applied came from the peer, and the frames of others have changed nothing. -/
structure BoundTo (env : Backend) (start : State) (rounds : List Round) (peer : PeerId) :
    Prop where
  applied : ∀ a ∈ (start.run env rounds).applied, a.1 = some peer
  unchanged : start.run env (rounds.map (Round.mute peer)) = start.run env rounds

/-- The offerer is bound to the peer it offers to, the answerer to the one whose offer it took. -/
def Bound (env : Backend) (rounds : List Round) : Role → Prop
  | .offerer peer => BoundTo env (offerToPeer env peer) rounds peer
  | .answerer => ∀ peer, (answerNextOffer.run env rounds).peer = some peer →
    BoundTo env answerNextOffer rounds peer

/-- Answers, candidates and frames that do not decode are of the peer; when an offer is taken, the
candidates that came before it are of its sender, and every frame of a member has decoded. -/
def Own (s : State) (r : Round) : Prop :=
  s.outcome = .running →
    match s.peer, r.received with
    | some peer, .frame (.answer sender _) | some peer, .frame (.ice sender _)
    | some peer, .failed (some sender) _ => sender = peer
    | none, .frame (.offer sender _) => ∀ c ∈ s.earlyCandidates, c.1 = some sender
    | none, .failed (some _) _ => False
    | _, _ => True

/-! ## What a step applies -/

namespace State

variable {env : Backend} {s : State} {r : Round} {peer : PeerId}

def AppliedFrom (peer : PeerId) (s : State) : Prop := ∀ a ∈ s.applied, a.1 = some peer

section

variable (h : s.AppliedFrom peer)
include h

theorem AppliedFrom.command (gone : Bool) (cmd : DriverCmd) :
    (s.command gone (some peer) cmd).AppliedFrom peer := by
  unfold State.command
  split
  · exact h
  · intro a ha
    rcases mem_append.1 ha with ha | ha
    · exact h a ha
    · rw [mem_singleton.1 ha]

theorem AppliedFrom.addRemoteCandidate (gone : Bool) (candidate : String) :
    (s.addRemoteCandidate env gone (some peer) candidate).AppliedFrom peer := by
  unfold State.addRemoteCandidate
  split
  · exact h
  · exact h.command gone _

theorem AppliedFrom.acceptAnswer (gone : Bool) (sdp : String) :
    (s.acceptAnswer env gone (some peer) sdp).AppliedFrom peer := by
  unfold State.acceptAnswer
  split
  · exact h
  · split
    · exact h
    · exact h.command gone _

theorem AppliedFrom.pump (hpeer : s.peer = some peer)
    (hrun : s.outcome = .running) (hown : Own s r) : (s.pump env r).AppliedFrom peer := by
  unfold State.pump
  split
  · exact h
  · split
    · exact h
    · split
      · rename_i message hreceived
        have hsender := hown hrun
        rw [hpeer, hreceived] at hsender
        unfold applyHandshakeFrame
        cases message with
        | answer sender sdp => exact hsender ▸ h.acceptAnswer r.driverGone sdp
        | ice sender candidate => exact hsender ▸ h.addRemoteCandidate r.driverGone candidate
        | welcome | peerJoined | peerLeft | offer | relay | error => exact h
      all_goals exact h

end

section

variable (message : ClientMessage)

@[simp] theorem send_applied : (s.send env message).applied = s.applied := by
  unfold send
  split
  · split <;> rfl
  all_goals rfl

@[simp] theorem send_peer : (s.send env message).peer = s.peer := by
  unfold send
  split
  · split <;> rfl
  all_goals rfl

@[simp] theorem send_earlyCandidates :
    (s.send env message).earlyCandidates = s.earlyCandidates := by
  unfold send
  split
  · split <;> rfl
  all_goals rfl

end

variable (gone : Bool)

theorem command_peer (sender : Option PeerId) (cmd : DriverCmd) :
    (s.command gone sender cmd).peer = s.peer := by
  unfold command
  split <;> rfl

theorem addRemoteCandidate_peer (sender : Option PeerId) (candidate : String) :
    (s.addRemoteCandidate env gone sender candidate).peer = s.peer := by
  unfold addRemoteCandidate
  split
  · rfl
  · exact command_peer ..

theorem pump_peer : (s.pump env r).peer = s.peer := by
  unfold pump
  split
  · rfl
  · split
    · rfl
    · split
      · unfold applyHandshakeFrame
        split
        · rfl
        · unfold acceptAnswer
          split
          · rfl
          · split
            · rfl
            · exact command_peer ..
        · exact addRemoteCandidate_peer ..
        all_goals rfl
      all_goals rfl

theorem applyEarly_spec (env : Backend) {early : Option PeerId × String}
    (hearly : early.1 = some peer) (hpeer : s.peer = some peer) (h : s.AppliedFrom peer) :
    (s.applyEarly env gone early).peer = some peer ∧
      (s.applyEarly env gone early).AppliedFrom peer := by
  unfold applyEarly
  split
  · rw [addRemoteCandidate_peer, hearly]
    exact ⟨hpeer, h.addRemoteCandidate gone early.2⟩
  all_goals exact ⟨hpeer, h⟩

/-- The peer is the one whose offer was taken, and the candidates that came before are applied as
its. -/
theorem acceptOffer_spec (env : Backend) (sdp : String) (happlied : s.applied = [])
    (hearly : ∀ c ∈ s.earlyCandidates, c.1 = some peer) :
    (s.acceptOffer env gone peer sdp).peer = some peer ∧
      (s.acceptOffer env gone peer sdp).AppliedFrom peer := by
  -- along the buffered candidates
  have hfold : ∀ (early : List (Option PeerId × String)) (s : State),
      (∀ c ∈ early, c.1 = some peer) → s.peer = some peer → s.AppliedFrom peer →
      (early.foldl (.applyEarly env gone) s).peer = some peer ∧
        (early.foldl (.applyEarly env gone) s).AppliedFrom peer := by
    intro early
    induction early with
    | nil => exact fun s _ hpeer h => ⟨hpeer, h⟩
    | cons c early ih =>
      intro s hearly hpeer h
      rw [forall_mem_cons] at hearly
      obtain ⟨hpeer', h'⟩ := applyEarly_spec gone env hearly.1 hpeer h
      exact ih _ hearly.2 hpeer' h'
  unfold acceptOffer
  simp only
  split
  · refine ⟨rfl, fun a ha => ?_⟩
    rw [fail, happlied] at ha
    cases ha
  · refine hfold _ _ (by simpa using hearly) (by simp) fun a ha => ?_
    simp [happlied] at ha

end State

/-! ## Muted rounds -/

/-- The handshake without the candidates that others sent early. -/
def State.only (s : State) (peer : PeerId) : State :=
  { s with earlyCandidates := s.earlyCandidates.filter (·.1 = some peer) }

/-- A handshake beside one with the frames of all but one peer muted: equal once it is with that
peer; before, the muted one lacks what others sent early. -/
structure Tied (s : State) (t : PeerId → State) : Prop where
  bound : ∀ peer, s.peer = some peer → s.AppliedFrom peer ∧ t peer = s
  free : s.peer = none → s.applied = [] ∧ ∀ peer, t peer = s.only peer

variable {env : Backend} {s : State} {t : PeerId → State} {r : Round} {peer : PeerId}

theorem mute_cases (peer : PeerId) (r : Round) : r.mute peer = r ∨
    ∃ sender, r.received.sender? = some sender ∧ sender ≠ peer ∧
      r.mute peer = { r with received := .frame (.peerJoined sender) } := by
  unfold Round.mute
  split
  · rename_i sender hsender
    split
    · exact .inl rfl
    · exact .inr ⟨sender, hsender, ‹_›, rfl⟩
  · exact .inl rfl

/-- A frame of another peer that decodes and is no answer and no candidate does nothing to a
handshake. -/
theorem pump_mute (hpeer : s.peer = some peer) (hrun : s.outcome = .running) (hown : Own s r) :
    s.pump env (r.mute peer) = s.pump env r := by
  rcases mute_cases peer r with heq | ⟨sender, hsender, hne, heq⟩
  · rw [heq]
  · have hframe := hown hrun
    rw [hpeer] at hframe
    rw [heq]
    unfold State.pump
    cases hreceived : r.received with
    | closed | elapsed => simp [hreceived, Received.sender?] at hsender
    | failed sender' error =>
      rw [hreceived] at hsender hframe
      obtain rfl : sender' = some sender := hsender
      exact absurd hframe hne
    | frame message =>
      rw [hreceived] at hsender hframe
      cases message with
      | answer sender' | ice sender' =>
        obtain rfl : sender' = sender := some_inj.1 hsender
        exact absurd hframe hne
      | welcome | peerJoined | peerLeft | offer | relay => rfl
      | error => cases hsender

theorem Tied.pump (ht : Tied s t) (hpeer : s.peer = some peer) (hrun : s.outcome = .running)
    (hown : Own s r) : Tied (s.step env r) fun peer => (t peer).step env (r.mute peer) := by
  obtain ⟨happlied, heq⟩ := ht.bound peer hpeer
  have hstep : ∀ r, s.step env r = s.pump env r := by
    intro r
    simp only [State.step, hrun, hpeer]
  rw [hstep]
  constructor
  · intro peer' hpeer'
    rw [State.pump_peer, hpeer, some_inj] at hpeer'
    subst hpeer'
    refine ⟨happlied.pump hpeer hrun hown, ?_⟩
    show (t peer).step env (r.mute peer) = _
    rw [heq, hstep, pump_mute hpeer hrun hown]
  · intro hnone
    rw [State.pump_peer, hpeer] at hnone
    cases hnone

theorem tied_free (hpeer : s.peer = none) (happlied : s.applied = [])
    (ht : ∀ peer, t peer = s.only peer) : Tied s t := by
  refine ⟨fun peer h => ?_, fun _ => ⟨happlied, ht⟩⟩
  rw [hpeer] at h
  cases h

@[simp] theorem mute_expired : (r.mute peer).expired = r.expired := by
  rcases mute_cases peer r with heq | ⟨_, -, -, heq⟩ <;> rw [heq]

theorem mute_received (h : r.received.sender? = none) : r.mute peer = r := by
  rw [Round.mute, h]

theorem Tied.await (ht : Tied s t) (hpeer : s.peer = none) (hrun : s.outcome = .running)
    (hown : Own s r) : Tied (s.step env r) fun peer => (t peer).step env (r.mute peer) := by
  obtain ⟨happlied, heq⟩ := ht.free hpeer
  have hself : s.step env r = s.awaitOffer env r := by
    simp only [State.step, hrun, hpeer]
  have honly : ∀ peer r, (s.only peer).step env r = (s.only peer).awaitOffer env r := by
    intro peer r
    simp only [State.step, State.only, hrun, hpeer]
  simp only [heq, honly, hself]
  unfold State.awaitOffer
  by_cases hexpired : r.expired = true
  · simp only [mute_expired, hexpired]
    exact tied_free hpeer happlied fun peer => rfl
  simp only [mute_expired, hexpired, Bool.false_eq_true, if_false]
  cases hreceived : r.received with
  | failed sender error =>
    have hsocket : sender = none := by
      have h := hown hrun
      rw [hpeer, hreceived] at h
      cases sender with
      | none => rfl
      | some sender => exact h.elim
    have hmute : ∀ peer, r.mute peer = r := fun peer =>
      mute_received (by rw [hreceived]; exact hsocket)
    simp only [hmute, hreceived]
    exact tied_free hpeer happlied fun peer => rfl
  | closed | elapsed =>
    have hmute : ∀ peer, r.mute peer = r := fun peer =>
      mute_received (by rw [hreceived]; rfl)
    simp only [hmute, hreceived]
    exact tied_free hpeer happlied fun peer => rfl
  | frame message =>
    cases message with
    | welcome | peerJoined | peerLeft | error =>
      have hmute : ∀ peer, r.mute peer = r := fun peer =>
        mute_received (by rw [hreceived]; rfl)
      simp only [hmute, hreceived]
      exact tied_free hpeer happlied fun peer => rfl
    | answer | relay =>
      simp only [classifyHandshakeFrame]
      refine tied_free hpeer happlied fun peer => ?_
      rcases mute_cases peer r with hmute | ⟨_, -, -, hmute⟩
      · simp only [hmute, hreceived]
      · simp only [hmute]
    | ice sender candidate =>
      simp only [classifyHandshakeFrame, ServerMessage.sender?]
      refine tied_free hpeer happlied fun peer => ?_
      by_cases hsender : sender = peer
      · have hmute : r.mute peer = r := by
          simp [Round.mute, hreceived, Received.sender?, ServerMessage.sender?, hsender]
        simp [hmute, hreceived, State.only, hsender]
      · have hmute : r.mute peer = { r with received := .frame (.peerJoined sender) } := by
          simp [Round.mute, hreceived, Received.sender?, ServerMessage.sender?, hsender]
        simp [hmute, State.only, hsender]
    | offer sender sdp =>
      have hearly : ∀ c ∈ s.earlyCandidates, c.1 = some sender := by
        have h := hown hrun
        rw [hpeer, hreceived] at h
        exact h
      obtain ⟨hpeer', happlied'⟩ := State.acceptOffer_spec r.driverGone env sdp happlied hearly
      simp only [classifyHandshakeFrame]
      constructor
      · intro peer hp
        rw [hpeer', some_inj] at hp
        subst hp
        have hmute : r.mute sender = r := by
          simp [Round.mute, hreceived, Received.sender?, ServerMessage.sender?]
        have hsame : s.only sender = s := by
          have hfilter : s.earlyCandidates.filter (·.1 = some sender) = s.earlyCandidates :=
            filter_eq_self.2 fun c hc => decide_eq_true (hearly c hc)
          rw [State.only, hfilter]
        refine ⟨happlied', ?_⟩
        simp only [hmute, hreceived, hsame]
      · intro hnone
        rw [hpeer'] at hnone
        cases hnone

theorem Tied.step (ht : Tied s t) (hown : Own s r) :
    Tied (s.step env r) fun peer => (t peer).step env (r.mute peer) := by
  cases hrun : s.outcome with
  | running =>
    cases hpeer : s.peer with
    | none => exact ht.await hpeer hrun hown
    | some peer => exact ht.pump hpeer hrun hown
  | done | failed =>
    have hstop : ∀ s' : State, s'.outcome = s.outcome → ∀ r, s'.step env r = s' := by
      intro s' h r
      simp only [State.step, h, hrun]
    rw [hstop s rfl]
    constructor
    · intro peer hpeer
      obtain ⟨happlied, heq⟩ := ht.bound peer hpeer
      refine ⟨happlied, ?_⟩
      show (t peer).step env (r.mute peer) = _
      rw [heq, hstop s rfl]
    · intro hpeer
      obtain ⟨happlied, heq⟩ := ht.free hpeer
      refine ⟨happlied, fun peer => ?_⟩
      show (t peer).step env (r.mute peer) = _
      rw [heq, hstop (s.only peer) rfl]

theorem tied_run (rounds : List Round) : ∀ s t, Tied s t → Allowed (State.step env) Own s rounds →
      Tied (s.run env rounds) fun peer => (t peer).run env (rounds.map (Round.mute peer)) := by
  induction rounds with
  | nil => exact fun _ _ ht _ => ht
  | cons r rounds ih => exact fun s t ht hok => ih _ _ (ht.step hok.1) hok.2

theorem run_peer (rounds : List Round) (hpeer : s.peer = some peer) :
    (s.run env rounds).peer = some peer := by
  refine foldl_invariant (I := fun s : State => s.peer = some peer) hpeer fun s r h => ?_
  unfold State.step
  split
  · rename_i hnone
    rw [h] at hnone
    cases hnone
  · rw [State.pump_peer, h]
  all_goals exact h

theorem offerToPeer_spec (env : Backend) (peer : PeerId) :
    (offerToPeer env peer).peer = some peer ∧ (offerToPeer env peer).applied = [] := by
  unfold offerToPeer
  simp only
  split
  · exact ⟨rfl, rfl⟩
  · simp

/-- **Peer binding**, for every run of either side in which the answers, the candidates and the
frames that do not decode are of the peer the handshake is with. -/
theorem bound_run (env : Backend) (role : Role) (rounds : List Round)
    (hok : Allowed (State.step env) Own (role.start env) rounds) : Bound env rounds role := by
  cases role with
  | offerer peer =>
    obtain ⟨hpeer, happlied⟩ := offerToPeer_spec env peer
    have hstart : Tied (offerToPeer env peer) fun _ => offerToPeer env peer := by
      refine ⟨fun _ _ => ⟨fun a ha => ?_, rfl⟩, fun hnone => ?_⟩
      · rw [happlied] at ha
        cases ha
      · rw [hpeer] at hnone
        cases hnone
    obtain ⟨hfrom, heq⟩ := (tied_run rounds _ _ hstart hok).bound peer (run_peer rounds hpeer)
    exact ⟨hfrom, heq⟩
  | answerer =>
    have hstart : Tied answerNextOffer fun _ => answerNextOffer := tied_free rfl rfl fun _ => rfl
    intro peer hpeer
    obtain ⟨hfrom, heq⟩ := (tied_run rounds _ _ hstart hok).bound peer hpeer
    exact ⟨hfrom, heq⟩

def lenient : Backend where
  offer := .ok "offer"
  answer := fun _ => .ok "answer"
  localCandidate := "local"
  parseAnswer := fun _ => .ok ()
  parseCandidate := fun _ => .ok ()
  sendFails := fun _ => none

/-- A round in which something comes in; the channel is not open. -/
def receives (received : Received) : Round := ⟨fun _ => false, false, received, false⟩

def hears (message : ServerMessage) : Round := receives (.frame message)

/-- An answerer that hears a candidate of peer 2 before its offer, and another member's offer
after. -/
theorem bound_run_answerer :
    let rounds := [hears (.ice 2 "early"), hears (.offer 2 "sdp"), hears (.offer 3 "late"),
      hears (.ice 2 "trickled")]
    (answerNextOffer.run lenient rounds).peer = some 2 ∧
      (answerNextOffer.run lenient rounds).applied =
        [(some 2, .addRemoteCandidate "early"), (some 2, .addRemoteCandidate "trickled")] ∧
      Bound lenient rounds .answerer := by
  intro rounds
  refine ⟨by decide +kernel, by decide +kernel, bound_run lenient .answerer rounds ?_⟩
  exact ⟨fun _ => trivial, fun _ => forall_mem_singleton.2 rfl, fun _ => trivial, fun _ => rfl,
    trivial⟩

/-- Peer 3 has its candidate and its answer applied in a handshake with peer 2, has an early
candidate applied by an answerer that takes the offer of 2, and fails one with an answer and one
with a frame that does not decode. -/
theorem other_member_joins_handshake :
    let offered := (offerToPeer lenient 2).run lenient [hears (.ice 3 "c"), hears (.answer 3 "sdp")]
    let early := [hears (.ice 3 "c"), hears (.offer 2 "sdp")]
    let failed := answerNextOffer.run lenient [hears (.offer 2 "sdp"), hears (.answer 3 "sdp")]
    offered.applied = [(some 3, .addRemoteCandidate "c"), (some 3, .acceptAnswer "sdp")] ∧
      (answerNextOffer.run lenient early).peer = some 2 ∧
      (answerNextOffer.run lenient early).applied = [(some 3, .addRemoteCandidate "c")] ∧
      failed.outcome = .failed (.str0mNet .notOfferer) ∧
      ((offerToPeer lenient 2).run lenient [receives (.failed (some 3) "surrogate")]).outcome =
        .failed (.signaling "surrogate") ∧
      ¬Bound lenient [hears (.ice 3 "c"), hears (.answer 3 "sdp")] (.offerer 2) ∧
      ¬Bound lenient early .answerer := by
  intro offered early failed
  have hoffered : offered.applied =
      [(some 3, .addRemoteCandidate "c"), (some 3, .acceptAnswer "sdp")] := by decide +kernel
  have hpeer : (answerNextOffer.run lenient early).peer = some 2 := by decide +kernel
  have hearly : (answerNextOffer.run lenient early).applied =
      [(some 3, .addRemoteCandidate "c")] := by decide +kernel
  refine ⟨hoffered, hpeer, hearly, by decide +kernel, by decide +kernel, fun hbound => ?_,
    fun hbound => ?_⟩
  · have happlied := hbound.applied (some 3, .addRemoteCandidate "c")
      (by rw [hoffered]; exact mem_cons_self)
    cases happlied
  · have happlied := (hbound 2 hpeer).applied (some 3, .addRemoteCandidate "c")
      (by rw [hearly]; exact mem_cons_self)
    cases happlied

end Lazily.Handshake
