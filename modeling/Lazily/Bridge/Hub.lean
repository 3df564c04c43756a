import Lazily.Ipc.Message

/-!
# The bridge hub (`bridge.rs`)

A hub owns attachments to peers. A poll drains every source, keeps of the deltas the cell writes
their senders may make, and hands each to the sinks of the other attachments, filtered to what their
peers may read and stamped with their own epochs. Sync frames are handed on with the read filter
alone.

Sources and sinks are the environment of a poll: what each source yields, and where a call fails. An
error leaves the poll at once.
-/

namespace Lazily.Bridge

open Ipc Lib List

/-- One peer: its grant, and the epoch of the last delta made for it. -/
structure HubAttachment where
  peer : PeerId
  perms : PeerPermissions
  outEpoch : Nat

structure BridgeHub where
  attachments : List HubAttachment

/-- What a poll meets: the messages each source yields, the error its drain ends with, and the error
of each send call of the poll. -/
structure Transports where
  inbound : Nat → List IpcMessage
  recvFails : Nat → Option String
  sendFails : Nat → Option String

/-- A message handed to a sink: from which attachment it was made, to which it goes, and whether the
sink took it. -/
structure Sent where
  source : Nat
  target : Nat
  message : IpcMessage
  accepted : Bool
  deriving DecidableEq, Repr

/-! ## Draining -/

/-- The cell writes of a message that its sender may make. -/
def authorizeInbound (peer : PeerId) (perms : PeerPermissions) : IpcMessage → List DeltaOp
  | .delta delta => delta.ops.filter fun
    | .cellSet node _ => perms.isAllowed peer ⟨.write, node⟩
    | .slotValue _ _ | .invalidate _ | .nodeAdd _ _ _ _ | .nodeRemove _ | .edgeAdd _ _
    | .edgeRemove _ _ | .queuePush _ _ | .queuePop _ | .queueClose _ => false
  | .snapshot _ | .crdtSync _ | .resyncRequest _ | .outboxAck _ | .deltaSinceRequest _ => []

structure Drained where
  writes : List (Nat × List DeltaOp)
  syncs : List (Nat × CrdtSync)
  error : Option String

namespace Drained

def take (i : Nat) (att : HubAttachment) (d : Drained) (message : IpcMessage) : Drained :=
  match message with
  | .crdtSync sync => { d with syncs := d.syncs ++ [(i, sync)] }
  | message =>
    let ops := authorizeInbound att.peer att.perms message
    if ops.isEmpty then d else { d with writes := d.writes ++ [(i, ops)] }

end Drained

def drainFrom (env : Transports) : Nat → List HubAttachment → Drained → Drained
  | _, [], d => d
  | i, att :: rest, d =>
    let d := (env.inbound i).foldl (Drained.take i att) d
    match env.recvFails i with
    | some error => { d with error := some error }
    | none => drainFrom env (i + 1) rest d

namespace BridgeHub

def drain (hub : BridgeHub) (env : Transports) : Drained :=
  drainFrom env 0 hub.attachments ⟨[], [], none⟩

end BridgeHub

/-! ## Fanning out -/

structure PollState where
  attachments : List HubAttachment
  sent : List Sent
  routed : Nat
  error : Option String

namespace PollState

variable (env : Transports)

def send (st : PollState) (source target : Nat) (message : IpcMessage) : PollState :=
  match env.sendFails st.sent.length with
  | none =>
    { st with sent := st.sent ++ [⟨source, target, message, true⟩], routed := st.routed + 1 }
  | some error =>
    { st with sent := st.sent ++ [⟨source, target, message, false⟩], error := some error }

/-- Hand writes to attachment `j`: read-filtered, and stamped with its own epoch. -/
def handDelta (source : Nat) (ops : List DeltaOp) (st : PollState) (j : Nat) : PollState :=
  match st.error, st.attachments[j]? with
  | none, some att =>
    if j = source then st
    else
      let filtered :=
        (Delta.mk att.outEpoch (att.outEpoch + 1) ops).filterReadable att.perms att.peer
      if filtered.ops.isEmpty then st
      else
        { st with
          attachments := st.attachments.set j { att with outEpoch := att.outEpoch + 1 } }.send
          env source j (.delta filtered)
  | _, _ => st

/-- Hand a sync frame to attachment `j`, read-filtered. -/
def handSync (source : Nat) (sync : CrdtSync) (st : PollState) (j : Nat) : PollState :=
  match st.error, st.attachments[j]? with
  | none, some att =>
    if j = source then st
    else
      let filtered := sync.filterReadable att.perms att.peer
      if filtered.ops.isEmpty then st else st.send env source j (.crdtSync filtered)
  | _, _ => st

end PollState

namespace BridgeHub

/-- Hand every write on, then every sync frame. -/
def fanOut (hub : BridgeHub) (env : Transports) (d : Drained) : PollState :=
  let targets := List.range hub.attachments.length
  let st := d.writes.foldl (fun st w => targets.foldl (.handDelta env w.1 w.2) st)
    ⟨hub.attachments, [], 0, none⟩
  d.syncs.foldl (fun st s => targets.foldl (.handSync env s.1 s.2) st) st

/-- Drain, then fan out. Returns the number of messages routed, with what was handed to sinks. -/
def poll (hub : BridgeHub) (env : Transports) : BridgeHub × List Sent × Except String Nat :=
  let d := hub.drain env
  match d.error with
  | some error => (hub, [], .error error)
  | none =>
    let st := hub.fanOut env d
    (⟨st.attachments⟩, st.sent, st.error.elim (.ok st.routed) .error)

end BridgeHub

/-! ## Grants

The attachments change in their epochs only. -/

def grants (attachments : List HubAttachment) (j : Nat) : Option (PeerId × PeerPermissions) :=
  attachments[j]?.map fun att => (att.peer, att.perms)

theorem grants_set {attachments : List HubAttachment} {j : Nat} {att : HubAttachment} (epoch : Nat)
    (h : attachments[j]? = some att) :
    grants (attachments.set j { att with outEpoch := epoch }) = grants attachments := by
  funext k
  unfold grants
  rw [getElem?_set]
  split
  · rename_i hjk
    subst hjk
    split
    · rw [h]
      rfl
    · rename_i hlen
      rw [getElem?_eq_none (Nat.not_lt.1 hlen)]
  · rfl

def allowed (hub : BridgeHub) (i : Nat) (op : RemoteOp) : Bool :=
  (grants hub.attachments i).any fun g => g.2.isAllowed g.1 op

def grant (peer : PeerId) (reads writes : List NodeId) : HubAttachment :=
  ⟨peer, ⟨(∅ : SortedMap PeerId PeerAllowlist).insert peer ⟨reads, writes, []⟩⟩, 0⟩

/-- Messages from attachment 0; no call fails. -/
def yields (messages : List IpcMessage) : Transports :=
  ⟨fun i => if i = 0 then messages else [], fun _ => none, fun _ => none⟩

/-! ## What a poll does -/

/-- The sources a poll gets to: those up to the first whose drain fails. -/
def polled (hub : BridgeHub) (env : Transports) (i : Nat) : Bool :=
  decide (i < hub.attachments.length) && (List.range i).all fun k => (env.recvFails k).isNone

variable {I : Drained → Prop} {env : Transports} {hub : BridgeHub}

theorem drainFrom_invariant
    (htake : ∀ i att message d, hub.attachments[i]? = some att → polled hub env i = true →
      message ∈ env.inbound i → I d → I (d.take i att message))
    (hfail : ∀ d error, I d → I { d with error := some error }) :
    ∀ (rest : List HubAttachment) (i : Nat) (d : Drained), rest = hub.attachments.drop i →
      (∀ k < i, env.recvFails k = none) → I d → I (drainFrom env i rest d)
  | [], _, _, _, _, hd => hd
  | att :: rest, i, d, hrest, hbefore, hd => by
    have hatt : hub.attachments[i]? = some att := by
      rw [← head?_drop, ← hrest, head?_cons]
    have hpolled : polled hub env i = true := by
      have hi := (List.getElem?_eq_some_iff.1 hatt).1
      simp only [polled, hi, decide_true, Bool.true_and, List.all_eq_true, List.mem_range]
      intro k hk
      rw [hbefore k hk]
      rfl
    -- the messages of this source, one by one
    have hmessages : I ((env.inbound i).foldl (Drained.take i att) d) := by
      have hall : ∀ (messages : List IpcMessage) (d : Drained),
          (∀ message ∈ messages, message ∈ env.inbound i) → I d →
          I (messages.foldl (Drained.take i att) d) := by
        intro messages
        induction messages with
        | nil => exact fun _ _ hd => hd
        | cons message messages ih =>
          intro d hin hd
          rw [forall_mem_cons] at hin
          exact ih _ hin.2 (htake i att message d hatt hpolled hin.1 hd)
      exact hall _ d (fun _ h => h) hd
    unfold drainFrom
    simp only
    split
    · exact hfail _ _ hmessages
    · rename_i hok
      refine drainFrom_invariant htake hfail rest (i + 1) _ ?_ (fun k hk => ?_) hmessages
      · rw [← tail_drop, ← hrest, tail_cons]
      · rcases Nat.lt_succ_iff_lt_or_eq.1 hk with hk | rfl
        · exact hbefore k hk
        · exact hok

/-- What holds of nothing drained, and is kept by each message taken, holds of what was drained. -/
theorem drain_invariant (hstart : I ⟨[], [], none⟩)
    (htake : ∀ i att message d, hub.attachments[i]? = some att → polled hub env i = true →
      message ∈ env.inbound i → I d → I (d.take i att message))
    (hfail : ∀ d error, I d → I { d with error := some error }) : I (hub.drain env) :=
  drainFrom_invariant htake hfail _ 0 _ rfl (fun _ hk => absurd hk (Nat.not_lt_zero _)) hstart

namespace PollState

variable {env : Transports} {st : PollState} {source j : Nat} {ops : List DeltaOp}
  {sync : CrdtSync} {message : IpcMessage}

@[simp] theorem send_attachments : (st.send env source j message).attachments = st.attachments := by
  unfold send
  split <;> rfl

theorem send_sent : (st.send env source j message).sent =
    st.sent ++ [⟨source, j, message, (env.sendFails st.sent.length).isNone⟩] := by
  unfold send
  split <;> rename_i h <;> rw [h] <;> rfl

/-- Handing writes on leaves the poll, or calls the sink with those the peer may read. -/
theorem handDelta_cases (env : Transports) (source : Nat) (ops : List DeltaOp) (st : PollState)
    (j : Nat) : st.handDelta env source ops j = st ∨
      ∃ att, st.attachments[j]? = some att ∧ j ≠ source ∧
        st.handDelta env source ops j =
          { st with
            attachments := st.attachments.set j { att with outEpoch := att.outEpoch + 1 } }.send
            env source j (.delta ⟨att.outEpoch, att.outEpoch + 1,
              ops.filter (·.readable att.perms att.peer)⟩) := by
  unfold handDelta
  split
  · rename_i att _ hatt
    split
    · exact .inl rfl
    · rename_i hne
      simp only
      split
      · exact .inl rfl
      · exact .inr ⟨att, hatt, hne, rfl⟩
  · exact .inl rfl

theorem handSync_cases (env : Transports) (source : Nat) (sync : CrdtSync) (st : PollState)
    (j : Nat) : st.handSync env source sync j = st ∨
      ∃ att, st.attachments[j]? = some att ∧ j ≠ source ∧ st.handSync env source sync j =
          st.send env source j (.crdtSync (sync.filterReadable att.perms att.peer)) := by
  unfold handSync
  split
  · rename_i att _ hatt
    split
    · exact .inl rfl
    · rename_i hne
      simp only
      split
      · exact .inl rfl
      · exact .inr ⟨att, hatt, hne, rfl⟩
  · exact .inl rfl

end PollState

/-- What every hand-over keeps holds at the end of the fan-out. -/
theorem foldl_handed {α : Type} {I : PollState → Prop} (hand : α → PollState → Nat → PollState)
    (targets : List Nat) : ∀ (items : List α) (st : PollState),
      (∀ item ∈ items, ∀ j ∈ targets, ∀ st, I st → I (hand item st j)) → I st →
      I (items.foldl (fun st item => targets.foldl (hand item) st) st)
  | [], _, _, hst => hst
  | item :: items, st, hstep, hst => by
    rw [forall_mem_cons] at hstep
    have hitem : ∀ (js : List Nat) (st : PollState), (∀ j ∈ js, j ∈ targets) → I st →
        I (js.foldl (hand item) st) := by
      intro js
      induction js with
      | nil => exact fun _ _ hst => hst
      | cons j js ih =>
        intro st hin hst
        rw [forall_mem_cons] at hin
        exact ih _ hin.2 (hstep.1 j hin.1 st hst)
    exact foldl_handed hand targets items _ hstep.2 (hitem targets st (fun _ h => h) hst)

end Lazily.Bridge
