import Lazily.Bridge.Hub
import Lazily.Lib.Reach

/-!
# Write authority at the hub

What is handed to a sink was received from another attachment, whose peer may write the node, and
the peer of the sink may read it (`guarded_run`). Cell writes pass both checks, in every poll
(`passing_poll`). The ops of sync frames pass the read check alone, so for them it rests on what is
received (`sync_op_without_write`).
-/

namespace Lazily.Bridge

open Ipc Lib List PollState

/-- A hub with what its sources yielded and its sinks were handed. -/
structure BridgeHistory where
  hub : BridgeHub
  received : Nat → List IpcMessage
  sent : List Sent

namespace BridgeHistory

def start (attachments : List HubAttachment) : BridgeHistory := ⟨⟨attachments⟩, fun _ => [], []⟩

def step (h : BridgeHistory) (env : Transports) : BridgeHistory :=
  let r := h.hub.poll env
  { hub := r.1
    received := fun i => h.received i ++ if polled h.hub env i then env.inbound i else []
    sent := h.sent ++ r.2.1 }

def run (h : BridgeHistory) (envs : List Transports) : BridgeHistory := envs.foldl step h

end BridgeHistory

/-- An op on `node` may go from one attachment to another. -/
structure MayPass (hub : BridgeHub) (source target : Nat) (node : NodeId) : Prop where
  other : target ≠ source
  write : allowed hub source ⟨.write, node⟩ = true
  read : allowed hub target ⟨.read, node⟩ = true

/-- A message handed to a sink has only cell writes and sync ops that were received and may pass. -/
def Authorized (hub : BridgeHub) (received : Nat → List IpcMessage) (s : Sent) : Prop :=
  match s.message with
  | .delta delta => ∀ op ∈ delta.ops, ∃ node payload, op = .cellSet node payload ∧
      MayPass hub s.source s.target node ∧
      ∃ delta', .delta delta' ∈ received s.source ∧ op ∈ delta'.ops
  | .crdtSync sync => ∀ op ∈ sync.ops, MayPass hub s.source s.target op.node ∧
      ∃ sync', .crdtSync sync' ∈ received s.source ∧ op ∈ sync'.ops
  | .snapshot _ | .resyncRequest _ | .outboxAck _ | .deltaSinceRequest _ => False

/-- The condition on a poll: an op of a sync frame is on a node its sender may write, or that no
other attachment may read. -/
def SyncsWritable (hub : BridgeHub) (env : Transports) : Prop :=
  ∀ i, polled hub env i = true → ∀ sync, .crdtSync sync ∈ env.inbound i → ∀ op ∈ sync.ops,
    allowed hub i ⟨.write, op.node⟩ = true ∨ ∀ j, j ≠ i → allowed hub j ⟨.read, op.node⟩ = false

/-! ## What is drained -/

variable {hub : BridgeHub} {env : Transports} {received : Nat → List IpcMessage} {s : Sent}
    {st : PollState} {message : IpcMessage} {att : HubAttachment}

theorem allowed_eq {i : Nat} (h : hub.attachments[i]? = some att)
    (op : RemoteOp) : allowed hub i op = att.perms.isAllowed att.peer op := by
  unfold allowed grants
  rw [h]
  rfl

/-- What was authorized is a cell write of the message, on a node its sender may write. -/
theorem mem_authorizeInbound {peer : PeerId} {perms : PeerPermissions}
    {op : DeltaOp} (h : op ∈ authorizeInbound peer perms message) : ∃ node payload delta,
      op = .cellSet node payload ∧ perms.isAllowed peer ⟨.write, node⟩ = true ∧
      message = .delta delta ∧ op ∈ delta.ops := by
  unfold authorizeInbound at h
  split at h
  · rename_i delta
    obtain ⟨hin, hallowed⟩ := mem_filter.1 h
    split at hallowed
    · rename_i node payload
      exact ⟨node, payload, delta, rfl, hallowed, rfl, hin⟩
    all_goals cases hallowed
  all_goals cases h

/-- What was drained is what was received, the writes authorized. -/
structure Kept (hub : BridgeHub) (env : Transports) (d : Drained) : Prop where
  writes : ∀ w ∈ d.writes, ∀ op ∈ w.2, ∃ node payload, op = .cellSet node payload ∧
    allowed hub w.1 ⟨.write, node⟩ = true ∧ polled hub env w.1 = true ∧
    ∃ delta, .delta delta ∈ env.inbound w.1 ∧ op ∈ delta.ops
  syncs : ∀ s ∈ d.syncs, polled hub env s.1 = true ∧ .crdtSync s.2 ∈ env.inbound s.1

theorem kept_drain (hub : BridgeHub) (env : Transports) : Kept hub env (hub.drain env) := by
  refine drain_invariant ⟨by simp, by simp⟩ (fun i att message d hatt hpolled hin hd => ?_)
    fun d error hd => ⟨hd.writes, hd.syncs⟩
  unfold Drained.take
  split
  · refine ⟨hd.writes, fun s hs => ?_⟩
    rcases mem_append.1 hs with hs | hs
    · exact hd.syncs s hs
    · rw [mem_singleton.1 hs]
      exact ⟨hpolled, hin⟩
  · simp only
    split
    · exact hd
    · refine ⟨fun w hw => ?_, hd.syncs⟩
      rcases mem_append.1 hw with hw | hw
      · exact hd.writes w hw
      · rw [mem_singleton.1 hw]
        intro op hop
        obtain ⟨node, payload, delta, heq, hallowed, rfl, hmem⟩ := mem_authorizeInbound hop
        exact ⟨node, payload, heq, by rw [allowed_eq hatt, hallowed], hpolled, delta, hin, hmem⟩

/-! ## What is handed on -/

/-- The attachments keep their grants, and what was handed so far is authorized. -/
structure Passing (hub : BridgeHub) (received : Nat → List IpcMessage) (st : PollState) :
    Prop where
  grants : grants st.attachments = grants hub.attachments
  sent : ∀ s ∈ st.sent, Authorized hub received s

section

variable (hp : Passing hub received st)
include hp

theorem Passing.allowed {j : Nat} (hatt : st.attachments[j]? = some att) (op : RemoteOp) :
    allowed hub j op = att.perms.isAllowed att.peer op := by
  unfold Bridge.allowed
  rw [← hp.grants, Bridge.grants, hatt]
  rfl

theorem Passing.send {source j : Nat}
    (h : ∀ accepted, Authorized hub received ⟨source, j, message, accepted⟩) :
    Passing hub received (st.send env source j message) := by
  refine ⟨by rw [send_attachments, hp.grants], fun s hs => ?_⟩
  rw [send_sent] at hs
  rcases mem_append.1 hs with hs | hs
  · exact hp.sent s hs
  · rw [mem_singleton.1 hs]
    exact h _

theorem Passing.handDelta {source j : Nat}
    {ops : List DeltaOp} (hops : ∀ op ∈ ops, ∃ node payload, op = .cellSet node payload ∧
      Bridge.allowed hub source ⟨.write, node⟩ = true ∧
      ∃ delta, .delta delta ∈ received source ∧ op ∈ delta.ops) :
    Passing hub received (st.handDelta env source ops j) := by
  rcases handDelta_cases env source ops st j with heq | ⟨att, hatt, hne, heq⟩
  · rw [heq]
    exact hp
  · rw [heq]
    have hp' : Passing hub received { st with
        attachments := st.attachments.set j { att with outEpoch := att.outEpoch + 1 } } :=
      ⟨(grants_set _ hatt).trans hp.grants, hp.sent⟩
    refine hp'.send fun accepted op hop => ?_
    obtain ⟨hin, hreadable⟩ := mem_filter.1 hop
    obtain ⟨node, payload, rfl, hwrite, hreceived⟩ := hops op hin
    exact ⟨node, payload, rfl, ⟨hne, hwrite, by rw [hp.allowed hatt]; exact hreadable⟩, hreceived⟩

theorem Passing.handSync {source j : Nat}
    {sync : CrdtSync} (hreceived : .crdtSync sync ∈ received source)
    (hops : ∀ op ∈ sync.ops, Bridge.allowed hub source ⟨.write, op.node⟩ = true ∨
      ∀ j, j ≠ source → Bridge.allowed hub j ⟨.read, op.node⟩ = false) :
    Passing hub received (st.handSync env source sync j) := by
  rcases handSync_cases env source sync st j with heq | ⟨att, hatt, hne, heq⟩
  · rw [heq]
    exact hp
  · rw [heq]
    refine hp.send fun accepted op hop => ?_
    obtain ⟨hin, hreadable⟩ := mem_filter.1 hop
    have hread : Bridge.allowed hub j ⟨.read, op.node⟩ = true := by
      rw [hp.allowed hatt]
      exact hreadable
    refine ⟨⟨hne, (hops op hin).resolve_right fun hnone => ?_, hread⟩, sync, hreceived, hin⟩
    rw [hnone j hne] at hread
    cases hread

end

/-- A poll keeps the grants, and hands on only what is authorized. -/
theorem passing_poll (hok : SyncsWritable hub env)
    (hin : ∀ i, polled hub env i = true → ∀ message ∈ env.inbound i, message ∈ received i) :
    grants (hub.poll env).1.attachments = grants hub.attachments ∧
      ∀ s ∈ (hub.poll env).2.1, Authorized hub received s := by
  have hkept := kept_drain hub env
  unfold BridgeHub.poll
  simp only
  split
  · exact ⟨rfl, by simp⟩
  · have hstart : Passing hub received ⟨hub.attachments, [], 0, none⟩ := ⟨rfl, by simp⟩
    have hwrites : Passing hub received ((hub.drain env).writes.foldl
        (fun st w => (range hub.attachments.length).foldl (.handDelta env w.1 w.2) st)
        ⟨hub.attachments, [], 0, none⟩) := by
      refine foldl_handed (fun w : Nat × List DeltaOp => .handDelta env w.1 w.2) _ _ _
        (fun w hw j _ st hst => hst.handDelta fun op hop => ?_) hstart
      obtain ⟨node, payload, heq, hallowed, hpolled, delta, hdelta, hmem⟩ :=
        hkept.writes w hw op hop
      exact ⟨node, payload, heq, hallowed, delta, hin _ hpolled _ hdelta, hmem⟩
    have hsyncs : Passing hub received (hub.fanOut env (hub.drain env)) := by
      refine foldl_handed (fun s : Nat × CrdtSync => .handSync env s.1 s.2) _ _ _
        (fun s hs j _ st hst => ?_) hwrites
      obtain ⟨hpolled, hreceived⟩ := hkept.syncs s hs
      exact hst.handSync (hin _ hpolled _ hreceived) (hok _ hpolled _ hreceived)
    exact ⟨hsyncs.grants, hsyncs.sent⟩

theorem Authorized.mono {hub' : BridgeHub} {received' : Nat → List IpcMessage}
    (h : Authorized hub received s) (hgrants : grants hub'.attachments = grants hub.attachments)
    (hin : ∀ i, ∀ message ∈ received i, message ∈ received' i) : Authorized hub' received' s := by
  have hallowed : ∀ i op, allowed hub' i op = allowed hub i op := by
    intro i op
    unfold allowed
    rw [hgrants]
  have hpass : ∀ {node}, MayPass hub s.source s.target node →
      MayPass hub' s.source s.target node := by
    intro node hmay
    exact ⟨hmay.other, (hallowed _ _).trans hmay.write, (hallowed _ _).trans hmay.read⟩
  unfold Authorized at h ⊢
  split
  · rename_i delta hmessage
    rw [hmessage] at h
    intro op hop
    obtain ⟨node, payload, heq, hmay, delta', hreceived, hmem⟩ := h op hop
    exact ⟨node, payload, heq, hpass hmay, delta', hin _ _ hreceived, hmem⟩
  · rename_i sync hmessage
    rw [hmessage] at h
    intro op hop
    obtain ⟨hmay, sync', hreceived, hmem⟩ := h op hop
    exact ⟨hpass hmay, sync', hin _ _ hreceived, hmem⟩
  all_goals
    rename_i hmessage
    rw [hmessage] at h
    exact h

namespace BridgeHistory

/-- Everything handed to a sink is authorized. -/
def Guarded (h : BridgeHistory) : Prop := ∀ s ∈ h.sent, Authorized h.hub h.received s

theorem Guarded.step {h : BridgeHistory} (hg : h.Guarded) {env : Transports}
    (hok : SyncsWritable h.hub env) : (h.step env).Guarded := by
  have hold : ∀ i, ∀ message ∈ h.received i, message ∈ (h.step env).received i :=
    fun i message hin => mem_append_left _ hin
  have hnew : ∀ i, polled h.hub env i = true → ∀ message ∈ env.inbound i,
      message ∈ (h.step env).received i := by
    intro i hpolled message hin
    refine mem_append_right _ ?_
    rw [if_pos hpolled]
    exact hin
  obtain ⟨hgrants, hsent⟩ := passing_poll hok hnew
  intro s hs
  rcases mem_append.1 hs with hs | hs
  · exact (hg s hs).mono hgrants hold
  · exact (hsent s hs).mono hgrants fun _ _ h => h

/-- **Write authority**, in every run where the ops of sync frames are on nodes their senders may
write. -/
theorem guarded_run (attachments : List HubAttachment) (envs : List Transports)
    (hok : Allowed step (fun h => SyncsWritable h.hub) (start attachments) envs) :
    ((start attachments).run envs).Guarded :=
  hok.invariant (I := Guarded) (fun s hs => by cases hs) fun _ _ hg he => hg.step he

end BridgeHistory

/-- A cell write and a sync op on a node the first peer may write, and a forged slot value. -/
theorem guarded_run_writer :
    let op : CrdtOp := ⟨1, none, ⟨7, 0, 1⟩, .inline [42]⟩
    let h := (BridgeHistory.start [grant 1 [1] [1], grant 2 [1] []]).run
      [yields [.delta ⟨0, 1, [.cellSet 1 (.inline [7]), .slotValue 1 (.inline [8])]⟩,
        .crdtSync ⟨[], [op]⟩]]
    h.sent = [⟨0, 1, .delta ⟨0, 1, [.cellSet 1 (.inline [7])]⟩, true⟩,
      ⟨0, 1, .crdtSync ⟨[], [op]⟩, true⟩] ∧ h.Guarded := by
  intro op h
  refine ⟨by decide +kernel, BridgeHistory.guarded_run _ _ ⟨fun i _ sync hsync op' hop => ?_,
    trivial⟩⟩
  by_cases hi : i = 0
  · subst hi
    have hsync : sync = ⟨[], [op]⟩ := by simpa [yields] using hsync
    rw [hsync, mem_singleton] at hop
    rw [hop]
    exact .inl (by decide +kernel)
  · simp [yields, hi] at hsync

/-- The first peer may only read node 1. The op of its sync frame is handed to the second. -/
theorem sync_op_without_write :
    let op : CrdtOp := ⟨1, none, ⟨7, 0, 1⟩, .inline [42]⟩
    let h := (BridgeHistory.start [grant 1 [1] [], grant 2 [1] []]).run
      [yields [.crdtSync ⟨[], [op]⟩]]
    allowed h.hub 0 ⟨.write, 1⟩ = false ∧ h.sent = [⟨0, 1, .crdtSync ⟨[], [op]⟩, true⟩] ∧
      ¬h.Guarded := by
  intro op h
  have hwrite : allowed h.hub 0 ⟨.write, 1⟩ = false := by decide +kernel
  have hsent : h.sent = [⟨0, 1, .crdtSync ⟨[], [op]⟩, true⟩] := by decide +kernel
  refine ⟨hwrite, hsent, fun hg => ?_⟩
  have hauthorized : Authorized h.hub h.received ⟨0, 1, .crdtSync ⟨[], [op]⟩, true⟩ :=
    hg _ (by rw [hsent]; exact mem_singleton_self _)
  have hmay := (hauthorized op (mem_singleton_self _)).1.write
  rw [hwrite] at hmay
  cases hmay

end Lazily.Bridge
