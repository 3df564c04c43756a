import Lazily.Sync.Driver

/-!
# What the driver hands over, and what it waits for

Two properties of whole runs of a `SyncDriver`, over a source and a sink that may fail on any call.

`accepted_sublist_handed_iff`: every accepted frame reaches the caller iff no tick accepts a frame
and then fails to read on. A failed read drops the frames the tick has collected, while the cursor
has passed them and is acknowledged by the next tick (`accepted_frame_swallowed`).

`resyncLive_run`: if the sink takes every resync request, then a driver that waits for a snapshot
has asked for it. A request that the sink refuses is never sent again: the coordinator ignores
further gaps while it is resyncing, and neither a tick nor a reconnect repeats the request
(`refused_request_forgotten`).
-/

namespace Lazily.Sync

open List ResyncCoordinator

namespace SyncDriver

variable {σ α κ O ε : Type} {host : Host σ α κ} {d d' : SyncDriver σ α κ O} {now : Nat}
  {msg : IpcMessage σ α κ}

/-! ## Sends leave the receiver alone -/

/-- The receiver is as before; the log may have grown. -/
structure Quiet (d d' : SyncDriver σ α κ O) : Prop where
  coordinator : d'.coordinator = d.coordinator
  gapAt : d'.gapAt = d.gapAt
  log : d.log <+: d'.log

theorem Quiet.refl (d : SyncDriver σ α κ O) : Quiet d d := ⟨rfl, rfl, prefix_rfl⟩

theorem Quiet.trans {d'' : SyncDriver σ α κ O} (h : Quiet d d') (h' : Quiet d' d'') : Quiet d d'' :=
  ⟨h'.coordinator.trans h.coordinator, h'.gapAt.trans h.gapAt, h.log.trans h'.log⟩

theorem quiet_of_send {ok : Bool} (h : d.send host msg = (d', ok)) : Quiet d d' := by
  cases h
  exact ⟨rfl, rfl, prefix_append _ _⟩

theorem quiet_replayLoop : ∀ (msgs : List (Nat × IpcMessage σ α κ)) (d : SyncDriver σ α κ O)
    (sent : Nat), Quiet d (replayLoop host now msgs d sent).1
  | [], d, _ => .refl d
  | (_, msg) :: rest, d, sent => by
    rw [replayLoop]
    split
    · rename_i h
      exact (quiet_of_send h).trans (quiet_replayLoop rest _ _)
    · rename_i h
      exact (quiet_of_send h).trans ⟨rfl, rfl, prefix_rfl⟩

theorem quiet_advertise (d : SyncDriver σ α κ O) : Quiet d (d.advertise host) := by
  unfold advertise
  split
  · split
    · rename_i h
      exact (quiet_of_send h).trans ⟨rfl, rfl, prefix_rfl⟩
    · rename_i h
      exact quiet_of_send h
  · exact .refl d

variable [DurableOutbox O (IpcMessage σ α κ)]

theorem quiet_replay (d : SyncDriver σ α κ O) : Quiet d (d.replay host now).1 := by
  unfold replay
  split
  · have hclear : Quiet d { d with replayPending := false } := ⟨rfl, rfl, prefix_rfl⟩
    exact hclear.trans (quiet_replayLoop _ _ _)
  · exact .refl d

theorem quiet_drainLoop : ∀ (msgs : List (Nat × IpcMessage σ α κ)) (d : SyncDriver σ α κ O)
    (sent : Nat), Quiet d (drainLoop host now msgs d sent).1
  | [], d, _ => .refl d
  | (epoch, msg) :: rest, d, sent => by
    have hstage : Quiet d { d with
        outbox := DurableOutbox.append d.outbox epoch msg, pending := rest } :=
      ⟨rfl, rfl, prefix_rfl⟩
    rw [drainLoop]
    split
    · rename_i d1 h
      have hclear : Quiet d1 { d1 with stalledSince := none } := ⟨rfl, rfl, prefix_rfl⟩
      exact ((hstage.trans (quiet_of_send h)).trans hclear).trans (quiet_drainLoop rest _ _)
    · rename_i h
      exact (hstage.trans (quiet_of_send h)).trans ⟨rfl, rfl, prefix_rfl⟩

theorem quiet_outbound (d : SyncDriver σ α κ O) : Quiet d (d.outbound host now).1 := by
  unfold outbound drain
  split
  · exact (quiet_replay d).trans (quiet_drainLoop _ _ _)
  · exact quiet_replay d

/-! ## One inbound frame -/

/-- A frame of state, as opposed to a control frame or one of the CRDT plane. -/
def isState : IpcMessage σ α κ → Bool
  | .snapshot _ | .delta _ => true
  | _ => false

theorem acceptedFrames_singleton (c : ResyncCoordinator) (msg : IpcMessage σ α κ) :
    acceptedFrames c [msg] = if (c.ingest msg).2 = .apply then [msg] else [] := rfl

/-- What an inbound frame does to the receiver. -/
inductive Received (host : Host σ α κ) (d d' : SyncDriver σ α κ O) (msg : IpcMessage σ α κ) : Prop
  | quiet (h : Quiet d d') (hnot : (d.coordinator.ingest msg).2 ≠ .apply)
      (hsame : (d.coordinator.ingest msg).1 = d.coordinator)
  | accepted (h : (d.coordinator.ingest msg).2 = .apply)
      (hc : d'.coordinator = (d.coordinator.ingest msg).1) (hlog : d'.log = d.log)
      (hgap : d'.gapAt = d.gapAt)
  /-- A gap: the request is handed to the sink, whatever it answers. -/
  | gap (ok : Bool) (hnot : (d.coordinator.ingest msg).2 ≠ .apply)
      (hc : d'.coordinator = (d.coordinator.ingest msg).1)
      (hlast : (d.coordinator.ingest msg).1.lastEpoch = d.coordinator.lastEpoch)
      (hgap : d'.gapAt = d.log.length)
      (hok : host.accepts d.log.length (.resyncRequest d.coordinator.lastEpoch) = ok)
      (hlog : d'.log = d.log ++ [(.resyncRequest d.coordinator.lastEpoch, ok)])

/-- The epoch after an accepted frame. -/
def leadsTo (e : Nat) : IpcMessage σ α κ → Nat
  | .snapshot s => s.epoch
  | .delta d => d.epoch
  | _ => e

/-- What the coordinator makes of a frame. -/
theorem ingest_cases (c : ResyncCoordinator) (msg : IpcMessage σ α κ) :
    c.ingest msg = (⟨leadsTo c.lastEpoch msg, false⟩, .apply) ∨ c.ingest msg = (c, .ignore) ∨
      c.ingest msg = (⟨c.lastEpoch, true⟩, .requestSnapshot c.lastEpoch) := by
  cases msg with
  | snapshot s => exact .inl rfl
  | delta m =>
    obtain ⟨⟨c', action⟩, hin⟩ : ∃ r, c.ingestDelta m = r := ⟨_, rfl⟩
    rw [ingest, hin]
    obtain ⟨-, rfl, rfl⟩ | ⟨rfl, rfl⟩ | ⟨rfl, rfl⟩ := ingestDelta_cases hin
    · exact .inl rfl
    · exact .inr (.inl rfl)
    · exact .inr (.inr rfl)
  | crdtSync _ | resyncRequest _ | outboxAck _ | deltaSinceRequest _ => exact .inr (.inl rfl)

section Received

variable {p p' : Progress σ α κ}

omit [DurableOutbox O (IpcMessage σ α κ)] in
theorem received_of_ignore (hquiet : Quiet d d')
    (hin : d.coordinator.ingest msg = (d.coordinator, .ignore))
    (happlied : p'.applied.filter isState = p.applied.filter isState) : Received host d d' msg ∧
      p'.applied.filter isState = p.applied.filter isState ++ acceptedFrames d.coordinator [msg] :=
  ⟨.quiet hquiet (by simp [hin]) (by rw [hin]), by
    simp [acceptedFrames_singleton, hin, happlied]⟩

omit [DurableOutbox O (IpcMessage σ α κ)] in
theorem received_of_state (now : Nat) (hstate : isState msg = true)
    (h : receiveState host now d p msg = (d', p')) : Received host d d' msg ∧
      p'.applied.filter isState =
        p.applied.filter isState ++ acceptedFrames d.coordinator [msg] := by
  unfold receiveState at h
  rcases ingest_cases d.coordinator msg with hin | hin | hin
  all_goals simp only [hin] at h
  · cases h
    exact ⟨.accepted (by rw [hin]) (by rw [hin]) rfl rfl, by
      simp [acceptedFrames_singleton, hin, hstate]⟩
  · cases h
    exact received_of_ignore ⟨rfl, rfl, prefix_rfl⟩ hin rfl
  · simp only [send] at h
    cases hok : host.accepts d.log.length (.resyncRequest d.coordinator.lastEpoch)
    all_goals
      simp only [hok] at h
      cases h
      exact ⟨.gap _ (by simp [hin]) (by rw [hin]) (by rw [hin]) rfl hok rfl, by
        simp [acceptedFrames_singleton, hin]⟩

theorem received (h : receive host now (d, p) msg = (d', p')) : Received host d d' msg ∧
    p'.applied.filter isState =
      p.applied.filter isState ++ acceptedFrames d.coordinator [msg] := by
  cases msg with
  | snapshot s => exact received_of_state now rfl h
  | delta e => exact received_of_state now rfl h
  | outboxAck e =>
    cases h
    exact received_of_ignore ⟨rfl, rfl, prefix_rfl⟩ rfl rfl
  | resyncRequest e =>
    simp only [receive] at h
    split at h
    · rename_i hsend
      cases h
      exact received_of_ignore (quiet_of_send hsend) rfl rfl
    · rename_i hsend
      cases h
      exact received_of_ignore ((quiet_of_send hsend).trans ⟨rfl, rfl, prefix_rfl⟩) rfl rfl
  | crdtSync e =>
    cases h
    exact received_of_ignore (.refl _) rfl (by simp [isState])
  | deltaSinceRequest e =>
    cases h
    exact received_of_ignore (.refl _) rfl (by simp [isState])

end Received

omit [DurableOutbox O (IpcMessage σ α κ)] in
theorem Received.coordinator (h : Received host d d' msg) :
    d'.coordinator = (d.coordinator.ingest msg).1 := by
  cases h with
  | quiet h _ hsame => exact h.coordinator.trans hsame.symm
  | accepted _ hc => exact hc
  | gap _ _ hc => exact hc

/-! ## All frames of a tick -/

variable (c : ResyncCoordinator)

/-- The coordinator after a list of frames. -/
def ingestAll (frames : List (IpcMessage σ α κ)) : ResyncCoordinator :=
  frames.foldl (fun c msg => (c.ingest msg).1) c

theorem acceptedFrames_cons (msg : IpcMessage σ α κ)
    (frames : List (IpcMessage σ α κ)) : acceptedFrames c (msg :: frames) =
      acceptedFrames c [msg] ++ acceptedFrames (c.ingest msg).1 frames := by
  rw [acceptedFrames_singleton, acceptedFrames]
  split <;> rfl

theorem receive_all (host : Host σ α κ) (now : Nat) :
    ∀ (frames : List (IpcMessage σ α κ)) (d : SyncDriver σ α κ O) (p : Progress σ α κ),
    (frames.foldl (receive host now) (d, p)).1.coordinator = ingestAll d.coordinator frames ∧
      (frames.foldl (receive host now) (d, p)).2.applied.filter isState =
        p.applied.filter isState ++ acceptedFrames d.coordinator frames
  | [], d, p => ⟨rfl, by simp [acceptedFrames]⟩
  | msg :: frames, d, p => by
    obtain ⟨⟨d1, p1⟩, h⟩ : ∃ r, receive host now (d, p) msg = r := ⟨_, rfl⟩
    obtain ⟨hrec, happ⟩ := received h
    obtain ⟨hc, happs⟩ := receive_all host now frames d1 p1
    rw [foldl_cons, h, acceptedFrames_cons, ← append_assoc, ← happ, ← hrec.coordinator]
    refine ⟨hc.trans ?_, happs⟩
    rw [hrec.coordinator]
    rfl

/-- A tick: the coordinator sees all frames; what it accepted is handed over if no read failed. -/
theorem tick_spec (now : Nat) (inbound : Inbound σ α κ ε) (d : SyncDriver σ α κ O) :
    (d.tick host now inbound).1.coordinator = ingestAll d.coordinator inbound.frames ∧
      (d.handedBy host (.tick now inbound)).filter isState =
        if inbound.failure.isSome then [] else acceptedFrames d.coordinator inbound.frames := by
  have hreceived := receive_all host now inbound.frames (d.outbound host now).1
    { Progress.default with sent := (d.outbound host now).2 }
  rw [(quiet_outbound d).coordinator] at hreceived
  obtain ⟨frames, _ | err⟩ := inbound
  · exact ⟨(quiet_advertise _).coordinator.trans hreceived.1, hreceived.2⟩
  · exact ⟨hreceived.1, rfl⟩

/-! ## Every accepted frame is handed over, unless a read fails behind it -/

theorem lastEpoch_ingest (msg : IpcMessage σ α κ) :
    (c.ingest msg).1.lastEpoch = (acceptedFrames c [msg]).foldl leadsTo c.lastEpoch := by
  rw [acceptedFrames_singleton]
  rcases ingest_cases c msg with hin | hin | hin <;> simp [hin]

theorem lastEpoch_ingestAll : ∀ (frames : List (IpcMessage σ α κ)) (c : ResyncCoordinator),
    (ingestAll c frames).lastEpoch = (acceptedFrames c frames).foldl leadsTo c.lastEpoch
  | [], _ => rfl
  | msg :: frames, c => by
    rw [acceptedFrames_cons, foldl_append, ← lastEpoch_ingest]
    exact lastEpoch_ingestAll frames (c.ingest msg).1

theorem lastEpoch_step (a : Action σ α κ ε) (d : SyncDriver σ α κ O) :
    (d.step host a).coordinator.lastEpoch =
      (d.acceptedBy a).foldl leadsTo d.coordinator.lastEpoch := by
  cases a with
  | tick now inbound =>
    show (d.tick host now inbound).1.coordinator.lastEpoch = _
    rw [(tick_spec now inbound d).1]
    exact lastEpoch_ingestAll _ _
  | enqueue _ _ => rfl
  | onReconnect => rfl

theorem handedBy_filter (a : Action σ α κ ε) (d : SyncDriver σ α κ O) :
    (d.handedBy host a).filter isState = if a.fails then [] else d.acceptedBy a := by
  cases a with
  | tick now inbound => exact (tick_spec now inbound d).2
  | enqueue _ _ => rfl
  | onReconnect => rfl

theorem lastEpoch_run : ∀ (actions : List (Action σ α κ ε)) (d : SyncDriver σ α κ O),
    (d.run host actions).coordinator.lastEpoch =
      (d.accepted host actions).foldl leadsTo d.coordinator.lastEpoch
  | [], _ => rfl
  | a :: actions, d => by
    rw [accepted, foldl_append, ← lastEpoch_step]
    exact lastEpoch_run actions (d.step host a)

/-- What a run hands over is what it accepted, if it reads through. -/
theorem handed_filter : ∀ {actions : List (Action σ α κ ε)} {d : SyncDriver σ α κ O},
    d.ReadsThrough host actions → (d.handed host actions).filter isState = d.accepted host actions
  | [], _, _ => rfl
  | a :: actions, d, h => by
    rw [handed, accepted, filter_append, handedBy_filter, handed_filter h.2]
    split
    · rename_i hf
      rw [h.1 hf]
    · rfl

theorem readsThrough_of_length : ∀ (actions : List (Action σ α κ ε)) (d : SyncDriver σ α κ O),
    ((d.handed host actions).filter isState).length ≤ (d.accepted host actions).length ∧
      ((d.accepted host actions).length ≤ ((d.handed host actions).filter isState).length →
        d.ReadsThrough host actions)
  | [], _ => ⟨Nat.le_refl _, fun _ => trivial⟩
  | a :: actions, d => by
    obtain ⟨hle, hthrough⟩ := readsThrough_of_length actions (d.step host a)
    rw [handed, accepted, filter_append, handedBy_filter, length_append, length_append]
    split
    · rw [length_nil]
      refine ⟨by omega, fun hlen => ⟨fun _ => ?_, hthrough (by omega)⟩⟩
      exact length_eq_zero_iff.1 (by omega)
    · rename_i hf
      exact ⟨by omega, fun hlen => ⟨fun h => absurd h hf, hthrough (by omega)⟩⟩

theorem isState_of_accepted {c : ResyncCoordinator} (h : (c.ingest msg).2 = .apply) :
    isState msg = true := by
  cases msg with
  | snapshot _ | delta _ => rfl
  | crdtSync _ | resyncRequest _ | outboxAck _ | deltaSinceRequest _ => cases h

theorem acceptedFrames_isState : ∀ (frames : List (IpcMessage σ α κ)) (c : ResyncCoordinator),
    ∀ m ∈ acceptedFrames c frames, isState m = true
  | [], _, _, hm => nomatch hm
  | msg :: frames, c, m, hm => by
    rw [acceptedFrames] at hm
    split at hm
    · rename_i happly
      rcases mem_cons.1 hm with rfl | hm
      · exact isState_of_accepted happly
      · exact acceptedFrames_isState frames _ m hm
    · exact acceptedFrames_isState frames _ m hm

theorem accepted_isState : ∀ (actions : List (Action σ α κ ε)) (d : SyncDriver σ α κ O),
    ∀ m ∈ d.accepted host actions, isState m = true
  | [], _, _, hm => nomatch hm
  | a :: actions, d, m, hm => by
    rcases mem_append.1 hm with hm | hm
    · cases a with
      | tick now inbound => exact acceptedFrames_isState _ _ m hm
      | enqueue _ _ => exact nomatch hm
      | onReconnect => exact nomatch hm
    · exact accepted_isState actions _ m hm

end SyncDriver

open SyncDriver

section Handed

variable {σ α κ O ε : Type} [DurableOutbox O (IpcMessage σ α κ)]

/-- **No accepted frame is swallowed** (and the epoch that is acknowledged is the one that the
frames handed over lead to) iff no tick of the run accepts a frame and then fails to read on. -/
theorem accepted_sublist_handed_iff (host : Host σ α κ) (outbox : O) (lastEpoch : Nat)
    (actions : List (Action σ α κ ε)) :
    let d := SyncDriver.withEpoch outbox lastEpoch
    (d.accepted host actions).Sublist (d.handed host actions) ∧
        ((d.run host actions).coordinator.ack : IpcMessage σ α κ) =
          .outboxAck (((d.handed host actions).filter isState).foldl leadsTo lastEpoch) ↔
      d.ReadsThrough host actions := by
  intro d
  constructor
  · rintro ⟨hsub, -⟩
    refine (readsThrough_of_length actions d).2 ?_
    have hstate := hsub.filter isState
    rw [filter_eq_self.2 (accepted_isState actions d)] at hstate
    exact hstate.length_le
  · intro hthrough
    have hhanded := handed_filter hthrough
    refine ⟨hhanded ▸ filter_sublist, ?_⟩
    rw [hhanded, ResyncCoordinator.ack, lastEpoch_run]
    rfl

/-- A delta is accepted, the next read fails, the tick after it acknowledges the delta: it has been
handed to nobody. -/
theorem accepted_frame_swallowed :
    let host : Host Nat Nat Unit := ⟨fun _ _ => true, fun e => .snapshot ⟨e, 0⟩⟩
    let d : SyncDriver Nat Nat Unit (InMemoryOutbox (IpcMessage Nat Nat Unit)) :=
      .withEpoch (.withStore emptyMemory) 0
    let actions : List (Action Nat Nat Unit String) :=
      [.tick 0 ⟨[.delta ⟨0, 1, [5]⟩], some "reset"⟩, .onReconnect, .tick 1 ⟨[], none⟩]
    d.accepted host actions = [.delta ⟨0, 1, [5]⟩] ∧ d.handed host actions = [] ∧
      (.outboxAck 1, true) ∈ (d.run host actions).log := by
  decide +kernel

end Handed

/-! ## A driver that waits for a snapshot has asked for it, if the sink takes requests -/

namespace SyncDriver

variable {σ α κ O ε : Type} {host : Host σ α κ} {d d' : SyncDriver σ α κ O} {now : Nat}
  {msg : IpcMessage σ α κ}

/-- The sink took a request for the current gap, after the gap was detected. -/
def Asked (d : SyncDriver σ α κ O) : Prop :=
  (.resyncRequest d.coordinator.lastEpoch, true) ∈ d.log.drop d.gapAt

instance [DecidableEq σ] [DecidableEq α] [DecidableEq κ] : Decidable d.Asked :=
  inferInstanceAs (Decidable (_ ∈ _))

/-- The next tick hands a request for the current gap to the sink, whatever is inbound. -/
def Retries [DurableOutbox O (IpcMessage σ α κ)] (host : Host σ α κ) (d : SyncDriver σ α κ O) :
    Prop :=
  ∀ (now : Nat) (inbound : Inbound σ α κ Unit),
    ∃ ok, (.resyncRequest d.coordinator.lastEpoch, ok) ∈
      (d.tick host now inbound).1.log.drop d.log.length

/-- A driver that waits for a snapshot has asked for it or is about to. -/
def ResyncLive [DurableOutbox O (IpcMessage σ α κ)] (host : Host σ α κ) (d : SyncDriver σ α κ O) :
    Prop :=
  d.coordinator.resyncing = true → d.Asked ∨ d.Retries host

structure Waiting (d : SyncDriver σ α κ O) : Prop where
  gapAt : d.gapAt ≤ d.log.length
  asked : d.coordinator.resyncing = true → d.Asked

theorem Quiet.waiting (h : Quiet d d') (hw : d.Waiting) : d'.Waiting := by
  obtain ⟨more, hlog⟩ := h.log
  refine ⟨by rw [h.gapAt]; exact Nat.le_trans hw.gapAt h.log.length_le, fun hre => ?_⟩
  have hasked := hw.asked (h.coordinator ▸ hre)
  unfold Asked at hasked ⊢
  rw [h.coordinator, h.gapAt, ← hlog, drop_append_of_le_length hw.gapAt]
  exact mem_append_left more hasked

theorem resyncing_of_apply {c : ResyncCoordinator} (h : (c.ingest msg).2 = .apply) :
    (c.ingest msg).1.resyncing = false := by
  rcases ingest_cases c msg with hin | hin | hin
  · rw [hin]
  · simp [hin] at h
  · simp [hin] at h

variable (hsink : ∀ n e, host.accepts n (.resyncRequest e) = true)
include hsink

theorem Received.waiting (h : Received host d d' msg) (hw : d.Waiting) : d'.Waiting := by
  cases h with
  | quiet h _ _ => exact h.waiting hw
  | accepted h hc hlog hgap =>
    refine ⟨by rw [hgap, hlog]; exact hw.gapAt, fun hre => ?_⟩
    rw [hc, resyncing_of_apply h] at hre
    cases hre
  | gap ok _ hc hlast hgap hok hlog =>
    refine ⟨by rw [hgap, hlog]; simp, fun _ => ?_⟩
    rw [hsink] at hok
    unfold Asked
    rw [hgap, hlog, hc, hlast, drop_left, ← hok]
    exact mem_singleton_self _

variable [DurableOutbox O (IpcMessage σ α κ)]

theorem waiting_receive (now : Nat) :
    ∀ (frames : List (IpcMessage σ α κ)) (d : SyncDriver σ α κ O) (p : Progress σ α κ), d.Waiting →
      (frames.foldl (receive host now) (d, p)).1.Waiting
  | [], _, _, hw => hw
  | msg :: frames, d, p, hw => by
    obtain ⟨⟨d1, p1⟩, h⟩ : ∃ r, receive host now (d, p) msg = r := ⟨_, rfl⟩
    rw [foldl_cons, h]
    exact waiting_receive now frames d1 p1 ((received h).1.waiting hsink hw)

theorem Waiting.step (hw : d.Waiting) (a : Action σ α κ ε) : (d.step host a).Waiting := by
  cases a with
  | enqueue _ _ => exact ⟨hw.gapAt, hw.asked⟩
  | onReconnect => exact ⟨hw.gapAt, hw.asked⟩
  | tick now inbound =>
    have hreceived := waiting_receive hsink now inbound.frames (d.outbound host now).1
      { Progress.default with sent := (d.outbound host now).2 } ((quiet_outbound d).waiting hw)
    obtain ⟨frames, _ | err⟩ := inbound
    · exact (quiet_advertise _).waiting hreceived
    · exact hreceived

theorem Waiting.run : ∀ (actions : List (Action σ α κ ε)) (d : SyncDriver σ α κ O), d.Waiting →
    (d.run host actions).Waiting
  | [], _, hw => hw
  | a :: actions, _, hw => Waiting.run actions _ (hw.step hsink a)

end SyncDriver

section Resync

variable {σ α κ O ε : Type} [DurableOutbox O (IpcMessage σ α κ)]

/-- **Resync liveness.** If the sink takes every resync request, then at every point of every run a
driver that waits for a snapshot has asked for it. -/
theorem resyncLive_run (host : Host σ α κ)
    (hsink : ∀ n e, host.accepts n (.resyncRequest e) = true) (outbox : O) (lastEpoch : Nat)
    (actions : List (Action σ α κ ε)) :
    ((SyncDriver.withEpoch outbox lastEpoch).run host actions).ResyncLive host := by
  have hstart : (withEpoch outbox lastEpoch : SyncDriver σ α κ O).Waiting :=
    ⟨Nat.le_refl _, fun h => nomatch h⟩
  exact fun hre => .inl ((Waiting.run hsink actions _ hstart).asked hre)

/-- The host of the two runs below: the sink refuses the first frame it is handed, or none. -/
def flakyHost (refused : Nat → Bool) : Host Nat Nat Unit :=
  ⟨fun n _ => !refused n, fun e => .snapshot ⟨e, 0⟩⟩

def freshDriver : SyncDriver Nat Nat Unit (InMemoryOutbox (IpcMessage Nat Nat Unit)) :=
  .withEpoch (.withStore emptyMemory) 0

theorem resyncLive_run_gap :
    let d := freshDriver.run (flakyHost fun _ => false)
      [(.tick 0 ⟨[.delta ⟨5, 6, []⟩], none⟩ : Action Nat Nat Unit Unit)]
    d.coordinator.resyncing = true ∧ d.ResyncLive (flakyHost fun _ => false) :=
  ⟨by decide +kernel, resyncLive_run _ (fun _ _ => rfl) _ _ _⟩

/-- The sink refuses the request for the gap in front of epoch 5. After a reconnect a further gap is
ignored and no request is handed to the sink. -/
theorem refused_request_forgotten :
    let host := flakyHost (· == 0)
    let d := freshDriver.run host
      [(.tick 0 ⟨[.delta ⟨5, 6, []⟩], none⟩ : Action Nat Nat Unit Unit), .onReconnect]
    d.coordinator.resyncing = true ∧ ¬d.ResyncLive host := by
  refine ⟨by decide +kernel, fun hlive => ?_⟩
  rcases hlive (by decide +kernel) with hasked | hretries
  · revert hasked
    decide +kernel
  · obtain ⟨ok, hok⟩ := hretries 1 ⟨[.delta ⟨6, 7, []⟩], none⟩
    revert hok
    cases ok <;> decide +kernel

end Resync

end Lazily.Sync
