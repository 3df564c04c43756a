import Lazily.Sync.Delivery

/-!
# What the driver owes its peer

`at_least_once`: a frame that was enqueued and not acknowledged is in the queue of the driver or in
its outbox, and after a reconnect the sink gets the frames the outbox retains in the order of their
epochs, then the queue, up to the next failure. This is so over the store in memory, and over SQLite
while every epoch is below `2 ^ 63`. A frame from there on is lost with the tick that drains it
(`large_epoch_lost`).
-/

namespace Lazily.Sync

open List Nat DurableOutbox
open LawfulStore (Fits)

variable {σ α κ O S ε μ : Type}

namespace SyncDriver

def Action.frame : Action σ α κ ε → List (Nat × IpcMessage σ α κ)
  | .enqueue epoch msg => [(epoch, msg)]
  | .onReconnect | .tick _ _ => []

/-- The frames that a run enqueues. -/
def enqueued (actions : List (Action σ α κ ε)) : List (Nat × IpcMessage σ α κ) :=
  actions.flatMap Action.frame

def ackedBy (acked : Nat) : IpcMessage σ α κ → Nat
  | .outboxAck throughEpoch => max acked throughEpoch
  | _ => acked

def Action.acks (acked : Nat) : Action σ α κ ε → Nat
  | .tick _ inbound => inbound.frames.foldl ackedBy acked
  | .onReconnect | .enqueue _ _ => acked

/-- The highest epoch acknowledged in a run, if it was `acked` before. -/
def acknowledged (acked : Nat) (actions : List (Action σ α κ ε)) : Nat :=
  actions.foldl Action.acks acked

/-- The epochs that an action brings: of the enqueued frame, or acknowledged by the peer. -/
def Action.epochs : Action σ α κ ε → List Nat
  | .enqueue epoch _ => [epoch]
  | .tick _ inbound => inbound.frames.filterMap fun
    | .outboxAck throughEpoch => some throughEpoch
    | _ => none
  | .onReconnect => []

section Backed

variable [DurableOutbox O (IpcMessage σ α κ)] (host : Host σ α κ)

/-- The sends of a step that the outbox backs, with the answers of the sink: those of the replay and
of the drain. -/
def backedBy (d : SyncDriver σ α κ O) : Action σ α κ ε → List (IpcMessage σ α κ × Bool)
  | .tick now _ => (d.outbound host now).1.log.drop d.log.length
  | .onReconnect | .enqueue _ _ => []

def backed (d : SyncDriver σ α κ O) : List (Action σ α κ ε) → List (IpcMessage σ α κ × Bool)
  | [] => []
  | a :: actions => d.backedBy host a ++ backed (d.step host a) actions

end Backed

/-- What the sink accepted before the first failure. -/
def upToFailure (sends : List (μ × Bool)) : List μ := (sends.takeWhile (·.2)).map (·.1)

def Action.isTick : Action σ α κ ε → Bool
  | .tick _ _ => true
  | .onReconnect | .enqueue _ _ => false

/-! ## Sends in order -/

def Accepted (sends : List (μ × Bool)) : Prop := ∀ p ∈ sends, p.2 = true

variable {sends : List (μ × Bool)}

theorem upToFailure_append (h : Accepted sends) (later : List (μ × Bool)) :
    upToFailure (sends ++ later) = sends.map (·.1) ++ upToFailure later := by
  simp [upToFailure, takeWhile_append_of_pos h]

theorem upToFailure_of_failed (h : ¬ Accepted sends)
    (later : List (μ × Bool)) : upToFailure (sends ++ later) = upToFailure sends := by
  induction sends with
  | nil => simp [Accepted] at h
  | cons p sends ih =>
    cases hp : p.2 with
    | false => simp [upToFailure, hp]
    | true => simpa [upToFailure, hp] using ih fun hall => h (by simpa [Accepted, hp] using hall)

/-- The sends go through a list in order up to a failure; without one, `rest` is left. -/
structure Ordered (all : List μ) (sends : List (μ × Bool)) (rest : List μ) : Prop where
  upToFailure : upToFailure sends <+: all
  going : Accepted sends → sends.map (·.1) ++ rest = all

namespace Ordered

variable {all rest rest' : List μ} {sends : List (μ × Bool)} {msg : μ}

theorem start (rest : List μ) : Ordered rest [] rest := ⟨ nil_prefix, fun _ => rfl⟩

theorem fresh (h : Ordered all sends rest) (l : List μ) : Ordered (all ++ l) sends (rest ++ l) :=
  ⟨h.upToFailure.trans (prefix_append _ _), fun hok => by
    rw [← h.going hok, append_assoc]⟩

theorem send (h : Ordered all sends (msg :: rest)) (ok : Bool) (hrest : ok = true → rest' = rest) :
    Ordered all (sends ++ [(msg, ok)]) rest' := by
  by_cases hok : Accepted sends
  · refine ⟨?_, fun hok' => ?_⟩
    · rw [upToFailure_append hok, ← h.going hok]
      cases ok <;> simp [SyncDriver.upToFailure]
    · rw [hrest (hok' (msg, ok) (by simp)), ← h.going hok]
      simp
  · refine ⟨?_, fun hok' => absurd (fun p hp => hok' p (mem_append_left _ hp)) hok⟩
    rw [upToFailure_of_failed hok]
    exact h.upToFailure

end Ordered

/-! ## What is kept -/

/-- Of the enqueued `frames` those that are not pending are in the outbox, unless acknowledged. -/
structure Retains (frames : List (Nat × μ)) (m : InMemoryStore μ) (pending : List (Nat × μ))
    (acked : Nat) : Prop where
  ascend : EpochsAscend m.entries
  small : ∀ p ∈ m.entries, p.1 < UInt64.size - 1
  acked : acked ≤ m.cursor
  kept : ∃ done, frames = done ++ pending ∧ ∀ p ∈ done, m.cursor < p.1 → p ∈ m.entries

namespace Retains

variable {frames pending : List (Nat × μ)} {m : InMemoryStore μ} {acked epoch : Nat} {msg : μ}

theorem append (h : Retains frames m ((epoch, msg) :: pending) acked) (hasc : EpochsAscend frames)
    (hsmall : ∀ p ∈ frames, p.1 < UInt64.size - 1) :
    Retains frames ⟨insertEntry epoch msg m.entries, m.cursor⟩ pending acked := by
  obtain ⟨done, rfl, hdone⟩ := h.kept
  obtain ⟨hput, hmem⟩ := insertEntry_spec epoch msg h.ascend
  refine ⟨hput, fun p hp => ?_, h.acked, done ++ [(epoch, msg)], by simp, fun p hp hlt => ?_⟩
  · rcases (hmem p).1 hp with rfl | ⟨-, hp⟩
    · exact hsmall _ (by simp)
    · exact h.small p hp
  · rcases mem_append.1 hp with hp | hp
    · -- the epochs ascend, so an older frame is not replaced
      have hlt' : p.1 < epoch := (pairwise_append.1 hasc).2.2 p hp (epoch, msg) (by simp)
      exact (hmem p).2 (.inr ⟨Nat.ne_of_lt hlt', hdone p hp hlt⟩)
    · exact (hmem p).2 (.inl (by simpa using hp))

theorem ackThrough (h : Retains frames m pending acked) (epoch : Nat) :
    Retains frames ⟨m.entries.filter fun e => max m.cursor epoch < e.1, max m.cursor epoch⟩ pending
      (max acked epoch) := by
  obtain ⟨done, hframes, hdone⟩ := h.kept
  refine ⟨h.ascend.filter _, fun p hp => h.small p ((mem_filter.1 hp).1), ?_, done, hframes,
    fun p hp hlt => ?_⟩
  · have := h.acked
    simp only
    omega
  · simp only at hlt ⊢
    exact mem_filter.2 ⟨hdone p hp (by omega), by simpa using hlt⟩

theorem mem (h : Retains frames m pending acked) {p : Nat × μ} (hp : p ∈ pending) : p ∈ frames := by
  obtain ⟨done, rfl, -⟩ := h.kept
  exact mem_append_right _ hp

theorem enqueue (h : Retains frames m pending acked) (p : Nat × μ) :
    Retains (frames ++ [p]) m (pending ++ [p]) acked := by
  obtain ⟨done, rfl, hdone⟩ := h.kept
  exact ⟨h.ascend, h.small, h.acked, done, by simp, hdone⟩

theorem mem_scanAfter {p : Nat × μ} (hsmall : p.1 < UInt64.size - 1) (cursor : Nat) :
    p ∈ OutboxStore.scanAfter m cursor ↔ p ∈ m.entries ∧ cursor < p.1 := by
  have hsize : UInt64.size = 2 ^ 64 := rfl
  simp only [OutboxStore.scanAfter, mem_filter, decide_eq_true_eq]
  refine and_congr_right fun _ => ?_
  unfold saturatingSucc
  omega

end Retains

section Run

variable [OutboxStore S (IpcMessage σ α κ)] [LawfulStore S (IpcMessage σ α κ)]
  (host : Host σ α κ) (now : Nat) {acked : Nat} {d d' : SyncDriver σ α κ (Outbox S)}
  {frames : List (Nat × IpcMessage σ α κ)} {all : List (IpcMessage σ α κ)}
  {sends : List (IpcMessage σ α κ × Bool)}

/-- The frames enqueued so far are kept, and the outbox has heard of every acknowledgement. -/
def Keeps (frames : List (Nat × IpcMessage σ α κ)) (acked : Nat)
    (d : SyncDriver σ α κ (Outbox S)) : Prop :=
  d.outbox.Sound ∧ Retains frames d.outbox.contents d.pending d.peerAckedThrough ∧
    d.outbox.contents.cursor = acked

/-- The epochs of the frames are such that the outbox can keep them. -/
def Storable (S : Type) [OutboxStore S (IpcMessage σ α κ)] [LawfulStore S (IpcMessage σ α κ)]
    (frames : List (Nat × IpcMessage σ α κ)) : Prop :=
  ∀ p ∈ frames, p.1 < UInt64.size - 1 ∧ Fits S p.1

/-! ## The outbound half of a tick -/

/-- The driver has sent on: what is kept is kept, and the sends are in order up to `rest`. -/
def Sent (frames : List (Nat × IpcMessage σ α κ)) (acked : Nat) (all : List (IpcMessage σ α κ))
    (before : List (IpcMessage σ α κ × Bool)) (d d' : SyncDriver σ α κ (Outbox S)) : Prop :=
  ∃ sends, d'.log = d.log ++ sends ∧ Keeps frames acked d' ∧
    Ordered all (before ++ sends) (d'.pending.map (·.2)) ∧
    (Accepted (before ++ sends) → d'.replayPending = d.replayPending)

/-- After one send. -/
theorem Sent.cons {d₁ : SyncDriver σ α κ (Outbox S)} {p : IpcMessage σ α κ × Bool}
    (h : Sent frames acked all (sends ++ [p]) d₁ d') (hlog : d₁.log = d.log ++ [p])
    (hrep : d₁.replayPending = d.replayPending) : Sent frames acked all sends d d' := by
  obtain ⟨rest, hlog', hkeeps, hord, hrep'⟩ := h
  rw [append_assoc] at hord hrep'
  exact ⟨p :: rest, by rw [hlog', hlog, append_assoc]; rfl, hkeeps, hord,
    fun h => (hrep' h).trans hrep⟩

/-- After a failed send. -/
theorem Sent.failed {msg : IpcMessage σ α κ} {rest : List (IpcMessage σ α κ)}
    (hlog : d'.log = d.log ++ [(msg, false)]) (hkeeps : Keeps frames acked d')
    (hord : Ordered all sends (msg :: rest)) : Sent frames acked all sends d d' :=
  ⟨_, hlog, hkeeps, hord.send false (by simp), fun h => by simpa using h (msg, false)⟩

theorem Sent.refl (hkeeps : Keeps frames acked d) (hord : Ordered all sends (d.pending.map (·.2))) :
    Sent frames acked all sends d d :=
  ⟨[], by simp, hkeeps, by simpa using hord, fun _ => rfl⟩

variable {l : List (Nat × IpcMessage σ α κ)}

section

variable (hk : Keeps frames acked d)
include hk

theorem sent_replayLoop (h : Ordered all sends ((l ++ d.pending).map (·.2))) (sent : Nat) :
    Sent frames acked all sends d (replayLoop host now l d sent).1 := by
  induction l generalizing d sends sent with
  | nil => exact .refl hk h
  | cons p l ih =>
    cases hok : host.accepts d.log.length p.2 <;> simp only [replayLoop, send, hok]
    · exact .failed rfl hk h
    · exact (ih (d := { d with log := d.log ++ [(p.2, true)] }) hk (h.send true fun _ => rfl)
        (sent + 1)).cons rfl rfl

variable (hsmall : Storable S frames)
include hsmall

theorem sent_drainLoop (hasc : EpochsAscend frames) (hp : d.pending = l)
    (h : Ordered all sends (l.map (·.2))) (sent : Nat) :
    Sent frames acked all sends d (drainLoop host now l d sent).1 := by
  induction l generalizing d sends sent with
  | nil => exact .refl hk (hp ▸ h)
  | cons p l ih =>
    have hput : Keeps frames acked
        { d with outbox := append d.outbox p.1 p.2, pending := l } := by
      obtain ⟨hsound, hretains, hacked⟩ := hk
      obtain ⟨hsound', hcontents⟩ := hsound.append (hsmall p (hretains.mem (by simp [hp]))).2 p.2
      refine ⟨hsound', ?_⟩
      rw [show (append d.outbox p.1 p.2).contents = _ from hcontents]
      exact ⟨(hp ▸ hretains).append hasc fun q hq => (hsmall q hq).1, hacked⟩
    cases hok : host.accepts d.log.length p.2 <;> simp only [drainLoop, send, hok]
    · exact .failed rfl hput h
    · refine (ih ?_ rfl (h.send true fun _ => rfl) (sent + 1)).cons rfl rfl
      exact hput

/-- What the driver has still to send. -/
def due (d : SyncDriver σ α κ (Outbox S)) : List (Nat × IpcMessage σ α κ) :=
  (if d.replayPending then replayFrom d.outbox d.peerAckedThrough else []) ++ d.pending

theorem sent_outbound (hasc : EpochsAscend frames) (h : Ordered all sends (d.due.map (·.2))) :
    Sent frames acked all sends { d with replayPending := false } (d.outbound host now).1 := by
  obtain ⟨first, hlog, hkeeps, hord, hrep⟩ :
      Sent frames acked all sends { d with replayPending := false } (d.replay host now).1 := by
    unfold replay
    split
    · rename_i hr
      exact sent_replayLoop (d := { d with replayPending := false }) host now hk
        (by simpa [due, hr] using h) 0
    · rename_i hr
      exact ⟨[], by simp, hk, by simpa [due, hr] using h, fun _ => by simpa using hr⟩
  unfold outbound drain
  split
  · obtain ⟨second, hlog', hkeeps', hord', hrep'⟩ := sent_drainLoop host now hkeeps
      hsmall hasc rfl hord (d.replay host now).2
    rw [append_assoc] at hord' hrep'
    refine ⟨first ++ second, by rw [hlog', hlog, append_assoc], hkeeps', hord', fun hok => ?_⟩
    refine (hrep' hok).trans (hrep fun p hp => hok p ?_)
    rw [← append_assoc]
    exact mem_append_left _ hp
  · exact ⟨first, hlog, hkeeps, hord, hrep⟩

end

/-! ## The inbound half -/

/-- The outbox after an inbound frame. -/
def prune (o : Outbox S) : IpcMessage σ α κ → Outbox S
  | .outboxAck throughEpoch => DurableOutbox.ackThrough o throughEpoch
  | _ => o

/-- The driver has read `msgs`. -/
structure Routes (msgs : List (IpcMessage σ α κ)) (d d' : SyncDriver σ α κ (Outbox S)) : Prop where
  pending : d'.pending = d.pending
  replayPending : d'.replayPending = d.replayPending
  outbox : d'.outbox = msgs.foldl prune d.outbox
  acked : d'.peerAckedThrough = msgs.foldl ackedBy d.peerAckedThrough

omit [LawfulStore S (IpcMessage σ α κ)] in
theorem routes_receive (p : Progress σ α κ) (msg : IpcMessage σ α κ) :
    Routes [msg] d (receive host now (d, p) msg).1 := by
  have hstate : ∀ msg, (∀ o : Outbox S, prune o msg = o) → (∀ n, ackedBy n msg = n) →
      Routes [msg] d (receiveState host now d p msg).1 := fun msg ho ha => by
    unfold receiveState
    split
    · exact ⟨rfl, rfl, (ho _).symm, (ha _).symm⟩
    · cases hok : host.accepts d.log.length (.resyncRequest ‹Nat›) <;> simp only [send, hok] <;>
        exact ⟨rfl, rfl, (ho _).symm, (ha _).symm⟩
    · exact ⟨rfl, rfl, (ho _).symm, (ha _).symm⟩
  cases msg with
  | snapshot s => exact hstate _ (fun _ => rfl) fun _ => rfl
  | delta e => exact hstate _ (fun _ => rfl) fun _ => rfl
  | resyncRequest e =>
    cases hok : host.accepts d.log.length (host.snapshot e) <;> simp only [receive, send, hok] <;>
      exact ⟨rfl, rfl, rfl, rfl⟩
  | outboxAck e => exact ⟨rfl, rfl, rfl, rfl⟩
  | crdtSync e => exact ⟨rfl, rfl, rfl, rfl⟩
  | deltaSinceRequest e => exact ⟨rfl, rfl, rfl, rfl⟩

omit [LawfulStore S (IpcMessage σ α κ)] in
theorem routes_receiveAll : ∀ (msgs : List (IpcMessage σ α κ)) (d : SyncDriver σ α κ (Outbox S))
    (p : Progress σ α κ), Routes msgs d (msgs.foldl (receive host now) (d, p)).1
  | [], _, _ => ⟨rfl, rfl, rfl, rfl⟩
  | msg :: msgs, d, p => by
    have hone := routes_receive host now (d := d) p msg
    have hall := routes_receiveAll msgs (receive host now (d, p) msg).1
      (receive host now (d, p) msg).2
    exact ⟨hall.pending.trans hone.pending, hall.replayPending.trans hone.replayPending,
      hall.outbox.trans (congrArg (msgs.foldl prune) hone.outbox),
      hall.acked.trans (congrArg (msgs.foldl ackedBy) hone.acked)⟩

omit [LawfulStore S (IpcMessage σ α κ)] in
theorem routes_tick (inbound : Inbound σ α κ ε) :
    Routes inbound.frames (d.outbound host now).1 (d.tick host now inbound).1 := by
  have hall := routes_receiveAll host now inbound.frames (d.outbound host now).1
    { Progress.default with sent := (d.outbound host now).2 }
  obtain ⟨msgs, _ | err⟩ := inbound
  · have hadv : ∀ d : SyncDriver σ α κ (Outbox S), (d.advertise host).pending = d.pending ∧
        (d.advertise host).replayPending = d.replayPending ∧
        (d.advertise host).outbox = d.outbox ∧
        (d.advertise host).peerAckedThrough = d.peerAckedThrough := fun d => by
      unfold advertise
      split
      · cases hok : host.accepts d.log.length d.coordinator.ack <;> simp [send, hok]
      · simp
    obtain ⟨h1, h2, h3, h4⟩ := hadv (receiveAll host now ⟨msgs, none⟩ d).1
    exact ⟨h1.trans hall.pending, h2.trans hall.replayPending, h3.trans hall.outbox,
      h4.trans hall.acked⟩
  · exact hall

theorem keeps_prune (h : Keeps frames acked d) (msgs : List (IpcMessage σ α κ))
    (hfits : ∀ e, .outboxAck e ∈ msgs → Fits S e) :
    (msgs.foldl prune d.outbox).Sound ∧
      Retains frames (msgs.foldl prune d.outbox).contents d.pending
        (msgs.foldl ackedBy d.peerAckedThrough) ∧
      (msgs.foldl prune d.outbox).contents.cursor = msgs.foldl ackedBy acked := by
  induction msgs using reverseRecOn with
  | nil => exact h
  | append_singleton msgs msg ih =>
    obtain ⟨hsound, hretains, hacked⟩ := ih fun e he => hfits e (mem_append_left _ he)
    simp only [foldl_append, foldl_cons, foldl_nil]
    cases msg with
    | outboxAck e =>
      obtain ⟨hsound', hcontents⟩ := hsound.ackThrough (hfits e (by simp))
      refine ⟨hsound', ?_⟩
      simp only [prune, DurableOutbox.ackThrough]
      rw [hcontents]
      exact ⟨hretains.ackThrough e, by rw [hacked]; rfl⟩
    | _ => exact ⟨hsound, hretains, hacked⟩

/-! ## Runs -/

section

variable (hk : Keeps frames acked d)
include hk

/-- A tick, with the sends in order from some point on. -/
theorem sent_tick (hasc : EpochsAscend frames) (hsmall : Storable S frames)
    (h : Ordered all sends (d.due.map (·.2))) {inbound : Inbound σ α κ ε}
    (hfits : ∀ e ∈ (Action.tick now inbound).epochs, Fits S e) :
    Keeps frames (inbound.frames.foldl ackedBy acked) (d.tick host now inbound).1 ∧
      Ordered all (sends ++ (d.outbound host now).1.log.drop d.log.length)
        ((d.tick host now inbound).1.due.map (·.2)) ∧
      (Accepted (sends ++ (d.outbound host now).1.log.drop d.log.length) →
        (d.tick host now inbound).1.replayPending = false) := by
  obtain ⟨out, hlog, hkeeps, hord, hrep⟩ := sent_outbound host now hk hsmall hasc h
  have hr := routes_tick host now (d := d) inbound
  have hp := keeps_prune hkeeps inbound.frames fun e he => hfits e (mem_filterMap.2 ⟨_, he, rfl⟩)
  rw [← hr.outbox, ← hr.acked, ← hr.pending] at hp
  have hdrop : (d.outbound host now).1.log.drop d.log.length = out := by simp [hlog]
  rw [hdrop]
  refine ⟨hp, ⟨hord.upToFailure, fun hok => ?_⟩, fun hok => hr.replayPending.trans (hrep hok)⟩
  rw [due, hr.replayPending, hrep hok, hr.pending, ← hord.going hok]
  rfl

theorem keeps_step {a : Action σ α κ ε} (hasc : EpochsAscend frames) (hsmall : Storable S frames)
    (hfits : ∀ e ∈ a.epochs, Fits S e) :
    Keeps (frames ++ a.frame) (a.acks acked) (d.step host a) := by
  cases a with
  | enqueue epoch msg => exact ⟨hk.1, hk.2.1.enqueue (epoch, msg), hk.2.2⟩
  | onReconnect =>
    rw [Action.frame, append_nil]
    exact hk
  | tick now inbound =>
    rw [Action.frame, append_nil]
    exact (sent_tick host now hk hasc hsmall (.start _) hfits).1

theorem keeps_run {actions : List (Action σ α κ ε)}
    (hasc : EpochsAscend (frames ++ enqueued actions))
    (hsmall : Storable S (frames ++ enqueued actions))
    (hfits : ∀ a ∈ actions, ∀ e ∈ a.epochs, Fits S e) :
    Keeps (frames ++ enqueued actions) (acknowledged acked actions) (d.run host actions) := by
  induction actions generalizing frames acked d with
  | nil =>
    rw [enqueued, flatMap_nil, append_nil]
    exact hk
  | cons a actions ih =>
    rw [enqueued, flatMap_cons, ← append_assoc] at hasc hsmall ⊢
    obtain ⟨ha, hfits⟩ := forall_mem_cons.1 hfits
    refine ih (keeps_step host hk ?_ (fun p hp => hsmall p (by simp [hp])) ha) hasc hsmall hfits
    exact (pairwise_append.1 (pairwise_append.1 hasc).1).1

/-- From a reconnect on, until the next one. -/
theorem ordered_run {after : List (Action σ α κ ε)} (hasc : EpochsAscend (frames ++ enqueued after))
    (hsmall : Storable S (frames ++ enqueued after)) (hno : .onReconnect ∉ after)
    (hfits : ∀ a ∈ after, ∀ e ∈ a.epochs, Fits S e) (h : Ordered all sends (d.due.map (·.2))) :
    Ordered (all ++ (enqueued after).map (·.2)) (sends ++ d.backed host after)
        ((d.run host after).due.map (·.2)) ∧
      (Accepted (sends ++ d.backed host after) → (d.run host after).replayPending =
        (d.replayPending && !after.any Action.isTick)) := by
  induction after generalizing frames acked all sends d with
  | nil =>
    simp only [enqueued, flatMap_nil, map_nil, append_nil, backed]
    exact ⟨h, fun _ => (Bool.and_true _).symm⟩
  | cons a after ih =>
    obtain ⟨ha, hfits⟩ := forall_mem_cons.1 hfits
    have hasc' : EpochsAscend frames := (pairwise_append.1 hasc).1
    have hsmall' : Storable S frames := fun p hp => hsmall p (by simp [hp])
    have hstep : Ordered (all ++ a.frame.map (·.2)) (sends ++ d.backedBy host a)
        ((d.step host a).due.map (·.2)) ∧ (Accepted (sends ++ d.backedBy host a) →
          (d.step host a).replayPending = (d.replayPending && !a.isTick)) := by
      cases a with
      | onReconnect => exact absurd mem_cons_self hno
      | enqueue epoch msg =>
        have hdue : (d.enqueue epoch msg).due = d.due ++ [(epoch, msg)] := (append_assoc ..).symm
        rw [step, hdue, map_append, backedBy, append_nil]
        exact ⟨h.fresh _, fun _ => (Bool.and_true _).symm⟩
      | tick now inbound =>
        obtain ⟨-, hord, hrep⟩ := sent_tick host now hk hasc' hsmall' h ha
        rw [Action.frame, map_nil, append_nil]
        exact ⟨hord, fun hok => (hrep hok).trans (Bool.and_false _).symm⟩
    have hkeeps := keeps_step host hk hasc' hsmall' ha
    rw [enqueued, flatMap_cons, ← append_assoc] at hasc hsmall
    obtain ⟨hord, hrep⟩ := ih hkeeps hasc hsmall (fun h => hno (mem_cons_of_mem _ h)) hfits
      hstep.1
    rw [append_assoc, append_assoc, ← map_append] at hord
    rw [append_assoc] at hrep
    refine ⟨hord, fun hok => (hrep hok).trans ?_⟩
    rw [hstep.2 fun p hp => hok p (by rw [backed, ← append_assoc]; exact mem_append_left _ hp)]
    simp [Bool.and_assoc]

end

/-- What the outbox would replay. -/
def retained [DurableOutbox O (IpcMessage σ α κ)] (d : SyncDriver σ α κ O) :
    List (Nat × IpcMessage σ α κ) :=
  DurableOutbox.replayFrom d.outbox d.peerAckedThrough

theorem Keeps.retained (h : Keeps frames acked d) : EpochsAscend d.retained ∧
    (∀ p, p ∈ d.retained ↔ p ∈ d.outbox.contents.entries ∧ acked < p.1) ∧
    d.retained.map (·.1) = retainedEpochs d.outbox := by
  obtain ⟨hsound, hretains, hacked⟩ := h
  have hmax : max d.peerAckedThrough d.outbox.contents.cursor = d.outbox.contents.cursor :=
    max_eq_right hretains.acked
  have hscan : d.retained = OutboxStore.scanAfter d.outbox.contents acked := by
    have hfits : LawfulStore.Fits S (max d.peerAckedThrough d.outbox.contents.cursor) := by
      rw [hmax]
      exact hsound.fits
    have hreplay := hsound.replayFrom hfits
    rwa [hmax, hacked] at hreplay
  refine ⟨hscan ▸ hretains.ascend.filter _, fun p => ?_, ?_⟩
  · rw [hscan]
    constructor
    · intro hp
      exact (Retains.mem_scanAfter (hretains.small p (mem_filter.1 hp).1) acked).1 hp
    · intro hp
      exact (Retains.mem_scanAfter (hretains.small p hp.1) acked).2 hp
  · rw [hscan, ← hacked]
    exact hsound.retainedEpochs.symm

/-- A driver that has reconnected, with `acked` acknowledged, through the actions that follow. -/
structure Resumes [DurableOutbox O (IpcMessage σ α κ)] (host : Host σ α κ) (acked : Nat)
    (d : SyncDriver σ α κ O) (after : List (Action σ α κ ε)) : Prop where
  ascend : EpochsAscend d.retained
  unacked : ∀ p ∈ d.retained, acked < p.1
  whole : d.retained.map (·.1) = DurableOutbox.retainedEpochs d.outbox
  /-- What is accepted up to the next failure. -/
  inOrder : upToFailure (d.backed host after) <+:
    (d.retained ++ d.pending ++ enqueued after).map (·.2)
  /-- Without a failure, all of it from the first tick on, but for what is still in the queue. -/
  complete : Accepted (d.backed host after) → after.any Action.isTick = true →
    (d.backed host after).map (·.1) ++ (d.run host after).pending.map (·.2) =
      (d.retained ++ d.pending ++ enqueued after).map (·.2)

/-- What a driver, started with `acked` acknowledged, owes its peer in a run. -/
structure AtLeastOnce [DurableOutbox O (IpcMessage σ α κ)] (host : Host σ α κ) (acked : Nat)
    (d : SyncDriver σ α κ O) (actions : List (Action σ α κ ε)) : Prop where
  kept : ∀ p ∈ enqueued actions, acknowledged acked actions < p.1 →
    p ∈ (d.run host actions).pending ∨ p ∈ (d.run host actions).retained
  resumes : ∀ before after, actions = before ++ .onReconnect :: after → .onReconnect ∉ after →
    Resumes host (acknowledged acked before) (d.run host before).onReconnect after

theorem atLeastOnce_of_lawful {outbox : Outbox S} (hsound : outbox.Sound) (lastEpoch : Nat)
    (hstored : EpochsAscend outbox.contents.entries)
    (hepochs : ∀ p ∈ outbox.contents.entries, p.1 < UInt64.size - 1)
    {actions : List (Action σ α κ ε)} (hasc : EpochsAscend (enqueued actions))
    (hsmall : ∀ p ∈ enqueued actions, p.1 < UInt64.size - 1)
    (hfits : ∀ a ∈ actions, ∀ e ∈ a.epochs, Fits S e) :
    AtLeastOnce host outbox.contents.cursor (withEpoch outbox lastEpoch) actions := by
  have hstart : Keeps [] outbox.contents.cursor
      (withEpoch outbox lastEpoch : SyncDriver σ α κ (Outbox S)) :=
    ⟨hsound, ⟨hstored, hepochs, zero_le _, [], rfl, fun _ hp => nomatch hp⟩, rfl⟩
  have hstorable : Storable S (enqueued actions) := by
    intro p hp
    obtain ⟨a, ha, hpa⟩ := mem_flatMap.1 hp
    refine ⟨hsmall p hp, hfits a ha p.1 ?_⟩
    cases a with
    | enqueue epoch msg => simp_all [Action.frame, Action.epochs]
    | onReconnect | tick => cases hpa
  refine ⟨fun p hp hlt => ?_, ?_⟩
  · have hk := keeps_run host hstart hasc hstorable hfits
    obtain ⟨done, hframes, hdone⟩ := hk.2.1.kept
    rw [hk.2.2] at hdone
    rw [nil_append] at hframes
    rcases mem_append.1 (hframes ▸ hp) with hp | hp
    · exact .inr ((hk.retained.2.1 p).2 ⟨hdone p hp hlt, hlt⟩)
    · exact .inl hp
  · rintro before after rfl hno
    have hsplit :
        enqueued (before ++ .onReconnect :: after) = enqueued before ++ enqueued after := by
      rw [enqueued, flatMap_append]
      rfl
    rw [hsplit] at hasc hstorable
    obtain ⟨hbefore, hafter⟩ := forall_mem_append.1 hfits
    have hk :
        Keeps (enqueued before) _ (((withEpoch outbox lastEpoch).run host before).onReconnect) :=
      keeps_run host hstart (pairwise_append.1 hasc).1
        (fun p hp => hstorable p (mem_append_left _ hp)) hbefore
    obtain ⟨hascend, hmem, hwhole⟩ := hk.retained
    obtain ⟨hord, hrep⟩ := ordered_run host hk hasc hstorable hno (forall_mem_cons.1 hafter).2
      (.start _)
    rw [← map_append, nil_append] at hord
    refine ⟨hascend, fun p hp => ((hmem p).1 hp).2, hwhole, hord.upToFailure, fun hok ht => ?_⟩
    have heq := hord.going hok
    rw [due, hrep hok, ht, Bool.not_true, Bool.and_false] at heq
    exact heq

end Run

/-- **At least once.** A run from a driver over any store, in memory or, while all its epochs are
below `2 ^ 63`, over SQLite, with any frames of the peer and any answers of the sink: every enqueued
frame that is not acknowledged is pending or retained, and what follows a reconnect is in order. -/
theorem at_least_once (host : Host σ α κ) (m : InMemoryStore (IpcMessage σ α κ)) (lastEpoch : Nat)
    (hstored : EpochsAscend m.entries) (hepochs : ∀ p ∈ m.entries, p.1 < UInt64.size - 1)
    (actions : List (Action σ α κ ε)) (hasc : EpochsAscend (enqueued actions))
    (hsmall : ∀ p ∈ enqueued actions, p.1 < UInt64.size - 1) :
    AtLeastOnce host m.cursor (withEpoch (Outbox.withStore m) lastEpoch) actions ∧
      ∀ s : SqliteStore (IpcMessage σ α κ), SameStore m s →
        (∀ a ∈ actions, ∀ e ∈ a.epochs, e < UInt64.size / 2) →
        AtLeastOnce host m.cursor (withEpoch (Outbox.withStore s) lastEpoch) actions := by
  refine ⟨?_, fun s hsame hfits => ?_⟩
  · have hsound : (Outbox.withStore m).Sound := Outbox.sound_withStore trivial
    exact atLeastOnce_of_lawful host hsound lastEpoch hstored hepochs hasc hsmall
      fun _ _ _ _ => trivial
  · have hcontents := hsame.contents
    subst hcontents
    have hsound : (Outbox.withStore s).Sound := Outbox.sound_withStore hsame
    exact atLeastOnce_of_lawful host hsound lastEpoch hstored hepochs hasc hsmall hfits

/-- A frame that the sink refused goes first after the reconnect, over both stores. -/
theorem at_least_once_refused :
    let host := flakyHost (· == 0)
    let before : List (Action Nat Nat Unit Unit) :=
      [.enqueue 1 (.delta ⟨0, 1, []⟩), .tick 0 ⟨[.outboxAck 0], none⟩,
        .enqueue 2 (.delta ⟨1, 2, []⟩)]
    let after : List (Action Nat Nat Unit Unit) := [.tick 1 ⟨[], none⟩]
    let sqlite : SyncDriver Nat Nat Unit (Outbox (SqliteStore (IpcMessage Nat Nat Unit))) :=
      .withEpoch (.withStore emptySqlite) 0
    (sqlite.run host before).onReconnect.retained.map (·.1) = [1] ∧
      AtLeastOnce host 0 freshDriver (before ++ .onReconnect :: after) ∧
      AtLeastOnce host 0 sqlite (before ++ .onReconnect :: after) := by
  intro host before after sqlite
  have hboth := at_least_once host (emptyMemory : InMemoryStore (IpcMessage Nat Nat Unit)) 0 .nil
    (fun _ hp => nomatch hp) (before ++ .onReconnect :: after)
    (by simp [before, after, enqueued, Action.frame, EpochsAscend])
    (by simp [before, after, enqueued, Action.frame, UInt64.size])
  refine ⟨by decide +kernel, hboth.1, hboth.2 emptySqlite sound_emptySqlite ?_⟩
  simp [before, after, Action.epochs, UInt64.size]

/-- Under the epoch `2 ^ 63` a drained frame is neither pending nor retained by the SQLite outbox,
though nothing is acknowledged. -/
theorem large_epoch_lost :
    let actions : List (Action Nat Nat Unit Unit) :=
      [.enqueue (UInt64.size / 2) (.delta ⟨0, 1, []⟩), .tick 0 ⟨[], none⟩]
    let sqlite : SyncDriver Nat Nat Unit (Outbox (SqliteStore (IpcMessage Nat Nat Unit))) :=
      .withEpoch (.withStore emptySqlite) 0
    let d := sqlite.run (flakyHost fun _ => false) actions
    enqueued actions = [(UInt64.size / 2, .delta ⟨0, 1, []⟩)] ∧ acknowledged 0 actions = 0 ∧
      d.pending = [] ∧ d.retained = [] := by
  decide +kernel

end SyncDriver

end Lazily.Sync
