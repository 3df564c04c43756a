import Lazily.Sync.Coordinator

/-!
# The receiver's projection

A sender's history is a chain of deltas, each from the epoch the one before it leads to. Deltas and
snapshots of it are delivered with loss, duplication and reordering, in any interleaving with
foreign frames. `receiver_projects`: a receiver that folds exactly the accepted frames is at every
moment in the sender's state at its own `lastEpoch`. What its state holds is an initial part of the
sender's deltas, each once; those it folded itself since it last adopted a full state are the end of
that part.
-/

namespace Lazily.Sync

open List ResyncCoordinator Nat

variable {σ α κ : Type}

/-- Each delta starts at the epoch that has been reached and advances it. -/
def Consecutive : Nat → List (Delta α) → Prop
  | _, [] => True
  | e, d :: ds => d.baseEpoch = e ∧ e < d.epoch ∧ Consecutive d.epoch ds

def endEpoch (e : Nat) (ds : List (Delta α)) : Nat := ds.foldl (fun _ d => d.epoch) e

def replay (step : σ → α → σ) (s : σ) (ds : List (Delta α)) : σ :=
  ds.foldl (fun s d => d.ops.foldl step s) s

/-- A sender: its first epoch with the state there, and its deltas. -/
structure History (σ α : Type) where
  start : Nat
  init : σ
  deltas : List (Delta α)
  consecutive : Consecutive start deltas

/-- The state that a chain of deltas has at an epoch it passes. -/
def stateAtFrom (step : σ → α → σ) (e : Nat) : Nat → σ → List (Delta α) → Option σ
  | e₀, s, [] => if e = e₀ then some s else none
  | e₀, s, d :: ds =>
    if e = e₀ then some s else stateAtFrom step e d.epoch (d.ops.foldl step s) ds

def History.stateAt (H : History σ α) (step : σ → α → σ) (e : Nat) : Option σ :=
  stateAtFrom step e H.start H.init H.deltas

/-- The frames of state that the sender may send; frames of other planes are not restricted. -/
def History.Sends (H : History σ α) (step : σ → α → σ) : IpcMessage σ α κ → Prop
  | .delta d => d ∈ H.deltas
  | .snapshot s => ∃ pre, pre <+: H.deltas ∧ s.epoch = endEpoch H.start pre ∧
      s.image = replay step H.init pre
  | _ => True

/-- A receiver: its coordinator, its projection, and the deltas it folded since it last adopted a
full state. -/
structure Receiver (σ α : Type) where
  coordinator : ResyncCoordinator
  state : σ
  folded : List (Delta α)

/-- Fold the frame if the coordinator accepts it. -/
def Receiver.receive (step : σ → α → σ) (r : Receiver σ α) (msg : IpcMessage σ α κ) :
    Receiver σ α :=
  match r.coordinator.ingest msg with
  | (c, .apply) =>
    match msg with
    | .snapshot s => ⟨c, s.image, []⟩
    | .delta d => ⟨c, d.ops.foldl step r.state, r.folded ++ [d]⟩
    | _ => { r with coordinator := c }
  | (c, _) => { r with coordinator := c }

def Receiver.run (step : σ → α → σ) (r : Receiver σ α) (frames : List (IpcMessage σ α κ)) :
    Receiver σ α :=
  frames.foldl (Receiver.receive step) r

/-! ## Chains of deltas -/

section Chain

variable {step : σ → α → σ} {e : Nat} {ds pre : List (Delta α)} {d : Delta α}

theorem endEpoch_append (ds ds' : List (Delta α)) :
    endEpoch e (ds ++ ds') = endEpoch (endEpoch e ds) ds' :=
  foldl_append

theorem replay_append (s : σ) (ds ds' : List (Delta α)) :
    replay step s (ds ++ ds') = replay step (replay step s ds) ds' :=
  foldl_append

theorem Consecutive.append : ∀ {ds ds' : List (Delta α)} {e : Nat}, Consecutive e (ds ++ ds') →
    Consecutive e ds ∧ Consecutive (endEpoch e ds) ds'
  | [], _, _, h => ⟨trivial, h⟩
  | _ :: _, _, _, h =>
    have h' := h.2.2.append
    ⟨⟨h.1, h.2.1, h'.1⟩, h'.2⟩

theorem Consecutive.le_endEpoch : ∀ {ds : List (Delta α)} {e : Nat}, Consecutive e ds →
    e + ds.length ≤ endEpoch e ds
  | [], _, _ => le_refl _
  | d :: ds, e, h => by
    have := h.2.2.le_endEpoch
    have := h.2.1
    rw [length_cons]
    show _ ≤ endEpoch d.epoch ds
    omega

/-- Epochs tell the initial parts of a chain apart. -/
theorem Consecutive.prefix_inj (h : Consecutive e ds) {p p' : List (Delta α)} (hp : p <+: ds)
    (hp' : p' <+: ds) (heq : endEpoch e p = endEpoch e p') : p = p' := by
  have longer : ∀ q t : List (Delta α), q ++ t <+: ds → endEpoch e q = endEpoch e (q ++ t) →
      q = q ++ t := by
    rintro q t ⟨rest, rfl⟩ hqt
    have := h.append.1.append.2.le_endEpoch
    rw [endEpoch_append] at hqt
    rw [length_eq_zero_iff.1 (show t.length = 0 by omega), append_nil]
  obtain ⟨t, rfl⟩ | ⟨t, rfl⟩ := prefix_or_prefix_of_prefix hp hp'
  · exact longer p t hp' heq
  · exact (longer p' t hp heq.symm).symm

/-- A delta of the chain comes right after the part that leads to its base. -/
theorem Consecutive.next (h : Consecutive e ds) (hpre : pre <+: ds) (hd : d ∈ ds)
    (hbase : d.baseEpoch = endEpoch e pre) : pre ++ [d] <+: ds := by
  obtain ⟨a, b, rfl⟩ := append_of_mem hd
  have ha : a <+: a ++ d :: b := prefix_append a _
  have heq : pre = a := h.prefix_inj hpre ha (hbase.symm.trans h.append.2.1)
  exact ⟨b, by simp [heq]⟩

theorem stateAtFrom_endEpoch : ∀ {pre ds : List (Delta α)} {e : Nat} {s : σ},
    Consecutive e ds → pre <+: ds →
      stateAtFrom step (endEpoch e pre) e s ds = some (replay step s pre)
  | [], ds, e, s, _, _ => by
    cases ds <;> simp [stateAtFrom, endEpoch, replay]
  | d :: pre, ds, e, s, h, hpre => by
    obtain ⟨rest, rfl⟩ := hpre
    have hlt : e < endEpoch e (d :: pre) := by
      have := h.2.2.append.1.le_endEpoch
      have := h.2.1
      show e < endEpoch d.epoch pre
      omega
    rw [cons_append, stateAtFrom, if_neg (by omega)]
    exact stateAtFrom_endEpoch h.2.2 (prefix_append pre rest)

theorem Consecutive.nodup : ∀ {ds : List (Delta α)} {e : Nat}, Consecutive e ds → ds.Nodup
  | [], _, _ => nodup_nil
  | d :: ds, e, h => by
    refine nodup_cons.2 ⟨fun hd => ?_, h.2.2.nodup⟩
    -- a second occurrence would start where the chain has long passed
    obtain ⟨a, b, rfl⟩ := append_of_mem hd
    have := h.2.2.append.1.le_endEpoch
    have := h.2.2.append.2.1
    have := h.1
    have := h.2.1
    omega

end Chain

/-! ## The receiver's invariant -/

section Run

variable {step : σ → α → σ} {H : History σ α} {r : Receiver σ α} {msg : IpcMessage σ α κ}

/-- The receiver holds an initial part of the history. -/
def Receiver.Projects (step : σ → α → σ) (H : History σ α) (r : Receiver σ α) : Prop :=
  ∃ pre, pre ++ r.folded <+: H.deltas ∧
    r.coordinator.lastEpoch = endEpoch H.start (pre ++ r.folded) ∧
    r.state = replay step H.init (pre ++ r.folded)

theorem Receiver.Projects.receive (h : r.Projects step H) (hsend : H.Sends step msg) :
    (r.receive step msg).Projects step H := by
  obtain ⟨pre, hpre, hlast, hstate⟩ := h
  cases msg with
  | snapshot s =>
    obtain ⟨pre', hpre', hepoch, himage⟩ := hsend
    exact ⟨pre', by simpa [Receiver.receive, ingest, ingestSnapshot] using ⟨hpre', hepoch, himage⟩⟩
  | delta d =>
    obtain ⟨⟨c', action⟩, hin⟩ : ∃ p, r.coordinator.ingestDelta d = p := ⟨_, rfl⟩
    obtain ⟨hbase, rfl, rfl⟩ | ⟨rfl, rfl⟩ | ⟨rfl, rfl⟩ := ingestDelta_cases hin
    · refine ⟨pre, ?_, ?_, ?_⟩
      all_goals simp only [Receiver.receive, ingest, hin, ← append_assoc]
      · exact H.consecutive.next hpre hsend (hbase.trans hlast)
      · rw [endEpoch_append]
        rfl
      · rw [replay_append, ← hstate]
        rfl
    · exact ⟨pre, by simpa [Receiver.receive, ingest, hin] using ⟨hpre, hlast, hstate⟩⟩
    · exact ⟨pre, by simpa [Receiver.receive, ingest, hin] using ⟨hpre, hlast, hstate⟩⟩
  | crdtSync _ => exact ⟨pre, hpre, hlast, hstate⟩
  | resyncRequest _ => exact ⟨pre, hpre, hlast, hstate⟩
  | outboxAck _ => exact ⟨pre, hpre, hlast, hstate⟩
  | deltaSinceRequest _ => exact ⟨pre, hpre, hlast, hstate⟩

theorem Receiver.Projects.run : ∀ {frames : List (IpcMessage σ α κ)} {r : Receiver σ α},
    r.Projects step H → (∀ msg ∈ frames, H.Sends step msg) → (r.run step frames).Projects step H
  | [], _, h, _ => h
  | msg :: _, _, h, hsend =>
    (h.receive (hsend msg mem_cons_self)).run fun m hm => hsend m (mem_cons_of_mem msg hm)

end Run

/-- **Exactly-once effect.** A receiver that resumes at a point of the history and is delivered
frames of it, in any order and number, is in the sender's state at its last epoch. That state holds
an initial part of the sender's deltas, each once, and ends with those folded since the last full
state. -/
theorem receiver_projects (step : σ → α → σ) (H : History σ α) {resume : List (Delta α)}
    (hresume : resume <+: H.deltas) (frames : List (IpcMessage σ α κ))
    (hsend : ∀ msg ∈ frames, H.Sends step msg) :
    let r := Receiver.run step ⟨.withEpoch (endEpoch H.start resume),
      replay step H.init resume, []⟩ frames
    H.stateAt step r.coordinator.lastEpoch = some r.state ∧
      ∃ pre, pre ++ r.folded <+: H.deltas ∧ (pre ++ r.folded).Nodup ∧
        r.coordinator.lastEpoch = endEpoch H.start (pre ++ r.folded) ∧
        r.state = replay step H.init (pre ++ r.folded) := by
  have hstart : Receiver.Projects step H ⟨.withEpoch (endEpoch H.start resume),
      replay step H.init resume, []⟩ :=
    ⟨resume, by simpa using hresume, by simp [withEpoch], by simp⟩
  obtain ⟨pre, hpre, hlast, hstate⟩ := hstart.run hsend
  refine ⟨?_, pre, hpre, H.consecutive.nodup.sublist hpre.sublist, hlast, hstate⟩
  rw [History.stateAt, hlast, hstate]
  exact stateAtFrom_endEpoch H.consecutive hpre

/-- A gap, the snapshot that closes it, a stale delta and a stale snapshot. -/
theorem receiver_projects_gap :
    let H : History Nat Nat := ⟨0, 0, [⟨0, 1, [5]⟩, ⟨1, 3, [6, 7]⟩, ⟨3, 4, [8]⟩],
      ⟨rfl, Nat.le_refl 1, rfl, Nat.le_succ 2, rfl, Nat.le_refl 4, trivial⟩⟩
    let frames : List (IpcMessage Nat Nat Unit) := [.delta ⟨1, 3, [6, 7]⟩, .snapshot ⟨3, 18⟩,
      .delta ⟨0, 1, [5]⟩, .delta ⟨3, 4, [8]⟩, .snapshot ⟨1, 5⟩, .delta ⟨1, 3, [6, 7]⟩]
    (Receiver.run (· + ·) ⟨.withEpoch 0, 0, []⟩ frames).state = 18 ∧
      ∃ pre, pre ++ (Receiver.run (· + ·) ⟨.withEpoch 0, 0, []⟩ frames).folded <+: H.deltas := by
  intro H frames
  have hsend : ∀ msg ∈ frames, H.Sends (· + ·) msg := by
    simp only [frames, forall_mem_cons, not_mem_nil, false_imp_iff, implies_true]
    exact ⟨by simp [History.Sends, H], ⟨H.deltas.take 2, take_prefix _ _, rfl, rfl⟩,
      by simp [History.Sends, H], by simp [History.Sends, H],
      ⟨H.deltas.take 1, take_prefix _ _, rfl, rfl⟩, by simp [History.Sends, H]⟩
  obtain ⟨-, pre, hpre, -⟩ := receiver_projects (· + ·) H nil_prefix frames hsend
  exact ⟨rfl, pre, hpre⟩

theorem Receiver.run_consecutive (step : σ → α → σ) : ∀ {ds folded : List (Delta α)} {e : Nat}
    {s : σ}, Consecutive e ds →
      Receiver.run step ⟨.withEpoch e, s, folded⟩ (ds.map .delta : List (IpcMessage σ α κ)) =
        ⟨.withEpoch (endEpoch e ds), replay step s ds, folded ++ ds⟩
  | [], folded, e, s, _ => by simp [Receiver.run, endEpoch, replay]
  | d :: ds, folded, e, s, ⟨hbase, hlt, hds⟩ => by
    have hspan : saturatingSucc e ≤ d.epoch := by
      simp only [saturatingSucc]
      omega
    have hnext : Receiver.receive step ⟨.withEpoch e, s, folded⟩ (.delta d : IpcMessage σ α κ) =
        ⟨.withEpoch d.epoch, d.ops.foldl step s, folded ++ [d]⟩ := by
      simp [Receiver.receive, ingest, ingestDelta, hbase, hspan, withEpoch]
    rw [Receiver.run, map_cons, foldl_cons, hnext, append_cons folded d ds]
    exact Receiver.run_consecutive step hds

/-- **Resynchronisation.** Whatever has become of a receiver, a snapshot of the sender at any point
and the deltas after it bring it to the sender's epoch and state, with no request outstanding. -/
theorem snapshot_resyncs (step : σ → α → σ) (H : History σ α) (r : Receiver σ α) (k : Nat) :
    let pre := H.deltas.take k
    let frames : List (IpcMessage σ α κ) :=
      .snapshot ⟨endEpoch H.start pre, replay step H.init pre⟩ :: (H.deltas.drop k).map .delta
    r.run step frames = ⟨.withEpoch (endEpoch H.start H.deltas), replay step H.init H.deltas,
      H.deltas.drop k⟩ := by
  intro pre frames
  have hsplit : pre ++ H.deltas.drop k = H.deltas := take_append_drop k H.deltas
  have hrest : Consecutive (endEpoch H.start pre) (H.deltas.drop k) :=
    (hsplit.symm ▸ H.consecutive).append.2
  show Receiver.run step ⟨.withEpoch (endEpoch H.start pre), replay step H.init pre, []⟩ _ = _
  rw [Receiver.run_consecutive step hrest, ← endEpoch_append, ← replay_append, hsplit, nil_append]

end Lazily.Sync
