import Lazily.Boundary.Buffer

/-!
# The keys an adapter has open

`open_keys_agree_iff`: throughout a run, replaying the emitted actions leaves open exactly the
source keys of the adapter, iff every restart of the bootstrap finds no source key. `subscribe` and
the handoff of `applyEvent` forget the keys without closing them, so that the next snapshot has
nothing to compare with (`resubscription_leaves_key_open`).
-/

namespace Lazily.Boundary

open Lib List BoundaryIngressAction SortedSet Std.ExtTreeSet BoundaryIngressCore
open scoped SortedSet

variable {K T N : Type} [LinearOrder K] [LinearOrder N] {opened : SortedSet K}

def BoundaryIngressAction.replay (opened : SortedSet K) : BoundaryIngressAction K T → SortedSet K
  | .admitEnvelope envelope => opened.insert envelope.key
  | .close key => opened.erase key

/-- The keys that are open after the actions, in order. -/
def openKeys (opened : SortedSet K) (actions : List (BoundaryIngressAction K T)) : SortedSet K :=
  actions.foldl BoundaryIngressAction.replay opened

theorem mem_openKeys_close {keys : List K} {k : K} :
    k ∈ openKeys opened (keys.map (close (T := T))) ↔
      k ∈ opened ∧ k ∉ keys := by
  induction keys generalizing opened with
  | nil => simp [openKeys]
  | cons key keys ih =>
    have hstep : openKeys opened ((key :: keys).map (close (T := T))) =
        openKeys (opened.erase key) (keys.map .close) := rfl
    rw [hstep, ih, mem_erase_iff, mem_cons, not_or, and_assoc, and_left_comm]

theorem mem_openKeys_admit {entries : List (Ingress.IngressEnvelope K T)}
    {k : K} : k ∈ openKeys opened (entries.map .admitEnvelope) ↔
      k ∈ opened ∨ k ∈ entries.map (·.key) := by
  induction entries generalizing opened with
  | nil => simp [openKeys]
  | cons entry entries ih =>
    have hstep : openKeys opened ((entry :: entries).map .admitEnvelope) =
        openKeys (opened.insert entry.key) (entries.map .admitEnvelope) := rfl
    rw [hstep, ih, SortedSet.mem_insert_iff, map_cons, mem_cons, or_assoc, or_left_comm]

namespace BoundaryIngressCore

variable {c : BoundaryIngressCore K T N} {opened : SortedSet K}
  {actions : List (BoundaryIngressAction K T)} {op : BoundaryOp K T N}

/-! ## The actions of a drain -/

variable (event : BoundaryIngressEvent K T)

theorem openKeys_applyPayload (h : openKeys opened actions = c.sourceKeys) :
    openKeys opened (c.applyPayload event actions).2 =
      (c.applyPayload event actions).1.sourceKeys := by
  unfold applyPayload
  cases event.payload with
  | upsert envelope | remove key =>
    dsimp only
    rw [openKeys, foldl_concat, ← openKeys, h]
    rfl
  | validate validation => exact h

theorem openKeys_drainLoop (fuel : Nat) : ∀ {c : BoundaryIngressCore K T N}
    {actions : List (BoundaryIngressAction K T)}, openKeys opened actions = c.sourceKeys →
    openKeys opened (drainLoop fuel c actions).2 = (drainLoop fuel c actions).1.sourceKeys := by
  induction fuel with
  | zero => exact id
  | succ fuel ih =>
    intro c actions h
    simp only [drainLoop]
    split
    · exact h
    · split
      · exact h
      · exact ih (openKeys_applyPayload _ h)

theorem openKeys_drainContiguous (h : openKeys opened actions = c.sourceKeys) :
    openKeys opened (c.drainContiguous actions).2 = (c.drainContiguous actions).1.sourceKeys := by
  simp only [drainContiguous]
  split
  · exact openKeys_drainLoop _ h
  · split <;> exact openKeys_drainLoop _ h

/-! ## The actions of an operation -/

theorem openKeys_applySnapshot (c : BoundaryIngressCore K T N)
    (snapshot : BoundaryIngressSnapshot K T N) :
    openKeys c.sourceKeys (c.applySnapshot snapshot).2.actions =
      (c.applySnapshot snapshot).1.sourceKeys := by
  simp only [applySnapshot]
  split
  · rfl
  · refine openKeys_drainContiguous (ext_mem fun k => ?_)
    rw [openKeys, foldl_append, ← openKeys, ← openKeys, mem_openKeys_admit, mem_openKeys_close]
    have hkeys : k ∈ snapshotKeys snapshot ↔ k ∈ snapshot.entries.map (·.key) := by
      simp [snapshotKeys]
    change _ ↔ k ∈ snapshotKeys snapshot
    simp only [mem_toList, mem_filter_iff, ← hkeys, Bool.not_eq_true',
      ← Bool.not_eq_true]
    by_cases hk : k ∈ snapshotKeys snapshot <;> simp [hk]

/-- The operation starts the bootstrap over: a subscription, or an event of a newer generation. -/
def Restarts (c : BoundaryIngressCore K T N) : BoundaryOp K T N → Prop
  | .subscribe generation => c.generation ≤ generation
  | .applyEvent event => c.generation < event.generation
  | _ => False

theorem step_of_restarts (h : c.Restarts op) :
    (c.step op).2.actions = [] ∧ (c.step op).1.sourceKeys = ∅ := by
  cases op with
  | subscribe generation =>
    rw [step, subscribe, if_neg (not_lt.2 h)]
    exact ⟨rfl, rfl⟩
  | applyEvent event =>
    have hgen : c.generation < event.generation := h
    have hhand : (c.handoff event.generation).cursor = none ∧
        (c.handoff event.generation).sourceKeys = ∅ := by
      rw [handoff, if_pos hgen]
      exact ⟨rfl, rfl⟩
    simp only [step, applyEvent, if_neg hgen.not_gt, hhand.1, bufferBootstrap]
    split
    · exact ⟨rfl, hhand.2⟩
    · refine ⟨rfl, ?_⟩
      dsimp only
      split <;> exact hhand.2
  | applySnapshot _ | memberJoin _ | memberLeave _ | openDelivery _ | acknowledge _ _ | tick _ =>
    exact h.elim

theorem openKeys_sequenceEvent (c : BoundaryIngressCore K T N) (n : Nat) :
    openKeys c.sourceKeys (c.sequenceEvent n event).2.actions =
      (c.sequenceEvent n event).1.sourceKeys := by
  unfold sequenceEvent
  split
  · rfl
  · split
    · exact openKeys_drainContiguous (openKeys_applyPayload event rfl)
    · split <;> rfl

/-- Any other operation emits what it does to the keys. -/
theorem openKeys_step (h : ¬c.Restarts op) :
    openKeys c.sourceKeys (c.step op).2.actions = (c.step op).1.sourceKeys := by
  cases op with
  | subscribe generation =>
    simp only [step, subscribe, if_pos (not_le.1 h)]
    rfl
  | applySnapshot snapshot => exact c.openKeys_applySnapshot snapshot
  | applyEvent event =>
    simp only [step, applyEvent]
    split
    · rfl
    · have hsame : c.handoff event.generation = c := if_neg h
      rw [hsame]
      split
      · unfold bufferBootstrap
        split
        · rfl
        · dsimp only
          split <;> rfl
      · exact c.openKeys_sequenceEvent event _
  | memberJoin member => exact (sameStream_memberJoin member c).sourceKeys.symm
  | memberLeave member => exact (sameStream_memberLeave member c).sourceKeys.symm
  | openDelivery receiptId => exact (sameStream_openDelivery receiptId c).sourceKeys.symm
  | acknowledge receiptId member =>
    exact (sameStream_acknowledge member receiptId c).sourceKeys.symm
  | tick now => exact (sameStream_tick c now).sourceKeys.symm

end BoundaryIngressCore

/-! ## Runs -/

/-- An adapter with the actions it has emitted. -/
structure ActionHistory (K T N : Type) [LinearOrder K] [LinearOrder N] where
  core : BoundaryIngressCore K T N
  emitted : List (BoundaryIngressAction K T)

namespace ActionHistory

def start (config : BoundaryIngressConfig) : ActionHistory K T N := ⟨.new config, []⟩

variable (h : ActionHistory K T N)

def step (op : BoundaryOp K T N) : ActionHistory K T N :=
  ⟨(h.core.step op).1, h.emitted ++ (h.core.step op).2.actions⟩

def run (ops : List (BoundaryOp K T N)) : ActionHistory K T N :=
  ops.foldl step h

/-- The keys the emitted actions leave open are the source keys. -/
def Agrees : Prop := openKeys ∅ h.emitted = h.core.sourceKeys

/-- The condition on an operation: a restart finds no source key. -/
def Quiet (op : BoundaryOp K T N) : Prop :=
  h.core.Restarts op → h.core.sourceKeys = ∅

theorem agrees_step_iff {h : ActionHistory K T N} (hagrees : h.Agrees) (op : BoundaryOp K T N) :
    (h.step op).Agrees ↔ h.Quiet op := by
  have hreplay : openKeys ∅ (h.step op).emitted =
      openKeys h.core.sourceKeys (h.core.step op).2.actions := by
    rw [← hagrees]
    exact foldl_append
  unfold Agrees
  rw [hreplay]
  by_cases hrestart : h.core.Restarts op
  · obtain ⟨hactions, hkeys⟩ := step_of_restarts hrestart
    rw [hactions]
    change h.core.sourceKeys = (h.core.step op).1.sourceKeys ↔ _
    rw [hkeys]
    exact ⟨fun hempty _ => hempty, fun hquiet => hquiet hrestart⟩
  · exact iff_of_true (openKeys_step hrestart) fun hr => absurd hr hrestart

/-- **No ghost keys.** Throughout a run the emitted actions leave open exactly the source keys, iff
every subscription and every event of a newer generation comes while there is no source key. -/
theorem open_keys_agree_iff (config : BoundaryIngressConfig) (ops : List (BoundaryOp K T N)) :
    (∀ pre, pre <+: ops → ((start config).run pre).Agrees) ↔
      ∀ pre op, pre ++ [op] <+: ops → ((start config).run pre).Quiet op :=
  forall_prefix_iff (I := Agrees) (fun _ _ => True) rfl (fun _ => id)
    (fun _ op hagrees _ hok => (agrees_step_iff hagrees op).2 hok)
    (fun _ op hagrees _ hbad h => hbad ((agrees_step_iff hagrees op).1 h)) fun _ _ _ => trivial

/-- Key 0 is open under generation 1 and absent from the snapshot of generation 2: no action closes
it. -/
theorem resubscription_leaves_key_open :
    let entry : Ingress.IngressEnvelope Nat Nat := ⟨0, 1, 0, 0, 7⟩
    let h := (start .default : ActionHistory Nat Nat Nat).run
      [.subscribe 1, .applySnapshot ⟨1, 0, 0, [entry], [], .valid⟩, .subscribe 2,
        .applySnapshot ⟨2, 0, 0, [], [], .valid⟩]
    h.emitted = [.admitEnvelope entry] ∧ (openKeys ∅ h.emitted).toList = [0] ∧
      h.core.sourceKeys.toList = [] ∧ ¬h.Agrees := by
  intro entry h
  have hopen : (openKeys ∅ h.emitted).toList = [0] := by decide +kernel
  have hkeys : h.core.sourceKeys.toList = [] := by decide +kernel
  refine ⟨by decide +kernel, hopen, hkeys, fun hagrees => ?_⟩
  rw [Agrees] at hagrees
  rw [hagrees, hkeys] at hopen
  cases hopen

end ActionHistory

end Lazily.Boundary
