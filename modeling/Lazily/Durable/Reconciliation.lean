import Mathlib.Data.UInt
import Lazily.Lib.Framing

/-!
# Dry-run reconciliation (`durable_reconciliation.rs`)

A projection is rebuilt from the history, or resumed from a checkpoint of it, and compared with
another by its canonical bytes. Those bytes are a self-delimiting code of the entries
(`selfDelimiting_frameEntry`) behind three words, so they tell checkpoints apart: `drift_exact`.
-/

namespace Lazily.Durable

open Lib List

/-- An identity of an entity. The address space bounds its bytes, as it does those of a value. -/
abbrev EntityId := { id : String // id.utf8ByteSize < UInt64.size }

abbrev Value := { bytes : List Byte // bytes.length < UInt64.size }

instance : Std.TransOrd EntityId := inferInstanceAs (Std.TransCmp (compareOn Subtype.val))

inductive CompleteHistoryOperation where
  | create (value : Value)
  | amend (value : Value)
  | retract

structure CompleteHistoryEvent where
  position : UInt64
  entityId : EntityId
  operation : CompleteHistoryOperation

structure ProjectionCheckpoint where
  sourcePosition : UInt64
  projectionVersion : UInt64
  entries : Std.ExtTreeMap EntityId Value

inductive ProjectionReplayError where
  | positionGap (expected actual : UInt64)
  | projectionVersionOverflow
  | emptyEntityIdentity
  | entityAlreadyExists (id : EntityId)
  | missingEntity (id : EntityId)

/-- `as_bytes`. -/
def EntityId.asBytes (id : EntityId) : List Byte := id.val.toByteArray.data.toList.map UInt8.toFin

def frameU64 (value : UInt64) : List Byte := (leBytes 8 value.toNat).reverse

def frameBytes (value : List Byte) : List Byte := frameU64 (.ofNat value.length) ++ value

namespace ProjectionCheckpoint

def default : ProjectionCheckpoint := ⟨0, 0, ∅⟩

def frameEntry (entry : EntityId × Value) : List Byte :=
  frameBytes entry.1.asBytes ++ frameBytes entry.2.val

def canonicalBytes (c : ProjectionCheckpoint) : List Byte :=
  frameU64 c.sourcePosition ++ (frameU64 c.projectionVersion ++
    (frameU64 (.ofNat c.entries.size) ++ c.entries.toList.flatMap frameEntry))

/-- `checked_add(1)`, of the position and of the version. -/
def checkedSucc (n : UInt64) : Except ProjectionReplayError UInt64 :=
  if n.toNat + 1 < UInt64.size then .ok (n + 1) else .error .projectionVersionOverflow

/-- The entries after an operation on `id`. -/
def operate (entries : Std.ExtTreeMap EntityId Value) (id : EntityId) :
    CompleteHistoryOperation → Except ProjectionReplayError (Std.ExtTreeMap EntityId Value)
  | .create value =>
    if id ∈ entries then .error (.entityAlreadyExists id) else .ok (entries.insert id value)
  | .amend value =>
    if id ∈ entries then .ok (entries.insert id value) else .error (.missingEntity id)
  | .retract => if id ∈ entries then .ok (entries.erase id) else .error (.missingEntity id)

/-- One round of the loop of `resume`. -/
def apply (c : ProjectionCheckpoint) (event : CompleteHistoryEvent) :
    Except ProjectionReplayError ProjectionCheckpoint := do
  let expected ← checkedSucc c.sourcePosition
  if event.position ≠ expected then throw (.positionGap expected event.position)
  if event.entityId.val.isEmpty then throw .emptyEntityIdentity
  let entries ← operate c.entries event.entityId event.operation
  let version ← checkedSucc c.projectionVersion
  return ⟨event.position, version, entries⟩

def resume (checkpoint : ProjectionCheckpoint) (suffix : List CompleteHistoryEvent) :
    Except ProjectionReplayError ProjectionCheckpoint :=
  suffix.foldlM apply checkpoint

def rebuild (history : List CompleteHistoryEvent) :
    Except ProjectionReplayError ProjectionCheckpoint :=
  resume default history

end ProjectionCheckpoint

inductive ProjectionHealth where
  | healthy | lagging | drifted
  deriving DecidableEq

inductive ProjectionReadAuthority where
  | advisory

structure ReconciliationReport where
  health : ProjectionHealth
  lag : Nat
  drift : Bool
  expected : ProjectionCheckpoint
  observed : ProjectionCheckpoint
  readAuthority : ProjectionReadAuthority

/-- `lag` is the saturating difference of the positions. -/
def ReconciliationReport.dryRun (expected observed : ProjectionCheckpoint) : ReconciliationReport :=
  let lag := expected.sourcePosition.toNat - observed.sourcePosition.toNat
  let drift := expected.canonicalBytes != observed.canonicalBytes
  let health := if 0 < lag then .lagging else if drift then .drifted else .healthy
  ⟨health, lag, drift, expected, observed, .advisory⟩

/-! ## The code is injective -/

theorem selfDelimiting_frameU64 : SelfDelimiting frameU64 := by
  refine selfDelimiting_of_length 8 (fun a => by simp [frameU64]) fun a b h => ?_
  have hread := congrArg leNat (reverse_injective h)
  rw [leNat_leBytes a.toNat_lt, leNat_leBytes b.toNat_lt] at hread
  exact UInt64.toNat.inj hread

theorem frameU64_ne_nil (value : UInt64) : frameU64 value ≠ [] := by
  simp [frameU64, leBytes]

/-- Byte strings within the address space, behind their lengths. -/
theorem selfDelimiting_frameBytes {γ : Type} {g : γ → List Byte} (hg : Function.Injective g)
    (hfits : ∀ a, (g a).length < UInt64.size) : SelfDelimiting fun a => frameBytes (g a) := by
  refine selfDelimiting_frameU64.framed hg fun a b h => ?_
  have hsame := congrArg UInt64.toNat h
  rwa [UInt64.toNat_ofNat_of_lt' (hfits a), UInt64.toNat_ofNat_of_lt' (hfits b)] at hsame

theorem EntityId.asBytes_injective : Function.Injective asBytes := by
  intro a b h
  have hlist := map_injective_iff.2 (fun _ _ => UInt8.toFin_inj.1) h
  exact Subtype.ext (String.toByteArray_inj.1 (ByteArray.ext (Array.toList_inj.1 hlist)))

theorem selfDelimiting_frameEntry : SelfDelimiting ProjectionCheckpoint.frameEntry :=
  (selfDelimiting_frameBytes EntityId.asBytes_injective fun id => by
    simpa [EntityId.asBytes] using id.property).pair
      (selfDelimiting_frameBytes Subtype.val_injective fun value => value.property)

theorem ProjectionCheckpoint.canonicalBytes_injective : Function.Injective canonicalBytes := by
  intro e o h
  obtain ⟨hposition, h⟩ := selfDelimiting_frameU64 h
  obtain ⟨hversion, h⟩ := selfDelimiting_frameU64 h
  obtain ⟨-, h⟩ := selfDelimiting_frameU64 h
  have hentries := selfDelimiting_frameEntry.flatMap_injective (fun entry hnil =>
    frameU64_ne_nil _ (append_eq_nil_iff.1 (append_eq_nil_iff.1 hnil).1).1) h
  cases e
  cases o
  simp only [ProjectionCheckpoint.mk.injEq]
  exact ⟨hposition, hversion, Std.ExtTreeMap.toList_inj.1 hentries⟩

namespace ReconciliationReport

theorem drift_eq_true {e o : ProjectionCheckpoint} : (dryRun e o).drift = true ↔ e ≠ o := by
  simp [dryRun, ProjectionCheckpoint.canonicalBytes_injective.eq_iff]

/-- **Reconciliation.** A dry run reports drift iff the checkpoints differ, and a replay that was
interrupted and resumed is healthy against the whole one. -/
theorem drift_exact : (∀ e o : ProjectionCheckpoint, (dryRun e o).drift = true ↔
      e.sourcePosition ≠ o.sourcePosition ∨ e.projectionVersion ≠ o.projectionVersion ∨
        e.entries ≠ o.entries) ∧
    ∀ history suffix whole, ProjectionCheckpoint.rebuild (history ++ suffix) = .ok whole →
      ∃ checkpoint resumed, ProjectionCheckpoint.rebuild history = .ok checkpoint ∧
        checkpoint.resume suffix = .ok resumed ∧ (dryRun whole resumed).health = .healthy := by
  refine ⟨fun e o => ?_, fun history suffix whole h => ?_⟩
  · rw [drift_eq_true]
    cases e
    cases o
    simp only [ne_eq, ProjectionCheckpoint.mk.injEq, not_and_or]
  · unfold ProjectionCheckpoint.rebuild ProjectionCheckpoint.resume at h
    rw [foldlM_append] at h
    cases hfirst : history.foldlM ProjectionCheckpoint.apply .default with
    | error e =>
      rw [hfirst] at h
      cases h
    | ok checkpoint =>
      rw [hfirst] at h
      exact ⟨checkpoint, whole, hfirst, h, by simp [dryRun]⟩

/-- An entity is created, and amended after the interruption. -/
theorem drift_exact_amended : ∃ history suffix whole checkpoint resumed,
    history = [⟨1, ⟨"a", by decide⟩, .create ⟨[1], by decide⟩⟩] ∧
    suffix = [⟨2, ⟨"a", by decide⟩, .amend ⟨[2], by decide⟩⟩] ∧
    ProjectionCheckpoint.rebuild (history ++ suffix) = .ok whole ∧
    ProjectionCheckpoint.rebuild history = .ok checkpoint ∧
    checkpoint.resume suffix = .ok resumed ∧ (dryRun whole resumed).health = .healthy := by
  obtain ⟨checkpoint, resumed, hfirst, hrest, hhealth⟩ :=
    drift_exact.2 [⟨1, ⟨"a", by decide⟩, .create ⟨[1], by decide⟩⟩]
      [⟨2, ⟨"a", by decide⟩, .amend ⟨[2], by decide⟩⟩] _ rfl
  exact ⟨_, _, _, checkpoint, resumed, rfl, rfl, rfl, hfirst, hrest, hhealth⟩

end ReconciliationReport

end Lazily.Durable
