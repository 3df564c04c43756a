import Lazily.Command.Projection
import Lazily.Lib.Reach

/-!
# Terminal commands

A terminal entry carries a terminal receipt that was recorded at its replica or, through images, at
another (`Inv`). Submissions, events, cancels and receipts leave the outcome of a terminal entry
(`EntryStep`); an image replaces it. `terminality_absorbing_iff`: the outcomes of a run last iff no
image contradicts a terminal entry of the replica that applies it.
-/

namespace Lazily.Command

open Lib List Function SortedMap CommandProjection List.Subset
open scoped SortedSet

variable {P K I : Type}

namespace CommandProjectionEntry

variable {entry entry' entry'' : CommandProjectionEntry K I} {receipt : CausalReceipt K I}

/-- The entry is terminal by the receipt. -/
structure CarriedBy (entry : CommandProjectionEntry K I) (receipt : CausalReceipt K I) : Prop where
  isTerminal : receipt.outcome.isTerminal = true
  causationId : receipt.causationId = entry.commandId
  status : entry.status = terminalStatusOf receipt.outcome receipt.reason
  reason : entry.reason = receipt.reason
  receiptId : entry.terminalReceiptId = some receipt.receiptId

/-- What a caller reads of a terminal entry is the same. -/
def SameOutcome (entry entry' : CommandProjectionEntry K I) : Prop :=
  entry'.terminal = entry.terminal ∧ entry'.status = entry.status ∧ entry'.reason = entry.reason ∧
    entry'.terminalReceiptId = entry.terminalReceiptId

theorem SameOutcome.refl (entry : CommandProjectionEntry K I) : entry.SameOutcome entry :=
  ⟨rfl, rfl, rfl, rfl⟩

theorem SameOutcome.trans (h : entry.SameOutcome entry') (h' : entry'.SameOutcome entry'') :
    entry.SameOutcome entry'' :=
  ⟨h'.1.trans h.1, h'.2.1.trans h.2.1, h'.2.2.1.trans h.2.2.1, h'.2.2.2.trans h.2.2.2⟩

variable (next : CommandStatus)

@[simp] theorem advance_commandId : (entry.advance next).commandId = entry.commandId := by
  unfold advance
  split <;> rfl

@[simp] theorem advance_terminal : (entry.advance next).terminal = entry.terminal := by
  unfold advance
  split <;> rfl

theorem advance_of_terminal (hterminal : entry.terminal = true) : entry.advance next = entry := by
  unfold advance
  rw [if_neg]
  simp [hterminal]

end CommandProjectionEntry

open CommandProjectionEntry

/-! ## The folds of one replica -/

/-- What a fold other than an image does to the entry of one command; `made` are the receipts it can
complete a command by. -/
inductive EntryStep (made : CausalReceipt K I → Prop) (k : K) :
    Option (CommandProjectionEntry K I) → Option (CommandProjectionEntry K I) → Prop
  | same (entry : Option (CommandProjectionEntry K I)) : EntryStep made k entry entry
  | submitted {entry : CommandProjectionEntry K I} (hid : entry.commandId = k)
      (hopen : entry.terminal = false) : EntryStep made k none (some entry)
  | progressed {entry entry' : CommandProjectionEntry K I}
      (hid : entry'.commandId = entry.commandId)
      (hterminal : entry'.terminal = entry.terminal)
      (hsame : entry.terminal = true → entry.SameOutcome entry') :
      EntryStep made k (some entry) (some entry')
  | completed {entry entry' : CommandProjectionEntry K I} {receipt : CausalReceipt K I}
      (hid : entry'.commandId = entry.commandId) (hopen : entry.terminal = false)
      (hmade : made receipt) (hcarried : entry.commandId = k → entry'.CarriedBy receipt) :
      EntryStep made k (some entry) (some entry')

variable {made : CausalReceipt K I → Prop} {k : K} (entry : CommandProjectionEntry K I)

theorem EntryStep.advance (next : CommandStatus) :
    EntryStep made k (some entry) (some (entry.advance next)) := by
  refine .progressed (advance_commandId next) (advance_terminal next) fun hterminal => ?_
  rw [advance_of_terminal next hterminal]
  exact .refl entry

theorem EntryStep.recordEvent (event : CommandEvent K I) :
    EntryStep made k (some entry) (some (entry.recordEvent event)) := by
  unfold CommandProjectionEntry.recordEvent
  dsimp only
  split
  · rename_i next _
    refine .progressed (advance_commandId next) (advance_terminal next) fun hterminal => ?_
    rw [advance_of_terminal next (by exact hterminal)]
    exact ⟨rfl, rfl, rfl, rfl⟩
  · exact .progressed rfl rfl fun _ => ⟨rfl, rfl, rfl, rfl⟩

variable [LinearOrder K] [LinearOrder I]

namespace CommandProjection

variable {p p' : CommandProjection K I} {made : CausalReceipt K I → Prop}

def Folds (made : CausalReceipt K I → Prop) (p p' : CommandProjection K I) : Prop :=
  ∀ k : K, EntryStep made k p.entries[k]? p'.entries[k]?

theorem folds_of_entries (h : p'.entries = p.entries) : Folds made p p' := by
  intro k
  rw [h]
  exact .same _

theorem folds_insert {entry : CommandProjectionEntry K I}
    (h : EntryStep made k p.entries[k]? (some entry))
    (hentries : p'.entries = p.entries.insert k entry) : Folds made p p' := by
  intro a
  rw [hentries, get_insert]
  split
  · rename_i heq
    exact heq ▸ h
  · exact .same _

variable (p)

theorem folds_submit (submit : CommandSubmit K) : Folds (fun _ => False) p (p.submit submit).1 := by
  unfold CommandProjection.submit
  split
  · exact folds_of_entries rfl
  · rename_i hnew
    refine folds_insert ?_ rfl
    rw [not_mem_iff.1 hnew]
    exact .submitted rfl rfl

theorem folds_event (event : CommandEvent K I) : Folds (fun _ => False) p (p.event event).1 := by
  unfold CommandProjection.event
  split
  · exact folds_of_entries rfl
  · split
    · exact folds_of_entries rfl
    · rename_i entry hentry
      split
      · exact folds_of_entries rfl
      · refine folds_insert ?_ rfl
        rw [hentry]
        exact .recordEvent entry event

theorem folds_cancel (cancel : CommandCancel K I) :
    Folds (fun _ => False) p (p.cancel cancel).1 := by
  unfold CommandProjection.cancel
  split
  · exact folds_of_entries rfl
  · split
    · exact folds_of_entries rfl
    · split <;> exact folds_of_entries rfl

/-- A receipt completes a command only by itself, when it is terminal and recorded. -/
theorem folds_observeReceipt (receipt : CausalReceipt K I) :
    Folds (fun made => made = receipt ∧ (p.observeReceipt receipt).2 = .recorded ∧
      receipt.outcome.isTerminal = true) p (p.observeReceipt receipt).1 := by
  unfold observeReceipt
  split
  · exact folds_of_entries rfl
  · split
    · exact folds_of_entries rfl
    · rename_i entry hentry
      dsimp only
      split
      · exact folds_of_entries rfl
      · split
        · refine folds_insert ?_ rfl
          rw [hentry]
          exact .advance entry .accepted
        · rename_i hterminal
          rw [Bool.not_eq_false] at hterminal
          split
          · split <;> exact folds_of_entries rfl
          · rename_i hopen
            refine folds_insert ?_ rfl
            rw [hentry]
            exact .completed rfl (Bool.not_eq_true _ ▸ hopen) ⟨rfl, rfl, hterminal⟩
              fun hid => ⟨hterminal, hid.symm, rfl, rfl, rfl⟩

/-! ## Images -/

variable {image : CommandProjectionImage K I}

/-- The entry of a command after an image: the one of the image, if it has one. -/
theorem applyProjection_get (hdistinct : (image.commands.map (·.commandId)).Nodup) (k : K)
    (entry : CommandProjectionEntry K I) : (p.applyProjection image).1.entries[k]? = some entry ↔
      entry ∈ image.commands ∧ entry.commandId = k ∨
        (∀ other ∈ image.commands, other.commandId ≠ k) ∧ p.entries[k]? = some entry := by
  have hkeys : (image.commands.map fun entry => (entry.commandId, entry)).map Prod.fst =
      image.commands.map (·.commandId) := by
    rw [map_map]
    rfl
  unfold applyProjection
  rw [get_insertAll (hkeys ▸ hdistinct), hkeys]
  simp only [mem_map, Prod.mk.injEq, not_exists, not_and]
  refine or_congr ⟨?_, ?_⟩ Iff.rfl
  · rintro ⟨other, hin, hid, rfl⟩
    exact ⟨hin, hid⟩
  · exact fun ⟨hin, hid⟩ => ⟨entry, hin, hid, rfl⟩

end CommandProjection

/-- A terminal entry carries a receipt of the given ones. -/
def EntrySound (backed : CausalReceipt K I → Prop) (entry : CommandProjectionEntry K I) : Prop :=
  entry.terminal = true → ∃ receipt, entry.CarriedBy receipt ∧ backed receipt

structure ProjectionSound (backed : CausalReceipt K I → Prop) (p : CommandProjection K I) :
    Prop where
  ids : ∀ (k : K) entry, p.entries[k]? = some entry → entry.commandId = k
  entries : ∀ (k : K) entry, p.entries[k]? = some entry → EntrySound backed entry

structure ImageSound (backed : CausalReceipt K I → Prop) (image : CommandProjectionImage K I) :
    Prop where
  distinct : (image.commands.map (·.commandId)).Nodup
  entries : ∀ entry ∈ image.commands, EntrySound backed entry

section

variable {backed backed' made : CausalReceipt K I → Prop} {p p' : CommandProjection K I}
  {image : CommandProjectionImage K I} {entry : CommandProjectionEntry K I}

omit [LinearOrder K] [LinearOrder I] in
theorem EntrySound.mono (h : EntrySound backed entry)
    (himp : ∀ receipt, entry.CarriedBy receipt → backed receipt → backed' receipt) :
    EntrySound backed' entry := by
  intro hterminal
  obtain ⟨receipt, hcarried, hbacked⟩ := h hterminal
  exact ⟨receipt, hcarried, himp receipt hcarried hbacked⟩

variable (h : ProjectionSound backed p)
include h

theorem ProjectionSound.mono
    (himp : ∀ receipt, backed receipt → backed' receipt) : ProjectionSound backed' p :=
  ⟨h.ids, fun k entry hentry => (h.entries k entry hentry).mono fun receipt _ => himp receipt⟩

omit [LinearOrder K] [LinearOrder I] in
omit h in
theorem ImageSound.mono (h : ImageSound backed image)
    (himp : ∀ receipt, backed receipt → backed' receipt) : ImageSound backed' image :=
  ⟨h.distinct, fun entry hin => (h.entries entry hin).mono fun receipt _ => himp receipt⟩

theorem ProjectionSound.toImage : ImageSound backed p.toImage where
  distinct := by
    refine nodup_vals_map fun a b v w hv hw heq => ?_
    rw [← h.ids a v hv, ← h.ids b w hw, heq]
  entries entry hin := by
    obtain ⟨k, hk⟩ := mem_vals.1 hin
    exact h.entries k entry hk

/-- A fold whose receipts are backed keeps every terminal entry backed. -/
theorem ProjectionSound.folds
    (hmade : ∀ receipt, made receipt → backed receipt) (hfolds : p.Folds made p') :
    ProjectionSound backed p' := by
  have hentry : ∀ (k : K) entry, p'.entries[k]? = some entry →
      entry.commandId = k ∧ EntrySound backed entry := by
    intro k entry hk
    have hstep := hfolds k
    rw [hk] at hstep
    generalize hbefore : p.entries[k]? = before at hstep
    cases hstep with
    | same => exact ⟨h.ids k entry hbefore, h.entries k entry hbefore⟩
    | submitted hid hopen =>
      refine ⟨hid, fun hterminal => ?_⟩
      rw [hopen] at hterminal
      cases hterminal
    | progressed hid hterminal hsame =>
      refine ⟨hid.trans (h.ids k _ hbefore), fun hnow => ?_⟩
      rw [hterminal] at hnow
      obtain ⟨receipt, hcarried, hbacked⟩ := h.entries k _ hbefore hnow
      obtain ⟨-, hstatus, hreason, hreceipt⟩ := hsame hnow
      exact ⟨receipt, ⟨hcarried.isTerminal, hcarried.causationId.trans hid.symm,
        hstatus.trans hcarried.status, hreason.trans hcarried.reason,
        hreceipt.trans hcarried.receiptId⟩, hbacked⟩
    | completed hid hopen hby hcarried =>
      have hbid := h.ids k _ hbefore
      exact ⟨hid.trans hbid, fun _ => ⟨_, hcarried hbid, hmade _ hby⟩⟩
  exact ⟨fun k entry hk => (hentry k entry hk).1, fun k entry hk => (hentry k entry hk).2⟩

/-- After an image a terminal entry is backed here, or it is the image's and backed there. -/
theorem ProjectionSound.applyProjection (himage : ImageSound backed' image)
    (himp : ∀ entry ∈ image.commands, entry.terminal = true → ∀ receipt, entry.CarriedBy receipt →
      backed' receipt → backed receipt) : ProjectionSound backed (p.applyProjection image).1 where
  ids k entry hk := by
    rcases (p.applyProjection_get himage.distinct k entry).1 hk with ⟨-, hid⟩ | ⟨-, hk⟩
    · exact hid
    · exact h.ids k entry hk
  entries k entry hk := by
    rcases (p.applyProjection_get himage.distinct k entry).1 hk with ⟨hin, -⟩ | ⟨-, hk⟩
    · intro hterminal
      exact (himage.entries entry hin).mono (himp entry hin hterminal) hterminal
    · exact h.entries k entry hk

end

/-! ## Replicas -/

namespace CommandHistory

variable {h h' : CommandHistory P K I} {r : P}

/-- A receipt recorded at a replica, or at the replica an image was taken of that made the command
terminal here. -/
inductive Backed (h : CommandHistory P K I) : P → CausalReceipt K I → Prop
  | folded {r : P} {receipt : CausalReceipt K I} : (r, receipt) ∈ h.folded → Backed h r receipt
  | image {r origin : P} {image : CommandProjectionImage K I} {entry : CommandProjectionEntry K I}
      {receipt : CausalReceipt K I} : (r, origin, image) ∈ h.applied → entry ∈ image.commands →
      entry.terminal = true → entry.CarriedBy receipt → Backed h origin receipt →
      Backed h r receipt

theorem Backed.mono {receipt : CausalReceipt K I} (hb : Backed h r receipt)
    (hfolded : h.folded ⊆ h'.folded) (happlied : h.applied ⊆ h'.applied) : Backed h' r receipt := by
  induction hb with
  | folded hin => exact .folded (hfolded hin)
  | image hin hentry hterminal hcarried _ ih =>
    exact .image (happlied hin) hentry hterminal hcarried ih

structure Inv (h : CommandHistory P K I) : Prop where
  replicas : ∀ r, ProjectionSound (h.Backed r) (h.replicas r)
  images : ∀ taken ∈ h.images, ImageSound (h.Backed taken.1) taken.2

theorem inv_start : (start : CommandHistory P K I).Inv where
  replicas r := ⟨fun k entry hk => by simp [start, new] at hk,
    fun k entry hk => by simp [start, new] at hk⟩
  images taken hin := by cases hin

/-- Every terminal entry carries a terminal receipt that was recorded at its replica or, through the
images applied, at the replica it came from. -/
def Accounted (h : CommandHistory P K I) : Prop :=
  ∀ (r : P) (k : K) entry, (h.replicas r).entries[k]? = some entry → entry.terminal = true →
    ∃ receipt, receipt.causationId = k ∧ entry.CarriedBy receipt ∧ h.Backed r receipt

theorem Inv.accounted (hi : h.Inv) : h.Accounted := by
  intro r k entry hk hterminal
  obtain ⟨receipt, hcarried, hbacked⟩ := (hi.replicas r).entries k entry hk hterminal
  have hid := (hi.replicas r).ids k entry hk
  exact ⟨receipt, hcarried.causationId.trans hid, hcarried, hbacked⟩

/-- The outcomes of the terminal commands are still there. -/
def Settled (h h' : CommandHistory P K I) : Prop :=
  ∀ (r : P) (k : K) entry, (h.replicas r).entries[k]? = some entry → entry.terminal = true →
    ∃ entry', (h'.replicas r).entries[k]? = some entry' ∧ entry.SameOutcome entry'

theorem Settled.refl (h : CommandHistory P K I) : Settled h h :=
  fun _ _ entry hk _ => ⟨entry, hk, .refl entry⟩

theorem Settled.trans {h'' : CommandHistory P K I} (hs : Settled h h') (hs' : Settled h' h'') :
    Settled h h'' := by
  intro r k entry hk hterminal
  obtain ⟨entry', hk', hsame⟩ := hs r k entry hk hterminal
  obtain ⟨entry'', hk'', hsame'⟩ := hs' r k entry' hk' (hsame.1.trans hterminal)
  exact ⟨entry'', hk'', hsame.trans hsame'⟩

/-- The condition on an operation: an image that is applied does not contradict a terminal entry of
the replica. -/
def Agrees (h : CommandHistory P K I) : CommandOp P K I → Prop
  | .applyProjection r index => ∀ taken ∈ h.images[index]?, ∀ entry ∈ taken.2.commands,
      ∀ held ∈ (h.replicas r).entries[entry.commandId]?, held.terminal = true →
        held.SameOutcome entry
  | _ => True

variable [DecidableEq P] {p : CommandProjection K I} {image : CommandProjectionImage K I}

/-- A fold at one replica whose receipts are recorded there. -/
theorem Inv.fold (hi : h.Inv) {folded : List (P × CausalReceipt K I)}
    (hfolds : (h.replicas r).Folds made p) (hsub : h.folded ⊆ folded)
    (hmade : ∀ receipt, made receipt → (r, receipt) ∈ folded) :
    Inv { h.update r p with folded := folded } where
  replicas r' := by
    have hmono : ProjectionSound (Backed { h.update r p with folded := folded } r')
        (h.replicas r') :=
      (hi.replicas r').mono fun receipt hb => hb.mono hsub (refl _)
    change ProjectionSound _ (Function.update h.replicas r p r')
    by_cases hr : r' = r
    · subst hr
      rw [update_self]
      exact hmono.folds (fun receipt hin => .folded (hmade receipt hin)) hfolds
    · rw [update_of_ne hr]
      exact hmono
  images taken hin := (hi.images taken hin).mono fun receipt hb => hb.mono hsub (refl _)

theorem Inv.applyProjection (hi : h.Inv) {origin : P} (htaken : (origin, image) ∈ h.images) :
    Inv { h.update r ((h.replicas r).applyProjection image).1 with
      applied := h.applied ++ [(r, origin, image)] } := by
  set h' : CommandHistory P K I := { h.update r ((h.replicas r).applyProjection image).1 with
    applied := h.applied ++ [(r, origin, image)] } with hdef
  have hmono : ∀ r receipt, h.Backed r receipt → h'.Backed r receipt := fun r receipt hb =>
    hb.mono (refl _) (subset_append_left _ _)
  refine ⟨fun r' => ?_, fun taken hin => (hi.images taken hin).mono (hmono _)⟩
  have hheld := (hi.replicas r').mono (hmono r')
  change ProjectionSound _ (Function.update h.replicas r _ r')
  by_cases hr : r' = r
  · subst hr
    rw [update_self]
    refine hheld.applyProjection (hi.images _ htaken) fun entry hin hterminal receipt hcarried hb =>
      ?_
    exact .image (mem_append_right _ (mem_singleton.2 rfl)) hin hterminal hcarried
      (hmono _ receipt hb)
  · rw [update_of_ne hr]
    exact hheld

theorem Inv.step (hi : h.Inv) (op : CommandOp P K I) : (h.step op).Inv := by
  cases op with
  | submit r submit =>
    exact hi.fold ((h.replicas r).folds_submit submit) (fun _ => id) fun _ => False.elim
  | event r event =>
    exact hi.fold ((h.replicas r).folds_event event) (fun _ => id) fun _ => False.elim
  | cancel r cancel =>
    exact hi.fold ((h.replicas r).folds_cancel cancel) (fun _ => id) fun _ => False.elim
  | observeReceipt r receipt =>
    refine hi.fold ((h.replicas r).folds_observeReceipt receipt) ?_ ?_
    · split
      · exact subset_append_left _ _
      · exact refl _
    · rintro made ⟨rfl, hrecorded, hterminal⟩
      rw [if_pos ⟨hrecorded, hterminal⟩]
      exact mem_append_right _ (mem_singleton.2 rfl)
  | toImage r =>
    have hsame : ∀ r' receipt, h.Backed r' receipt → (h.step (.toImage r)).Backed r' receipt :=
      fun _ _ hb => hb.mono (fun _ => id) (fun _ => id)
    refine ⟨fun r' => (hi.replicas r').mono (hsame r'), fun taken hin => ?_⟩
    rcases mem_append.1 hin with hin | hin
    · exact (hi.images taken hin).mono (hsame taken.1)
    · cases mem_singleton.1 hin
      exact (hi.replicas r).toImage.mono (hsame r)
  | applyProjection r index =>
    simp only [CommandHistory.step]
    split
    · rename_i origin image htaken
      exact hi.applyProjection (mem_of_getElem? htaken)
    · exact hi

theorem inv_run (ops : List (CommandOp P K I)) : ((start : CommandHistory P K I).run ops).Inv :=
  foldl_invariant inv_start fun _ op hi => hi.step op

/-! ## Outcomes -/

/-- Only the replica that steps has to keep its outcomes. -/
theorem settled_update_iff (heq : h'.replicas = Function.update h.replicas r p) :
    Settled h h' ↔ ∀ (k : K) entry, (h.replicas r).entries[k]? = some entry →
      entry.terminal = true → ∃ entry', p.entries[k]? = some entry' ∧ entry.SameOutcome entry' := by
  constructor
  · intro hs k entry hk hterminal
    have hkept := hs r k entry hk hterminal
    rwa [heq, update_self] at hkept
  · intro hp r' k entry hk hterminal
    rw [heq]
    by_cases hr : r' = r
    · subst hr
      rw [update_self]
      exact hp k entry hk hterminal
    · rw [update_of_ne hr]
      exact ⟨entry, hk, .refl entry⟩

theorem settled_fold (hfolds : (h.replicas r).Folds made p)
    (heq : h'.replicas = Function.update h.replicas r p) : Settled h h' := by
  refine (settled_update_iff heq).2 fun k entry hk hterminal => ?_
  have hstep := hfolds k
  rw [hk] at hstep
  generalize hafter : p.entries[k]? = after at hstep
  cases hstep with
  | same => exact ⟨entry, rfl, .refl entry⟩
  | progressed hid hsameTerminal hsame => exact ⟨_, rfl, hsame hterminal⟩
  | completed hid hopen hby hcarried =>
    rw [hopen] at hterminal
    cases hterminal

/-- An image keeps the outcomes of a replica iff it agrees with them. -/
theorem settled_applyProjection_iff (hdistinct : (image.commands.map (·.commandId)).Nodup)
    (heq : h'.replicas = Function.update h.replicas r ((h.replicas r).applyProjection image).1) :
    Settled h h' ↔ ∀ entry ∈ image.commands,
      ∀ held ∈ (h.replicas r).entries[entry.commandId]?, held.terminal = true →
        held.SameOutcome entry := by
  have hget := (h.replicas r).applyProjection_get hdistinct
  rw [settled_update_iff heq]
  constructor
  · intro hs entry hin held hheld hterminal
    obtain ⟨entry', hk, hsame⟩ := hs entry.commandId held hheld hterminal
    rw [(hget _ entry).2 (.inl ⟨hin, rfl⟩)] at hk
    cases hk
    exact hsame
  · intro hagrees k held hk hterminal
    by_cases hin : ∃ entry ∈ image.commands, entry.commandId = k
    · obtain ⟨entry, hin, rfl⟩ := hin
      exact ⟨entry, (hget _ entry).2 (.inl ⟨hin, rfl⟩), hagrees entry hin held hk hterminal⟩
    · push Not at hin
      exact ⟨held, (hget k held).2 (.inr ⟨hin, hk⟩), .refl held⟩

theorem settled_step_iff (hi : h.Inv) (op : CommandOp P K I) :
    Settled h (h.step op) ↔ h.Agrees op := by
  cases op with
  | submit r submit =>
    exact iff_of_true (settled_fold ((h.replicas r).folds_submit submit) rfl) trivial
  | event r event =>
    exact iff_of_true (settled_fold ((h.replicas r).folds_event event) rfl) trivial
  | cancel r cancel =>
    exact iff_of_true (settled_fold ((h.replicas r).folds_cancel cancel) rfl) trivial
  | observeReceipt r receipt =>
    exact iff_of_true (settled_fold ((h.replicas r).folds_observeReceipt receipt) rfl) trivial
  | toImage r => exact iff_of_true (Settled.refl h) trivial
  | applyProjection r index =>
    simp only [CommandHistory.step, Agrees]
    cases htaken : h.images[index]? with
    | none => simp [Settled.refl]
    | some taken =>
      have himage := hi.images _ (mem_of_getElem? htaken)
      simp only [Option.mem_def, Option.some.injEq, forall_eq']
      exact settled_applyProjection_iff himage.distinct rfl

/-- In every state of a run the outcomes reached before are still there. -/
def Absorbing (h : CommandHistory P K I) (ops : List (CommandOp P K I)) : Prop :=
  ∀ pre mid, pre ++ mid <+: ops → Settled (h.run pre) (h.run (pre ++ mid))

/-- **Terminality.** A terminal entry always has its receipt; the outcomes of a run last iff no
image contradicts a terminal entry of the replica that applies it. -/
theorem terminality_absorbing_iff (ops : List (CommandOp P K I)) :
    ((start : CommandHistory P K I).run ops).Accounted ∧
    ((start : CommandHistory P K I).Absorbing ops ↔
      ∀ pre op, pre ++ [op] <+: ops → ((start : CommandHistory P K I).run pre).Agrees op) := by
  refine ⟨(inv_run ops).accounted, fun hs pre op hpre => ?_, fun hagrees pre mid => ?_⟩
  · have hone := hs pre [op] hpre
    rw [run, run, foldl_concat] at hone
    exact (settled_step_iff (inv_run pre) op).1 hone
  · induction mid using reverseRecOn with
    | nil =>
      intro _
      rw [append_nil]
      exact .refl _
    | append_singleton mid op ih =>
      intro hpre
      rw [← append_assoc] at hpre ⊢
      refine (ih ((prefix_append _ [op]).trans hpre)).trans ?_
      have hone := (settled_step_iff (inv_run (pre ++ mid)) op).2 (hagrees _ op hpre)
      rwa [run, run, foldl_concat]

/-- A command is submitted, an image is taken, the command is applied by its receipt, and the image
comes back: the command is submitted again, its call pends, and the receipt, already seen, no longer
completes it. -/
theorem stale_image_reopens_command :
    let receipt : CausalReceipt Nat Nat := ⟨7, 0, 1, .applied, none⟩
    let ops : List (CommandOp Unit Nat Nat) :=
      [.submit () ⟨0, 1⟩, .toImage (), .observeReceipt () receipt, .applyProjection () 0]
    let before := (start : CommandHistory Unit Nat Nat).run (ops.take 3)
    let after := (start : CommandHistory Unit Nat Nat).run ops
    (before.replicas ()).pollCall 0 =
        .resolved ⟨0, .applied, true, 1, none, some 7, none⟩ ∧
      (after.replicas ()).pollCall 0 = .pending ∧
      ((after.replicas ()).observeReceipt receipt).2 = .duplicate ∧
      ¬(start : CommandHistory Unit Nat Nat).Absorbing ops := by
  intro receipt ops before after
  refine ⟨by decide +kernel, by decide +kernel, by decide +kernel, fun hs => ?_⟩
  obtain ⟨entry, hentry, hsame⟩ := hs (ops.take 3) (ops.drop 3) prefix_rfl () 0
    ⟨0, .applied, true, 1, none, some 7, none⟩ (by decide +kernel) rfl
  have hafter : (after.replicas ()).entries[0]? =
      some ⟨0, .submitted, false, 1, none, none, none⟩ := by decide +kernel
  have hkept := hafter.symm.trans hentry
  cases hkept
  cases hsame.1

end CommandHistory

end Lazily.Command
