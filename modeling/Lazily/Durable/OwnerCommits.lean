import Lazily.Durable.Owner
import Lazily.Lib.Reach

/-!
# Exactly-once commits of a durable owner

`exactly_once`: in every run with crashes, recovery succeeds with the owner as it was, the state is
the numbered log of the payloads of the accepted commits, every inbox identity was accepted once,
the pending effects are the bound effects without a receipt, and a call that is refused, is a
duplicate or carries another fence changes nothing.

The image is kept against what the callers were told (`Inv`); each accepted call extends both.
-/

namespace Lazily.Durable

open Lib List SortedMap DurableOwnerCore SortedSet DurableStateMutation
open scoped SortedSet

variable {O I E R : Type} [LinearOrder I] [LinearOrder E] [LinearOrder R]

/-- The payloads at the positions from 1 on. -/
def numbered (log : List VersionedBytes) : List DurableRecord :=
  log.mapIdx fun i payload => ⟨i + 1, payload⟩

section

variable (log : List VersionedBytes)

@[simp] theorem length_numbered : (numbered log).length = log.length := by
  simp [numbered]

theorem numbered_append (payload : VersionedBytes) :
    numbered (log ++ [payload]) = numbered log ++ [⟨log.length + 1, payload⟩] := by
  simp [numbered]

theorem map_position_numbered :
    (numbered log).map (·.position) = (List.range log.length).map (· + 1) := by
  refine ext_getElem (by simp) fun i h1 h2 => ?_
  simp [numbered]

end

namespace DurableOwnerCore

variable {image image' : DurableOwnerImage O I E R}

/-! ## The checks of a commit -/

omit [LinearOrder I] [LinearOrder R] in
theorem checkEffects_ok {outbox : SortedMap E (DurableEffect E)}
    {effects : List (DurableEffectIntent E)} : ∀ {identities : SortedSet E},
    checkEffects (I := I) (R := R) outbox identities effects = .ok () →
    (effects.map (·.identity)).Nodup ∧
      ∀ e ∈ effects, e.identity ∉ identities ∧ e.identity ∉ outbox := by
  induction effects with
  | nil => exact fun _ => ⟨nodup_nil, fun e he => by cases he⟩
  | cons effect effects ih =>
    intro identities h
    rw [checkEffects] at h
    split at h
    · cases h
    · rename_i hnew
      rw [not_or] at hnew
      obtain ⟨hnodup, hfresh⟩ := ih h
      refine ⟨nodup_cons.2 ⟨fun hin => ?_, hnodup⟩, ?_⟩
      · obtain ⟨e, he, heq⟩ := mem_map.1 hin
        exact (hfresh e he).1 (mem_insert_iff.2 (.inl heq))
      · intro e he
        rcases mem_cons.1 he with rfl | he
        · exact hnew
        · obtain ⟨hunused, hunbound⟩ := hfresh e he
          exact ⟨fun hin => hunused (mem_insert_iff.2 (.inr hin)), hunbound⟩

/-- What the receipts of an accepted commit are. -/
structure ReceiptsFit (receipts : SortedMap R (DurableReceipt E R)) (effectIdentities : SortedSet E)
    (receiptIdentities : SortedSet R) (receiptedEffects : SortedSet E)
    (intents : List (DurableReceiptIntent E R)) : Prop where
  distinct : (intents.map (·.identity)).Nodup
  distinctEffects : (intents.map (·.effectIdentity)).Nodup
  fresh : ∀ r ∈ intents, r.identity ∉ receiptIdentities ∧ r.identity ∉ receipts
  known : ∀ r ∈ intents, r.effectIdentity ∈ effectIdentities
  first : ∀ r ∈ intents, r.effectIdentity ∉ receiptedEffects

omit [LinearOrder I] in
theorem checkReceipts_ok {receipts : SortedMap R (DurableReceipt E R)}
    {effectIdentities : SortedSet E} {intents : List (DurableReceiptIntent E R)} :
    ∀ {receiptIdentities : SortedSet R} {receiptedEffects : SortedSet E},
    checkReceipts (I := I) receipts effectIdentities receiptIdentities receiptedEffects intents =
      .ok () →
    ReceiptsFit receipts effectIdentities receiptIdentities receiptedEffects intents := by
  induction intents with
  | nil =>
    exact fun _ => ⟨nodup_nil, nodup_nil, by simp, by simp, by simp⟩
  | cons intent intents ih =>
    intro receiptIdentities receiptedEffects h
    rw [checkReceipts] at h
    split at h
    · cases h
    · rename_i hnew
      split at h
      · cases h
      · rename_i hknown
        split at h
        · cases h
        · rename_i hfirst
          rw [not_or] at hnew
          have hrest := ih h
          refine ⟨nodup_cons.2 ⟨fun hin => ?_, hrest.distinct⟩,
            nodup_cons.2 ⟨fun hin => ?_, hrest.distinctEffects⟩, ?_, ?_, ?_⟩
          · obtain ⟨r, hr, heq⟩ := mem_map.1 hin
            exact (hrest.fresh r hr).1 (mem_insert_iff.2 (.inl heq))
          · obtain ⟨r, hr, heq⟩ := mem_map.1 hin
            exact hrest.first r hr (mem_insert_iff.2 (.inl heq))
          · refine forall_mem_cons.2 ⟨hnew, fun r hr => ⟨fun hin => ?_, (hrest.fresh r hr).2⟩⟩
            exact (hrest.fresh r hr).1 (mem_insert_iff.2 (.inr hin))
          · exact forall_mem_cons.2 ⟨not_not.1 hknown, hrest.known⟩
          · refine forall_mem_cons.2 ⟨hfirst, fun r hr hin => ?_⟩
            exact hrest.first r hr (mem_insert_iff.2 (.inr hin))

/-! ## The state advance -/

/-- The state of an image is the numbered log: all of it, or its last record. -/
def StateFits (image : DurableOwnerImage O I E R) (log : List VersionedBytes) : Prop :=
  image.position = log.length ∧
    match image.mode with
    | .eventHistory => image.history = numbered log ∧ image.snapshot = none
    | .snapshot => image.history = [] ∧ image.snapshot = (numbered log).getLast?

/-- Only the state differs. -/
structure SameBindings (image image' : DurableOwnerImage O I E R) : Prop where
  ownerId : image'.ownerId = image.ownerId
  mode : image'.mode = image.mode
  fence : image'.fence = image.fence
  inbox : image'.inbox = image.inbox
  outbox : image'.outbox = image.outbox
  receipts : image'.receipts = image.receipts

theorem appendEvents_ok {payloads : List VersionedBytes} :
    ∀ {image : DurableOwnerImage O I E R} {log : List VersionedBytes},
    appendEvents image payloads = .ok image' → image.mode = .eventHistory → StateFits image log →
    SameBindings image image' ∧ StateFits image' (log ++ payloads) := by
  induction payloads with
  | nil =>
    intro image log h hmode hfits
    cases h
    rw [append_nil]
    exact ⟨⟨rfl, rfl, rfl, rfl, rfl, rfl⟩, hfits⟩
  | cons payload payloads ih =>
    intro image log h hmode hfits
    rw [appendEvents] at h
    split at h
    · simp only [StateFits, hmode] at hfits
      obtain ⟨hposition, hhistory, hsnapshot⟩ := hfits
      obtain ⟨hsame, hfits'⟩ := @ih _ (log ++ [payload]) h hmode (by
        simp only [StateFits, hmode]
        rw [numbered_append, hhistory, hposition]
        exact ⟨by simp, rfl, hsnapshot⟩)
      rw [append_assoc] at hfits'
      exact ⟨⟨hsame.ownerId, hsame.mode, hsame.fence, hsame.inbox, hsame.outbox, hsame.receipts⟩,
        hfits'⟩
    · cases h

variable {log : List VersionedBytes}

theorem advanceState_ok {state : DurableStateMutation} (h : advanceState image state = .ok image')
    (hfits : StateFits image log) :
    SameBindings image image' ∧ StateFits image' (log ++ state.payloads) ∧ state.payloads ≠ [] := by
  unfold advanceState at h
  split at h
  · rename_i events hmode
    split at h
    · cases h
    · rename_i hne
      obtain ⟨hsame, hfits'⟩ := appendEvents_ok h hmode hfits
      exact ⟨hsame, hfits', hne⟩
  · rename_i payload hmode
    split at h
    · cases h
      refine ⟨⟨rfl, rfl, rfl, rfl, rfl, rfl⟩, ?_, by simp [payloads]⟩
      simp only [StateFits, hmode] at hfits ⊢
      simp only [payloads, numbered_append, hfits.1, hfits.2.1]
      simp
    · cases h
  · cases h

/-! ## Inversion -/

/-- What an accepted commit was, and the image it led to. -/
structure Accepts (image : DurableOwnerImage O I E R) (commit : DurableCommit O I E R)
    (image' : DurableOwnerImage O I E R) : Prop where
  owner : commit.ownerId = image.ownerId
  unseen : commit.inboxIdentity ∉ image.inbox
  fence : commit.fence = image.fence
  effectsDistinct : (commit.effects.map (·.identity)).Nodup
  effectsFresh : ∀ e ∈ commit.effects, e.identity ∉ image.outbox
  receipts : ReceiptsFit image.receipts
    (SortedSet.insertAll ∅ (commit.effects.map (·.identity) ++ image.outbox.keys)) ∅
    (receipted image) commit.receipts
  advanced : ∃ advanced, advanceState image commit.state = .ok advanced ∧
    image' = bindCommit advanced commit

theorem candidate_ok {commit : DurableCommit O I E R} (howner : commit.ownerId = image.ownerId)
    (hunseen : commit.inboxIdentity ∉ image.inbox) (h : candidate image commit = .ok image') :
    Accepts image commit image' := by
  unfold candidate at h
  split at h
  · cases h
  · rename_i hfence
    split at h
    · cases h
    · split at h
      · cases h
      · rename_i heffects
        split at h
        · cases h
        · rename_i hreceipts
          split at h
          · cases h
          · rename_i advanced hadvanced
            cases h
            obtain ⟨hdistinct, hfresh⟩ := checkEffects_ok heffects
            exact ⟨howner, hunseen, not_not.1 hfence, hdistinct, fun e he => (hfresh e he).2,
              checkReceipts_ok hreceipts, advanced, hadvanced, rfl⟩

/-- A commit is refused or a duplicate and changes nothing, or it is accepted. -/
theorem commit_cases [DecidableEq O] (c : DurableOwnerCore O I E R)
    (commit : DurableCommit O I E R) :
    ((c.commit commit).1 = c ∧ ∀ through, (c.commit commit).2 ≠ .ok (.committed through)) ∨
    ∃ image', Accepts c.image commit image' ∧
      c.commit commit = (⟨image'⟩, .ok (.committed image'.position)) := by
  unfold DurableOwnerCore.commit
  split
  · exact .inl ⟨rfl, by simp⟩
  · rename_i howner
    split
    · split <;> exact .inl ⟨rfl, by simp⟩
    · rename_i hunseen
      split
      · exact .inl ⟨rfl, by simp⟩
      · rename_i image' himage
        have hnew := not_mem_iff.2 hunseen
        exact .inr ⟨image', candidate_ok (not_not.1 howner) hnew himage, rfl⟩

/-- A receipt is refused or a duplicate and changes nothing, or it is recorded: its identity is new,
its effect bound and without a receipt. -/
theorem recordReceipt_cases (c : DurableOwnerCore O I E R) (fence : Nat)
    (receipt : DurableReceiptIntent E R) :
    ((c.recordReceipt fence receipt).1 = c ∧ (c.recordReceipt fence receipt).2 ≠ .ok .recorded) ∨
    ((receipt.identity ∉ c.image.receipts ∧ fence = c.image.fence ∧
        receipt.effectIdentity ∈ c.image.outbox ∧
        ∀ known ∈ c.image.receipts.vals, known.effectIdentity ≠ receipt.effectIdentity) ∧
      c.recordReceipt fence receipt = (⟨{ c.image with
        receipts := (c.image.receipts.insert receipt.identity
          (receipt.record c.image.position fence)) }⟩, .ok .recorded)) := by
  unfold recordReceipt
  split
  · split <;> exact .inl ⟨rfl, by simp⟩
  · rename_i hnew
    split
    · exact .inl ⟨rfl, by simp⟩
    · rename_i hfence
      split
      · exact .inl ⟨rfl, by simp⟩
      · rename_i hknown
        split
        · exact .inl ⟨rfl, by simp⟩
        · rename_i hfirst
          push Not at hfirst
          exact .inr ⟨⟨not_mem_iff.2 hnew, not_not.1 hfence, not_not.1 hknown, hfirst⟩, rfl⟩

theorem mem_receipted {e : E} :
    e ∈ receipted image ↔ ∃ r ∈ image.receipts.vals, r.effectIdentity = e := by
  simp [receipted]

/-- A state that fits a log passes the check of recovery. -/
theorem checkState_ok (hfits : StateFits image log) : checkState image = .ok () := by
  obtain ⟨hposition, hstate⟩ := hfits
  unfold checkState
  cases hmode : image.mode with
  | eventHistory =>
    simp only [hmode] at hstate
    simp [hstate.1, hstate.2, hposition, map_position_numbered]
  | snapshot =>
    simp only [hmode] at hstate
    rw [hstate.1, hstate.2, hposition]
    rcases log.eq_nil_or_concat with rfl | ⟨log, payload, rfl⟩
    · rfl
    · rw [concat_eq_append, numbered_append]
      simp

end DurableOwnerCore

/-! ## The state and the inbox -/

variable (accepted : List (I × List VersionedBytes))

/-- The payloads of accepted commits, in order. -/
def acceptedLog : List VersionedBytes :=
  accepted.flatMap Prod.snd

omit [LinearOrder I] in
theorem acceptedLog_append (i : I) (payloads : List VersionedBytes) :
    acceptedLog (accepted ++ [(i, payloads)]) = acceptedLog accepted ++ payloads := by
  simp [acceptedLog]

/-- State and inbox of an image are those of the accepted commits. -/
structure Logged (image : DurableOwnerImage O I E R) (accepted : List (I × List VersionedBytes)) :
    Prop where
  state : DurableOwnerCore.StateFits image (acceptedLog accepted)
  advanced : ∀ a ∈ accepted, a.2 ≠ []
  once : (accepted.map Prod.fst).Nodup
  inbox : ∀ i, i ∈ image.inbox ↔ i ∈ accepted.map Prod.fst
  through : ∀ (i : I) r, image.inbox[i]? = some r → r.committedThrough ≤ image.position

section

variable {image image' : DurableOwnerImage O I E R} {proposal : DurableCommit O I E R}
  {log : List VersionedBytes}

/-- The position never moves back. -/
theorem DurableOwnerCore.Accepts.position_le (ha : Accepts image proposal image')
    (hfits : StateFits image log) : image.position ≤ image'.position := by
  obtain ⟨advanced, hadvanced, rfl⟩ := ha.advanced
  obtain ⟨-, hfits', -⟩ := advanceState_ok hadvanced hfits
  change image.position ≤ advanced.position
  rw [hfits.1, hfits'.1, length_append]
  exact Nat.le_add_right _ _

theorem Logged.commit {accepted : List (I × List VersionedBytes)} (hl : Logged image accepted)
    (ha : Accepts image proposal image') :
    Logged image' (accepted ++ [(proposal.inboxIdentity, proposal.state.payloads)]) := by
  have hle := ha.position_le hl.state
  obtain ⟨advanced, hadvanced, rfl⟩ := ha.advanced
  obtain ⟨hsame, hfits, hne⟩ := advanceState_ok hadvanced hl.state
  refine ⟨?_, ?_, ?_, fun i => ?_, fun i r hr => ?_⟩
  · rw [acceptedLog_append]
    exact hfits
  · exact forall_mem_append.2 ⟨hl.advanced, forall_mem_singleton.2 hne⟩
  · rw [map_append]
    refine (perm_append_singleton _ _).nodup_iff.2 (nodup_cons.2 ⟨?_, hl.once⟩)
    rw [← hl.inbox]
    exact ha.unseen
  · change i ∈ advanced.inbox.insert _ _ ↔ _
    rw [hsame.inbox, SortedMap.mem_insert_iff, hl.inbox, map_append, mem_append, or_comm]
    simp
  · change (advanced.inbox.insert _ _)[i]? = some r at hr
    rw [hsame.inbox, get_insert] at hr
    split at hr
    · cases hr
      exact le_rfl
    · exact (hl.through i r hr).trans hle

/-! ## Effects and receipts -/

/-- Outbox and receipts of an image are the effects bound and the receipts recorded: every receipt
is of a bound effect, one an effect, and nothing points beyond the position. -/
structure Bound (image : DurableOwnerImage O I E R) (effects : List (DurableEffect E))
    (receipts : List (DurableReceipt E R)) : Prop where
  outboxFiled : SortedMap.Files image.outbox effects (·.identity)
  acceptedAt : ∀ e ∈ effects, e.acceptedAt ≤ image.position
  receiptsFiled : SortedMap.Files image.receipts receipts (·.identity)
  recordedAt : ∀ r ∈ receipts, r.recordedAt ≤ image.position
  known : ∀ r ∈ receipts, r.effectIdentity ∈ image.outbox
  first : ∀ r ∈ receipts, ∀ r' ∈ receipts, r.effectIdentity = r'.effectIdentity →
    r.identity = r'.identity

namespace Bound

variable {effects : List (DurableEffect E)} {receipts : List (DurableReceipt E R)}

variable (hb : Bound image effects receipts)
include hb

theorem mem_receipted_iff {e : E} : e ∈ receipted image ↔ ∃ r ∈ receipts, r.effectIdentity = e := by
  simp only [mem_receipted, hb.receiptsFiled.mem_vals]

/-- Effects under new identities are bound. -/
theorem addEffects (new : List (DurableEffect E))
    (hdistinct : (new.map (·.identity)).Nodup) (hfresh : ∀ e ∈ new, e.identity ∉ image.outbox)
    (hposition : image.position ≤ image'.position) (hat : ∀ e ∈ new, e.acceptedAt ≤ image'.position)
    (houtbox : image'.outbox = insertAll image.outbox (new.map fun e => (e.identity, e)))
    (hreceipts : image'.receipts = image.receipts) : Bound image' (effects ++ new) receipts where
  outboxFiled := houtbox ▸ hb.outboxFiled.insertAll new hdistinct hfresh
  acceptedAt := forall_mem_append.2 ⟨fun e he => (hb.acceptedAt e he).trans hposition, hat⟩
  receiptsFiled := hreceipts ▸ hb.receiptsFiled
  recordedAt r hr := (hb.recordedAt r hr).trans hposition
  known r hr := by
    rw [houtbox, mem_insertAll]
    exact .inr (hb.known r hr)
  first := hb.first

/-- Receipts under new identities are recorded, one for each effect that had none. -/
theorem addReceipts (new : List (DurableReceipt E R))
    (hdistinct : (new.map (·.identity)).Nodup) (hfresh : ∀ r ∈ new, r.identity ∉ image.receipts)
    (hat : ∀ r ∈ new, r.recordedAt ≤ image.position)
    (hknown : ∀ r ∈ new, r.effectIdentity ∈ image.outbox)
    (hdistinctEffects : (new.map (·.effectIdentity)).Nodup)
    (hnone : ∀ r ∈ new, r.effectIdentity ∉ receipted image) (hreceipts : image'.receipts =
      insertAll image.receipts (new.map fun r => (r.identity, r)))
    (hsame : image'.position = image.position ∧ image'.outbox = image.outbox) :
    Bound image' effects (receipts ++ new) where
  outboxFiled := hsame.2 ▸ hb.outboxFiled
  acceptedAt := hsame.1 ▸ hb.acceptedAt
  receiptsFiled := hreceipts ▸ hb.receiptsFiled.insertAll new hdistinct hfresh
  recordedAt := hsame.1 ▸ forall_mem_append.2 ⟨hb.recordedAt, hat⟩
  known := hsame.2 ▸ forall_mem_append.2 ⟨hb.known, hknown⟩
  first r hr r' hr' heq := by
    have hapart : ∀ r ∈ receipts, ∀ r' ∈ new, r.effectIdentity ≠ r'.effectIdentity :=
      fun r hr r' hr' heq => hnone r' hr' (hb.mem_receipted_iff.2 ⟨r, hr, heq⟩)
    rcases mem_append.1 hr with hr | hr <;> rcases mem_append.1 hr' with hr' | hr'
    · exact hb.first r hr r' hr' heq
    · exact absurd heq (hapart r hr r' hr')
    · exact absurd heq.symm (hapart r' hr' r hr)
    · rw [inj_on_of_nodup_map hdistinctEffects hr hr' heq]

/-- An accepted commit binds its effects, then records its receipts. -/
theorem commit (hfits : StateFits image log) (ha : Accepts image proposal image') :
    Bound image' (effects ++ proposal.effects.map (·.accept image'.position))
      (receipts ++ proposal.receipts.map (·.record image'.position proposal.fence)) := by
  have hle := ha.position_le hfits
  obtain ⟨advanced, hadvanced, rfl⟩ := ha.advanced
  obtain ⟨hsame, -, -⟩ := advanceState_ok hadvanced hfits
  change image.position ≤ advanced.position at hle
  have hfence : proposal.fence = advanced.fence := ha.fence.trans hsame.fence.symm
  set bound : DurableOwnerImage O I E R := { advanced with
    outbox := (bindCommit advanced proposal).outbox } with hbound
  have hwith : Bound bound (effects ++ proposal.effects.map (·.accept advanced.position))
      receipts := by
    refine hb.addEffects _ ?_ ?_ hle ?_ ?_ hsame.receipts
    · rw [map_map]
      exact ha.effectsDistinct
    · exact forall_mem_map.2 ha.effectsFresh
    · exact forall_mem_map.2 fun _ _ => le_rfl
    · rw [map_map, ← hsame.outbox]
      rfl
  have hreceipted : receipted bound = receipted image := by
    rw [receipted, receipted, ← hsame.receipts]
  refine hwith.addReceipts _ ?_ ?_ ?_ ?_ ?_ ?_ ?_ ⟨rfl, rfl⟩
  · rw [map_map]
    exact ha.receipts.distinct
  · refine forall_mem_map.2 fun r hr => ?_
    change r.identity ∉ advanced.receipts
    rw [hsame.receipts]
    exact (ha.receipts.fresh r hr).2
  · exact forall_mem_map.2 fun _ _ => le_rfl
  · refine forall_mem_map.2 fun r hr => ?_
    have hknown := ha.receipts.known r hr
    simp only [mem_insertAll_iff, mem_append, Std.ExtTreeMap.mem_keys,
      Std.ExtTreeSet.not_mem_empty, false_or] at hknown
    change r.effectIdentity ∈ insertAll advanced.outbox _
    rw [mem_insertAll, map_map, hsame.outbox]
    exact hknown
  · rw [map_map]
    exact ha.receipts.distinctEffects
  · refine forall_mem_map.2 fun r hr => ?_
    rw [hreceipted]
    exact ha.receipts.first r hr
  · rw [map_map, hfence]
    rfl

/-- Recovery accepts the image. -/
theorem recovers {accepted : List (I × List VersionedBytes)}
    (hl : Logged image accepted) : recover image = .ok ⟨image⟩ := by
  unfold recover
  rw [checkState_ok hl.state]
  dsimp only
  rw [if_neg, if_neg]
  · rw [not_not]
    refine nodup_vals_map fun a b v w hv hw heq => ?_
    obtain ⟨hin, rfl⟩ := (hb.receiptsFiled a v).1 hv
    obtain ⟨hin', rfl⟩ := (hb.receiptsFiled b w).1 hw
    exact hb.first v hin w hin' heq
  · rintro (⟨record, hin, hlt⟩ | ⟨effect, hin, hlt⟩ | ⟨receipt, hin, hbeyond⟩)
    · obtain ⟨i, hin⟩ := mem_vals.1 hin
      exact absurd (hl.through i record hin) hlt.not_ge
    · exact absurd (hb.acceptedAt effect (hb.outboxFiled.mem_vals.1 hin)) hlt.not_ge
    · rw [hb.receiptsFiled.mem_vals] at hin
      rcases hbeyond with hlt | hmissing
      · exact absurd (hb.recordedAt receipt hin) hlt.not_ge
      · exact hmissing (hb.known receipt hin)

theorem pending (e : DurableEffect E) :
    e ∈ pendingEffects ⟨image⟩ ↔ e ∈ effects ∧ ∀ r ∈ receipts, r.effectIdentity ≠ e.identity := by
  unfold pendingEffects
  rw [(perm_insertionSort _ _).mem_iff, mem_filter, hb.outboxFiled.mem_vals,
    Bool.not_eq_true', ← Bool.not_eq_true, Std.ExtTreeSet.contains_iff_mem, hb.mem_receipted_iff]
  push Not
  rfl

end Bound

end

/-! ## Runs -/

namespace OwnerHistory

variable {h : OwnerHistory O I E R}

/-- The image holds what the callers were told. -/
structure Inv (h : OwnerHistory O I E R) : Prop where
  running : h.running = true
  logged : Logged h.core.image h.accepted
  bound : Bound h.core.image h.effects h.receipts

theorem inv_start (ownerId : O) (mode : DurableOwnerMode) (fence : Nat) :
    (start ownerId mode fence : OwnerHistory O I E R).Inv := by
  refine ⟨rfl, ⟨⟨rfl, ?_⟩, by simp [start], by simp [start], ?_, ?_⟩,
    ⟨?_, by simp [start], ?_, by simp [start], by simp [start], by simp [start]⟩⟩
  · cases mode <;> exact ⟨rfl, rfl⟩
  all_goals simp [SortedMap.Files, start, new]

theorem Inv.answered (hi : h.Inv) {core : DurableOwnerCore O I E R} (hcore : core = h.core)
    (answer : OwnerAnswer I E R) : (h.answered core answer).Inv := by
  subst hcore
  exact ⟨hi.running, hi.logged, hi.bound⟩

theorem Inv.recordReceipt (hi : h.Inv) {fence : Nat} {receipt : DurableReceiptIntent E R}
    (hnew : receipt.identity ∉ h.core.image.receipts)
    (hknown : receipt.effectIdentity ∈ h.core.image.outbox)
    (hfirst : ∀ known ∈ h.core.image.receipts.vals, known.effectIdentity ≠ receipt.effectIdentity)
    (answers : List (OwnerAnswer I E R)) :
    Inv { h with
      core := ⟨{ h.core.image with
        receipts := (h.core.image.receipts.insert receipt.identity
          (receipt.record h.core.image.position fence)) }⟩
      answers := answers
      receipts := h.receipts ++ [receipt.record h.core.image.position fence] } := by
  have hnone : receipt.effectIdentity ∉ receipted h.core.image := by
    rw [mem_receipted]
    rintro ⟨r, hr, heq⟩
    exact hfirst r hr heq
  refine ⟨hi.running, ⟨hi.logged.state, hi.logged.advanced, hi.logged.once, hi.logged.inbox,
    hi.logged.through⟩, ?_⟩
  refine hi.bound.addReceipts [receipt.record h.core.image.position fence] ?_ ?_ ?_ ?_ ?_ ?_ rfl
    ⟨rfl, rfl⟩
  · exact nodup_singleton _
  · exact forall_mem_singleton.2 hnew
  · exact forall_mem_singleton.2 le_rfl
  · exact forall_mem_singleton.2 hknown
  · exact nodup_singleton _
  · exact forall_mem_singleton.2 hnone

theorem Inv.fence (hi : h.Inv) (fence : Nat) (answers : List (OwnerAnswer I E R)) :
    Inv { h with core := ⟨{ h.core.image with fence := fence }⟩, answers := answers } where
  running := hi.running
  logged := ⟨hi.logged.state, hi.logged.advanced, hi.logged.once, hi.logged.inbox,
    hi.logged.through⟩
  bound := ⟨hi.bound.outboxFiled, hi.bound.acceptedAt, hi.bound.receiptsFiled, hi.bound.recordedAt,
    hi.bound.known, hi.bound.first⟩

variable [DecidableEq O]

theorem step_crash (hi : h.Inv) : h.step .crash = h := by
  simp only [OwnerHistory.step, hi.bound.recovers hi.logged]

theorem Inv.step (hi : h.Inv) (op : OwnerOp O I E R) : (h.step op).Inv := by
  cases op with
  | commit proposal =>
    rcases h.core.commit_cases proposal with ⟨hcore, hnot⟩ | ⟨image', ha, heq⟩
    · simp only [OwnerHistory.step]
      exact hi.answered hcore _
    · simp only [OwnerHistory.step, heq]
      exact ⟨hi.running, hi.logged.commit ha, hi.bound.commit hi.logged.state ha⟩
  | recordReceipt fence receipt =>
    rcases h.core.recordReceipt_cases fence receipt with
      ⟨hcore, hnot⟩ | ⟨⟨hnew, -, hknown, hfirst⟩, heq⟩
    · simp only [OwnerHistory.step]
      exact hi.answered hcore _
    · simp only [OwnerHistory.step, heq]
      exact hi.recordReceipt hnew hknown hfirst _
  | advanceFence fence =>
    simp only [OwnerHistory.step, advanceFence]
    split
    · exact hi.answered rfl _
    · exact hi.fence fence _
  | crash =>
    rw [step_crash hi]
    exact hi

theorem inv_run (ownerId : O) (mode : DurableOwnerMode) (fence : Nat)
    (ops : List (OwnerOp O I E R)) : ((start ownerId mode fence).run ops).Inv :=
  foldl_invariant (inv_start ownerId mode fence) fun h op hi => by
    rw [if_pos hi.running]
    exact hi.step op

/-- What a run leaves. Recovery gives the owner back; the state is the log of the accepted payloads
at the positions 1 to the current one, whole or as its last record; every inbox identity was
accepted once, with some payload; the pending effects are the bound ones without a receipt. -/
structure ExactlyOnce (h : OwnerHistory O I E R) : Prop where
  running : h.running = true
  recovers : recover h.core.image = .ok h.core
  state : StateFits h.core.image (acceptedLog h.accepted)
  positions : h.core.image.mode = .eventHistory →
    h.core.image.history.map (·.position) = (List.range h.core.image.position).map (· + 1)
  advanced : ∀ a ∈ h.accepted, a.2 ≠ []
  once : (h.accepted.map Prod.fst).Nodup
  inbox : ∀ i, i ∈ h.core.image.inbox ↔ i ∈ h.accepted.map Prod.fst
  pending : ∀ e, e ∈ h.core.pendingEffects ↔
    e ∈ h.effects ∧ ∀ r ∈ h.receipts, r.effectIdentity ≠ e.identity

/-- What every call keeps to: one that is not accepted changes nothing, a duplicate is answered to
what is in the inbox, a call that changes the image carries its fence and leaves it, and only a
higher fence replaces the fence, and nothing else. -/
structure Guarded (c : DurableOwnerCore O I E R) : Prop where
  duplicate : ∀ proposal through, (c.commit proposal).2 = .ok (.duplicate through) →
    ∃ known, c.image.inbox[proposal.inboxIdentity]? = some known ∧
      known.ingressFingerprint = proposal.ingressFingerprint ∧ known.committedThrough = through
  commit : ∀ proposal, (∀ through, (c.commit proposal).2 ≠ .ok (.committed through)) →
    (c.commit proposal).1 = c
  commitFence : ∀ proposal, (c.commit proposal).1 ≠ c →
    proposal.fence = c.image.fence ∧ (c.commit proposal).1.image.fence = c.image.fence
  receipt : ∀ fence receipt, (c.recordReceipt fence receipt).2 ≠ .ok .recorded →
    (c.recordReceipt fence receipt).1 = c
  receiptFence : ∀ fence receipt, (c.recordReceipt fence receipt).1 ≠ c →
    fence = c.image.fence ∧ (c.recordReceipt fence receipt).1.image.fence = c.image.fence
  fence : ∀ fence, (c.advanceFence fence).2 ≠ .ok () → (c.advanceFence fence).1 = c
  fenceAdvances : ∀ fence, (c.advanceFence fence).1 ≠ c →
    c.image.fence < fence ∧ (c.advanceFence fence).1 = ⟨{ c.image with fence := fence }⟩

theorem guarded {c : DurableOwnerCore O I E R} {log : List VersionedBytes}
    (hfits : StateFits c.image log) : Guarded c where
  duplicate proposal through hdup := by
    unfold DurableOwnerCore.commit at hdup
    split at hdup
    · cases hdup
    · split at hdup
      · rename_i known hknown
        split at hdup
        · cases hdup
          exact ⟨known, hknown, ‹_›, rfl⟩
        · cases hdup
      · split at hdup <;> cases hdup
  commit proposal hnot := by
    rcases c.commit_cases proposal with ⟨hcore, -⟩ | ⟨image', -, heq⟩
    · exact hcore
    · rw [heq] at hnot
      exact absurd rfl (hnot _)
  commitFence proposal hne := by
    rcases c.commit_cases proposal with ⟨hcore, -⟩ | ⟨image', ha, heq⟩
    · exact absurd hcore hne
    · rw [heq]
      obtain ⟨advanced, hadvanced, rfl⟩ := ha.advanced
      exact ⟨ha.fence, (advanceState_ok hadvanced hfits).1.fence⟩
  receipt fence receipt hnot := by
    rcases c.recordReceipt_cases fence receipt with ⟨hcore, -⟩ | ⟨-, heq⟩
    · exact hcore
    · rw [heq] at hnot
      exact absurd rfl hnot
  receiptFence fence receipt hne := by
    rcases c.recordReceipt_cases fence receipt with ⟨hcore, -⟩ | ⟨⟨-, hfence, -⟩, heq⟩
    · exact absurd hcore hne
    · rw [heq]
      exact ⟨hfence, rfl⟩
  fence fence hnot := by
    unfold advanceFence at hnot ⊢
    split
    · rfl
    · rename_i hlt
      rw [if_neg hlt] at hnot
      exact absurd rfl hnot
  fenceAdvances fence hne := by
    unfold advanceFence at hne ⊢
    split
    · rename_i hle
      rw [if_pos hle] at hne
      exact absurd rfl hne
    · rename_i hlt
      exact ⟨not_le.1 hlt, rfl⟩

/-- **Exactly-once commits.** After every run of commits, receipts, fences and crashes. -/
theorem exactly_once (ownerId : O) (mode : DurableOwnerMode) (fence : Nat)
    (ops : List (OwnerOp O I E R)) :
    let h := (start ownerId mode fence).run ops
    h.ExactlyOnce ∧ Guarded h.core := by
  intro h
  have hi : h.Inv := inv_run ownerId mode fence ops
  refine ⟨⟨hi.running, hi.bound.recovers hi.logged, hi.logged.state, fun hmode => ?_,
    hi.logged.advanced, hi.logged.once, hi.logged.inbox, hi.bound.pending⟩, guarded hi.logged.state⟩
  obtain ⟨hposition, hstate⟩ := hi.logged.state
  simp only [hmode] at hstate
  rw [hstate.1, hposition, map_position_numbered]

/-- **Crashes are invisible.** A run with crashes leaves the owner running as the run without them
does, and has given its callers the same answers. -/
theorem crashes_invisible (ownerId : O) (mode : DurableOwnerMode) (fence : Nat)
    (ops : List (OwnerOp O I E R)) :
    (start ownerId mode fence).run ops =
      (start ownerId mode fence).run (ops.filter fun op => !op.isCrash) := by
  induction ops using reverseRecOn with
  | nil => rfl
  | append_singleton ops op ih =>
    have hsplit (xs ys : List (OwnerOp O I E R)) : (start ownerId mode fence).run (xs ++ ys) =
        ((start ownerId mode fence).run xs).run ys := foldl_append
    rw [filter_append, hsplit, hsplit, ← ih]
    cases op with
    | crash =>
      have hi := inv_run ownerId mode fence ops
      show (if ((start ownerId mode fence).run ops).running then _ else _) = _
      rw [if_pos hi.running]
      exact step_crash hi
    | commit _ | recordReceipt _ _ | advanceFence _ => rfl

end OwnerHistory

end Lazily.Durable
