import Lazily.Egress.Core
import Lazily.Lib.Reach

/-!
# What becomes of an enqueued sequence

`conserved_iff`: throughout a run every sequence that `enqueue` returned, that the watermark does
not cover and that was not dropped as exhausted is in exactly one of `pending`, `inflight` and
`failed`, in order and above the watermark, iff no `enqueue` is made while the watermark has run
ahead of the assigned sequences. `ack` takes any watermark from its transport
(`ack_ahead_of_enqueue`). The containers stay in order under every operation, and each moves
sequences between them or covers them; `Inv.step` adds what was returned so far.
-/

namespace Lazily.Egress

open Lib List SortedMap History Nat
open scoped SortedSet

variable {T : Type} {s : Nat}

/-! ## The pending queue -/

variable (records : List (Record T))

def sequences : List Nat := records.map (·.sequence)

def Ascending : Prop :=
  records.Pairwise fun a b => a.sequence < b.sequence

@[simp] theorem sequences_append (records' : List (Record T)) :
    sequences (records ++ records') = sequences records ++ sequences records' := map_append

@[simp] theorem sequences_under (generation : Nat) :
    sequences (records.map (·.under generation)) = sequences records := by
  simp [sequences, EgressEnvelope.under]

namespace EgressCore

theorem perm_insertPendingOrdered (pending : List (Record T)) (record : Record T) :
    (sequences (insertPendingOrdered pending record)).Perm (record.sequence :: sequences pending) :=
  (perm_orderedInsert _ record pending).map _

theorem ascending_insertPendingOrdered {record : Record T} :
    ∀ {pending : List (Record T)}, Ascending pending → record.sequence ∉ sequences pending →
      Ascending (insertPendingOrdered pending record)
  | [], _, _ => pairwise_singleton _ _
  | front :: rest, h, hnew => by
    obtain ⟨hfront, hrest⟩ := pairwise_cons.1 h
    simp only [sequences, map_cons, mem_cons, not_or] at hnew
    unfold insertPendingOrdered
    rw [orderedInsert_cons]
    split
    · rename_i hlt
      refine pairwise_cons.2 ⟨fun b hb => ?_, h⟩
      rcases mem_cons.1 hb with rfl | hb
      · exact hlt
      · exact hlt.trans (hfront b hb)
    · refine pairwise_cons.2 ⟨fun b hb => ?_, ascending_insertPendingOrdered hrest hnew.2⟩
      rcases (mem_orderedInsert _).1 hb with rfl | hb
      · omega
      · exact hfront b hb

/-! ## Putting records back -/

theorem requeue_spec (generation : Nat) : ∀ (records pending : List (Record T)),
    (sequences records ++ sequences pending).Nodup → Ascending pending →
    Ascending (requeue generation pending records) ∧
      (sequences (requeue generation pending records)).Perm (sequences records ++ sequences pending)
  | [], _, _, h => ⟨h, .refl _⟩
  | record :: records, pending, hnodup, h => by
    have hperm := perm_insertPendingOrdered pending (record.under generation)
    have hmove : (sequences records ++
        sequences (insertPendingOrdered pending (record.under generation))).Perm
        (sequences (record :: records) ++ sequences pending) :=
      (hperm.append_left _).trans perm_middle
    have hnew : record.sequence ∉ sequences pending := fun hin =>
      (nodup_cons.1 hnodup).1 (mem_append_right _ hin)
    obtain ⟨hasc, hall⟩ := requeue_spec generation records
      (insertPendingOrdered pending (record.under generation)) (hmove.nodup_iff.2 hnodup)
      (ascending_insertPendingOrdered h hnew)
    exact ⟨hasc, hall.trans hmove⟩

def Keyed (records : SortedMap Nat (Record T)) : Prop :=
  ∀ (s : Nat) r, records[s]? = some r → r.sequence = s

theorem keyed_empty : Keyed (∅ : SortedMap Nat (Record T)) := by
  intro s r hr
  simp at hr

namespace Keyed

variable {records : SortedMap Nat (Record T)} (h : Keyed records)
include h

theorem sequences_vals : sequences records.vals = records.keys := by
  rw [← Std.ExtTreeMap.map_fst_toList_eq_keys, sequences, vals, map_map]
  refine map_congr_left fun e he => ?_
  exact h e.1 e.2 (Std.ExtTreeMap.mem_toList_iff_getElem?_eq_some.1 he)

theorem mem_iff : s ∈ sequences records.vals ↔ s ∈ records := by
  rw [h.sequences_vals, Std.ExtTreeMap.mem_keys]

theorem insert {record : Record T} (hs : record.sequence = s) :
    Keyed (records.insert s record) := by
  intro k r hr
  rw [get_insert] at hr
  split at hr
  · rename_i heq
    cases hr
    exact hs.trans heq
  · exact h k r hr

theorem erase (s : Nat) : Keyed (records.erase s) := by
  intro k r hr
  rw [get_erase] at hr
  split at hr
  · cases hr
  · exact h k r hr

/-- A filter of the map by sequence is a filter of its sequences. -/
theorem filter (through : Nat) :
    let above : SortedMap Nat (Record T) := records.filter fun sequence _ => through < sequence
    Keyed above ∧ sequences above.vals = (sequences records.vals).filter (through < ·) := by
  have hkeyed : Keyed (records.filter fun sequence _ => through < sequence) :=
    fun s r hr => h s r (get_filter_eq_some.1 hr).1
  refine ⟨hkeyed, ?_⟩
  rw [hkeyed.sequences_vals, h.sequences_vals, ← Std.ExtTreeMap.map_fst_toList_eq_keys,
    ← Std.ExtTreeMap.map_fst_toList_eq_keys, Std.ExtTreeMap.toList_filter, filter_map]
  rfl

end Keyed

/-! ## Where a sequence is -/

/-- The watermark covers the sequence. -/
def Covered (c : EgressCore T) (s : Nat) : Prop :=
  ∃ through, c.ackedThrough = some through ∧ s ≤ through

def Holds (c : EgressCore T) (s : Nat) : Prop :=
  s ∈ sequences c.pending ∨ s ∈ c.inflight ∨ s ∈ c.failed

/-- The core holds the sequence in exactly one of its three containers. -/
def HoldsOnce (c : EgressCore T) (s : Nat) : Prop :=
  (s ∈ sequences c.pending ∧ s ∉ c.inflight ∧ s ∉ c.failed) ∨
    (s ∉ sequences c.pending ∧ s ∈ c.inflight ∧ s ∉ c.failed) ∨
      (s ∉ sequences c.pending ∧ s ∉ c.inflight ∧ s ∈ c.failed)

/-- The sequences of all records the core holds. -/
def held (c : EgressCore T) : List Nat :=
  sequences c.pending ++ (sequences c.inflight.vals ++ sequences c.failed.vals)

/-! ## What the transitions move -/

section

variable (c : EgressCore T)
include c

section

variable (generation : Nat)

/-- A claim moves the front of the queue into the window, or nothing. -/
theorem claim_cases : (c.claim generation).1 = c ∨
    ∃ front rest record retry, c.pending = front :: rest ∧ record.sequence = front.sequence ∧
      c.inflight.size < c.policy.inflightLimit ∧
      (c.claim generation).1 = { c with
        pending := rest, inflight := c.inflight.insert front.sequence record, retry := retry } := by
  unfold claim
  split
  · exact .inl rfl
  · split
    · exact .inl rfl
    · rename_i hroom
      cases hp : c.pending with
      | nil => exact .inl rfl
      | cons front rest =>
        let record : Record T :=
          ⟨c.generation, front.sequence, min (front.attempt + 1) (2 ^ 32 - 1), front.payload⟩
        exact .inr ⟨front, rest, record, _, rfl, rfl, Nat.lt_of_not_le hroom, rfl⟩

/-- An ack raises the watermark and prunes up to it, or does nothing. -/
theorem ack_cases (through : Nat) :
    (c.ack generation through).1 = c ∨ ∃ retry, ¬c.Covered through ∧
      (c.ack generation through).1 = { c with
        ackedThrough := some through
        inflight := c.inflight.filter fun sequence _ => through < sequence
        failed := c.failed.filter fun sequence _ => through < sequence
        pending := c.pending.filter fun record => through < record.sequence
        retry := retry } := by
  unfold ack
  split
  · exact .inl rfl
  · split
    · exact .inl rfl
    · rename_i hnew
      refine .inr ⟨_, fun ⟨through', hacked, hle⟩ => hnew ?_, rfl⟩
      simpa [hacked] using hle

/-- A failure takes a record out of the window, to park it or to drop it. -/
theorem fail_cases (sequence : Nat) : (c.fail generation sequence).1 = c ∨
    ∃ record retry, c.inflight[sequence]? = some record ∧
      ((c.fail generation sequence).1 = { c with
          inflight := c.inflight.erase sequence
          failed := c.failed.insert sequence record
          retry := some retry } ∨
        (c.fail generation sequence).1 = { c with
          inflight := c.inflight.erase sequence, retry := some retry } ∧
          (c.fail generation sequence).2.2 = .exhausted retry ∧ retry.sequence = sequence) := by
  unfold fail
  split
  · exact .inl rfl
  · cases hrec : c.inflight[sequence]? with
    | none => exact .inl rfl
    | some record =>
      refine .inr ⟨record, ⟨sequence, record.attempt, c.backoff record.attempt,
        c.policy.retryBudget < record.attempt⟩, rfl, ?_⟩
      by_cases hex : c.policy.retryBudget < record.attempt
      · exact .inr (by simp [hex])
      · exact .inl (by simp [hex])

/-- A retry moves a parked record back into the queue, or nothing. -/
theorem retryNow_cases (sequence : Nat) : (c.retryNow generation sequence).1 = c ∨
    ∃ record retry, c.failed[sequence]? = some record ∧
      (c.retryNow generation sequence).1 = { c with
        failed := c.failed.erase sequence
        pending := insertPendingOrdered c.pending record
        retry := retry } := by
  unfold retryNow
  split
  · exact .inl rfl
  · cases hrec : c.failed[sequence]? with
    | none => exact .inl rfl
    | some record => exact .inr ⟨record, _, rfl, rfl⟩

/-- A reconnect moves everything back into the queue, or nothing. -/
theorem reconnect_cases : (c.reconnect generation).1 = c ∨
    (c.reconnect generation).1 = { c with
      generation := generation
      inflight := ∅
      failed := ∅
      pending := (requeue generation (requeue generation c.pending (SortedMap.vals c.inflight))
        (SortedMap.vals c.failed)).map (·.under generation)
      retry := none } := by
  unfold reconnect
  split
  · exact .inl rfl
  · split
    · exact .inl rfl
    · exact .inr rfl

end

/-- The containers are in order, without repetition, and above the watermark. -/
structure Ordered (c : EgressCore T) : Prop where
  ascending : Ascending c.pending
  inflightKeyed : Keyed c.inflight
  failedKeyed : Keyed c.failed
  nodup : c.held.Nodup
  above : ∀ s ∈ c.held, ¬c.Covered s
  assigned : ∀ s ∈ c.held, s < c.nextSequence
  window : c.inflight.size ≤ c.policy.inflightLimit

/-- `c'` is `c` with records moved between the containers. -/
structure Moved (c c' : EgressCore T) : Prop where
  acked : c'.ackedThrough = c.ackedThrough
  next : c'.nextSequence = c.nextSequence
  held : c'.held.Perm c.held

theorem Moved.refl : Moved c c := ⟨rfl, rfl, .refl _⟩

end

variable {generation : Nat}

theorem covered_ack {c : EgressCore T} {through : Nat} (hs : c.Covered s) :
    (c.ack generation through).1.Covered s := by
  rcases c.ack_cases generation through with hc | ⟨retry, hnew, hc⟩
  · rwa [hc]
  · obtain ⟨through', hacked, hle⟩ := hs
    have hlt : through' < through := Nat.lt_of_not_le fun hge => hnew ⟨through', hacked, hge⟩
    exact ⟨through, by rw [hc], by omega⟩

namespace Ordered

variable {c c' : EgressCore T} (h : c.Ordered)
include h

theorem holds_iff : c.Holds s ↔ s ∈ c.held := by
  rw [Holds, held, mem_append, mem_append, h.inflightKeyed.mem_iff, h.failedKeyed.mem_iff]

/-- What waits is not in flight, what is in flight is not parked. -/
theorem disjoint : (∀ s ∈ sequences c.pending, s ∉ c.inflight ∧ s ∉ c.failed) ∧
    ∀ s ∈ c.inflight, s ∉ c.failed := by
  have hnodup := h.nodup
  simp only [held, nodup_append, mem_append, h.inflightKeyed.mem_iff,
    h.failedKeyed.mem_iff] at hnodup
  obtain ⟨-, ⟨-, -, hif⟩, hp⟩ := hnodup
  exact ⟨fun s hs => ⟨fun hi => hp s hs s (.inl hi) rfl, fun hf => hp s hs s (.inr hf) rfl⟩,
    fun s hs hf => hif s hs s hf rfl⟩

theorem holdsOnce (hs : c.Holds s) : c.HoldsOnce s := by
  obtain ⟨hpending, hinflight⟩ := h.disjoint
  rcases hs with hs | hs | hs
  · exact .inl ⟨hs, hpending s hs⟩
  · exact .inr (.inl ⟨fun hp => (hpending s hp).1 hs, hs, hinflight s hs⟩)
  · exact .inr (.inr ⟨fun hp => (hpending s hp).2 hs, fun hi => hinflight s hi hs, hs⟩)

/-- Records may move, and go, while the watermark and the next sequence stand. -/
theorem of_subperm (hacked : c'.ackedThrough = c.ackedThrough)
    (hnext : c'.nextSequence = c.nextSequence) (hsub : c'.held.Subperm c.held)
    (hasc : Ascending c'.pending) (hinflight : Keyed c'.inflight) (hfailed : Keyed c'.failed)
    (hwindow : c'.inflight.size ≤ c'.policy.inflightLimit) : c'.Ordered := by
  obtain ⟨l, hperm, hl⟩ := hsub
  have hmem : ∀ s ∈ c'.held, s ∈ c.held := fun s hs => hl.subset (hperm.mem_iff.2 hs)
  refine ⟨hasc, hinflight, hfailed, hperm.nodup_iff.1 (h.nodup.sublist hl), ?_, ?_, hwindow⟩
  · unfold Covered
    rw [hacked]
    exact fun s hs => h.above s (hmem s hs)
  · rw [hnext]
    exact fun s hs => h.assigned s (hmem s hs)

theorem of_moved (hm : Moved c c') (hasc : Ascending c'.pending)
    (hinflight : Keyed c'.inflight) (hfailed : Keyed c'.failed)
    (hwindow : c'.inflight.size ≤ c'.policy.inflightLimit) : c'.Ordered ∧ Moved c c' :=
  ⟨h.of_subperm hm.acked hm.next hm.held.subperm hasc hinflight hfailed hwindow, hm⟩

/-- A new sequence is above what is held; it must be above the watermark as well. -/
theorem enqueue (payload : T) (hnext : c.nextSequence + 1 < 2 ^ 64)
    (hack : ¬c.Covered c.nextSequence) :
    (c.enqueue payload).1.Ordered ∧ (c.enqueue payload).1.held.Perm (c.nextSequence :: c.held) := by
  have hperm : (c.enqueue payload).1.held.Perm (c.nextSequence :: c.held) := by
    simp only [EgressCore.enqueue, held, sequences_append, append_assoc]
    exact perm_middle
  have hseq : (c.enqueue payload).1.nextSequence = c.nextSequence + 1 := min_eq_left (by omega)
  refine ⟨⟨?_, h.inflightKeyed, h.failedKeyed, ?_, fun s hs => ?_, fun s hs => ?_, h.window⟩, hperm⟩
  · refine pairwise_append.2 ⟨h.ascending, pairwise_singleton _ _, fun a ha b hb => ?_⟩
    rw [mem_singleton.1 hb]
    exact h.assigned _ (mem_append_left _ (mem_map_of_mem ha))
  · exact hperm.nodup_iff.2 (nodup_cons.2 ⟨fun hs => (h.assigned _ hs).false, h.nodup⟩)
  · rcases mem_cons.1 (hperm.mem_iff.1 hs) with rfl | hs
    · exact hack
    · exact h.above s hs
  · rw [hseq]
    rcases mem_cons.1 (hperm.mem_iff.1 hs) with rfl | hs
    · omega
    · have := h.assigned s hs
      omega

variable (generation : Nat)

theorem claim : (c.claim generation).1.Ordered ∧ Moved c (c.claim generation).1 := by
  rcases c.claim_cases generation with hc | ⟨front, rest, record, retry, hp, hrec, hroom, hc⟩
  · rw [hc]
    exact ⟨h, .refl c⟩
  · have hin : front.sequence ∈ sequences c.pending := by simp [hp, sequences]
    rw [hc]
    refine h.of_moved ⟨rfl, rfl, ?_⟩ (pairwise_cons.1 (hp ▸ h.ascending)).2
      (h.inflightKeyed.insert hrec) h.failedKeyed (Std.ExtTreeMap.size_insert_le.trans hroom)
    have hvals := ((vals_insert_perm (v := record) (h.disjoint.1 _ hin).1).map
      (·.sequence)).append_right (sequences c.failed.vals)
    simp only [held, hp]
    refine (hvals.append_left _).trans (perm_middle.trans ?_)
    simp [sequences, hrec]

/-- An ack keeps what is above the new watermark. -/
theorem ack (through : Nat) : (c.ack generation through).1.Ordered ∧
    ∀ s, s ∈ (c.ack generation through).1.held ↔
      s ∈ c.held ∧ ¬(c.ack generation through).1.Covered s := by
  rcases c.ack_cases generation through with hc | ⟨retry, hnew, hc⟩
  · rw [hc]
    exact ⟨h, fun s => ⟨fun hs => ⟨hs, h.above s hs⟩, And.left⟩⟩
  · obtain ⟨hinflight, hvals⟩ := h.inflightKeyed.filter through
    obtain ⟨hfailed, hvals'⟩ := h.failedKeyed.filter through
    have hheld : (c.ack generation through).1.held = c.held.filter (through < ·) := by
      rw [hc]
      simp only [held, hvals, hvals']
      simp [sequences, filter_map, Function.comp_def]
    have hcov : ∀ s, ¬(c.ack generation through).1.Covered s ↔ through < s := by
      rw [hc]
      simp [Covered]
    have hmem : ∀ s, s ∈ (c.ack generation through).1.held ↔
        s ∈ c.held ∧ ¬(c.ack generation through).1.Covered s := by
      intro s
      rw [hheld, hcov, mem_filter, decide_eq_true_eq]
    refine ⟨⟨?_, ?_, ?_, ?_, fun s hs => ((hmem s).1 hs).2, fun s hs => ?_, ?_⟩, hmem⟩
    · rw [hc]
      exact h.ascending.filter _
    · rw [hc]
      exact hinflight
    · rw [hc]
      exact hfailed
    · rw [hheld]
      exact h.nodup.filter _
    · have := h.assigned s ((hmem s).1 hs).1
      rwa [hc]
    · rw [hc]
      exact Std.ExtTreeMap.size_filter_le_size.trans h.window

/-- A failure keeps every record, but for the one it reports as exhausted. -/
theorem fail (sequence : Nat) : (c.fail generation sequence).1.Ordered ∧
      (c.fail generation sequence).1.ackedThrough = c.ackedThrough ∧
      ∀ s ∈ c.held, s ∈ (c.fail generation sequence).1.held ∨
        ∃ retry, (c.fail generation sequence).2.2 = .exhausted retry ∧ retry.sequence = s := by
  rcases c.fail_cases generation sequence with hc | ⟨record, retry, hrec, hcases⟩
  · rw [hc]
    exact ⟨h, rfl, fun s hs => .inl hs⟩
  · have hkey : record.sequence = sequence := h.inflightKeyed sequence _ hrec
    have hwindow : (c.inflight.erase sequence).size ≤ c.policy.inflightLimit :=
      Std.ExtTreeMap.size_erase_le.trans h.window
    have hinflight := h.inflightKeyed.erase sequence
    have hvals := (((vals_erase_perm hrec).map (·.sequence)).append_right
      (sequences c.failed.vals)).append_left (sequences c.pending)
    rcases hcases with hc | ⟨hc, hout, hseq⟩
    · -- parked
      have hnew := h.disjoint.2 sequence (mem_of_get hrec)
      have hparked := ((vals_insert_perm (v := record) hnew).map
        (·.sequence)).append_left (sequences (vals (c.inflight.erase sequence)))
      have hmoved : Moved c (c.fail generation sequence).1 := by
        rw [hc]
        refine ⟨rfl, rfl, List.Perm.trans ?_ hvals.symm⟩
        exact (hparked.trans perm_middle).append_left _
      refine ⟨?_, hmoved.acked, fun s hs => .inl (hmoved.held.mem_iff.2 hs)⟩
      refine h.of_subperm hmoved.acked hmoved.next hmoved.held.subperm ?_ ?_ ?_ ?_
      all_goals rw [hc]
      · exact h.ascending
      · exact hinflight
      · exact h.failedKeyed.insert hkey
      · exact hwindow
    · -- dropped
      have hperm : c.held.Perm (sequence :: (c.fail generation sequence).1.held) := by
        rw [hc]
        refine hvals.trans (perm_middle.trans ?_)
        simp [held, sequences, hkey]
      have hsub : (c.fail generation sequence).1.held.Subperm c.held :=
        (sublist_cons_self _ _).subperm.trans hperm.symm.subperm
      refine ⟨?_, by rw [hc], fun s hs => ?_⟩
      · refine h.of_subperm (by rw [hc]) (by rw [hc]) hsub ?_ ?_ ?_ ?_
        all_goals rw [hc]
        · exact h.ascending
        · exact hinflight
        · exact h.failedKeyed
        · exact hwindow
      · rcases mem_cons.1 (hperm.mem_iff.1 hs) with rfl | hs
        · exact .inr ⟨retry, hout, hseq⟩
        · exact .inl hs

theorem retryNow (sequence : Nat) :
    (c.retryNow generation sequence).1.Ordered ∧ Moved c (c.retryNow generation sequence).1 := by
  rcases c.retryNow_cases generation sequence with hc | ⟨record, retry, hrec, hc⟩
  · rw [hc]
    exact ⟨h, .refl c⟩
  · have hkey : record.sequence = sequence := h.failedKeyed sequence record hrec
    have hnew : record.sequence ∉ sequences c.pending := fun hin =>
      (h.disjoint.1 _ hin).2 (hkey ▸ mem_of_get hrec)
    rw [hc]
    refine h.of_moved ⟨rfl, rfl, ?_⟩ (ascending_insertPendingOrdered h.ascending hnew)
      h.inflightKeyed (h.failedKeyed.erase sequence) h.window
    have hvals := (((vals_erase_perm hrec).map (·.sequence)).append_left
      (sequences c.inflight.vals)).trans perm_middle
    refine ((perm_insertPendingOrdered c.pending record).append_right _).trans ?_
    exact perm_middle.symm.trans (hvals.symm.append_left _)

theorem reconnect : (c.reconnect generation).1.Ordered ∧ Moved c (c.reconnect generation).1 := by
  rcases c.reconnect_cases generation with hc | hc
  · rw [hc]
    exact ⟨h, .refl c⟩
  · have hswap : (sequences c.failed.vals ++ (sequences c.inflight.vals ++
        sequences c.pending)).Perm c.held := by
      simp only [perm_iff_count, held, count_append]
      omega
    have hnodup := hswap.nodup_iff.2 h.nodup
    obtain ⟨hasc, hperm⟩ := requeue_spec generation c.inflight.vals c.pending
      (nodup_append.1 hnodup).2.1 h.ascending
    obtain ⟨hasc', hperm'⟩ := requeue_spec generation c.failed.vals _
      ((hperm.append_left _).nodup_iff.2 hnodup) hasc
    rw [hc]
    refine h.of_moved ⟨rfl, rfl, ?_⟩ (pairwise_map.2 hasc') keyed_empty keyed_empty (by simp)
    have hall := hperm'.trans ((hperm.append_left _).trans hswap)
    have hnone : sequences (vals (∅ : SortedMap Nat (Record T))) = [] := by
      simp [sequences, vals]
    simpa only [held, sequences_under, hnone, append_nil] using hall

end Ordered

end EgressCore

/-! ## Runs -/

/-- What is claimed of the containers: every sequence that was returned, is not covered and was not
dropped is held once; the queue is in order, the window within its limit, everything held is above
the watermark, and what was claimed is released by an ack of its own sequence. -/
structure Conserved (h : History T) : Prop where
  placed : ∀ s ∈ h.issued, ¬h.core.Covered s → s ∉ h.exhausted → h.core.HoldsOnce s
  ascending : Ascending h.core.pending
  window : h.core.inflight.size ≤ h.core.policy.inflightLimit
  above : ∀ s, h.core.Holds s → ¬h.core.Covered s
  released : ∀ s ∈ h.core.inflight, s ∉ (h.core.ack h.core.generation s).1.inflight

namespace History

/-- The containers are ordered, and no sequence that was returned has been lost. -/
structure Inv (h : History T) : Prop where
  ordered : h.core.Ordered
  placed : ∀ s ∈ h.issued, h.core.Covered s ∨ s ∈ h.exhausted ∨ s ∈ h.core.held

variable {h h' : History T} {policy : EgressPolicy} {core : EgressCore T} {generation : Nat}

section

variable (hi : h.Inv)
include hi

theorem Inv.conserved : Conserved h where
  placed s hs hcov hex := hi.ordered.holdsOnce
    (hi.ordered.holds_iff.2 (((hi.placed s hs).resolve_left hcov).resolve_left hex))
  ascending := hi.ordered.ascending
  window := hi.ordered.window
  above s hs := hi.ordered.above s (hi.ordered.holds_iff.1 hs)
  released s hs hs' := by
    have hnew : ¬h.core.Covered s := hi.ordered.above s (hi.ordered.holds_iff.1 (.inr (.inl hs)))
    rcases h.core.ack_cases h.core.generation s with hc | ⟨retry, -, hc⟩
    · -- the watermark is below `s`, so this ack is not a repeated one
      have hany : h.core.ackedThrough.any (s ≤ ·) = false := by
        rw [Bool.eq_false_iff, ne_eq, Option.any_eq_true]
        exact fun ⟨through, hthrough, hle⟩ => hnew ⟨through, hthrough, by simpa using hle⟩
      have hacked : (h.core.ack h.core.generation s).1.ackedThrough = some s := by
        simp [EgressCore.ack, hany]
      rw [hc] at hacked
      exact hnew ⟨s, hacked, le_refl s⟩
    · rw [hc] at hs'
      obtain ⟨r, hr⟩ := mem_iff_exists.1 hs'
      simpa using (get_filter_eq_some.1 hr).2

/-- Fewer than `2 ^ 64` sequences have been assigned after the step. -/
def InRange (h : History T) : Op T → Prop
  | .enqueue _ => h.core.nextSequence + 1 < 2 ^ 64
  | _ => True

/-- A sequence is assigned only above the watermark. -/
def Assigns (h : History T) : Op T → Prop
  | .enqueue _ => ¬h.core.Covered h.core.nextSequence
  | _ => True

/-- A step that leaves the watermark alone loses no sequence but those it reports. -/
theorem Inv.of_held (hord : h'.core.Ordered)
    (hissued : h'.issued = h.issued) (hacked : h'.core.ackedThrough = h.core.ackedThrough)
    (hex : ∀ s ∈ h.exhausted, s ∈ h'.exhausted)
    (hheld : ∀ s ∈ h.core.held, s ∈ h'.core.held ∨ s ∈ h'.exhausted) : h'.Inv := by
  refine ⟨hord, fun s hs => ?_⟩
  unfold EgressCore.Covered
  rw [hacked]
  rcases hi.placed s (hissued ▸ hs) with hcov | hdrop | hold
  · exact .inl hcov
  · exact .inr (.inl (hex s hdrop))
  · exact .inr (hheld s hold).symm

theorem Inv.of_moved
    (hmoved : h'.core.Ordered ∧ EgressCore.Moved h.core h'.core) (hissued : h'.issued = h.issued)
    (hex : h'.exhausted = h.exhausted) : h'.Inv :=
  hi.of_held hmoved.1 hissued hmoved.2.acked (fun _ hs => hex ▸ hs)
    fun _ hs => .inl (hmoved.2.held.mem_iff.2 hs)

theorem Inv.step_enqueue {payload : T} (hnext : h.core.nextSequence + 1 < 2 ^ 64)
    (hack : ¬h.core.Covered h.core.nextSequence) : (h.step (.enqueue payload)).Inv := by
  obtain ⟨hord, hheld⟩ := hi.ordered.enqueue payload hnext hack
  refine ⟨hord, fun s hs => ?_⟩
  rcases mem_append.1 hs with hs | hs
  · exact (hi.placed s hs).imp_right
      (Or.imp_right fun hold => hheld.mem_iff.2 (mem_cons_of_mem _ hold))
  · exact .inr (.inr (hheld.mem_iff.2 (mem_singleton.1 hs ▸ mem_cons_self)))

theorem Inv.step_ack (generation through : Nat) : (h.step (.ack generation through)).Inv := by
  obtain ⟨hord, hheld⟩ := hi.ordered.ack generation through
  refine ⟨hord, fun s hs => ?_⟩
  by_cases hcov : (h.core.ack generation through).1.Covered s
  · exact .inl hcov
  · rcases hi.placed s hs with hold | hex | hold
    · exact absurd (EgressCore.covered_ack hold) hcov
    · exact .inr (.inl hex)
    · exact .inr (.inr ((hheld s).2 ⟨hold, hcov⟩))

theorem Inv.step_fail (generation sequence : Nat) : (h.step (.fail generation sequence)).Inv := by
  obtain ⟨hord, hacked, hheld⟩ := hi.ordered.fail generation sequence
  refine hi.of_held hord rfl hacked (fun s hs => ?_) fun s hs => ?_
  · simp only [step]
    split
    · exact mem_append_left _ hs
    · exact hs
  · refine (hheld s hs).imp_right fun ⟨retry, hout, hseq⟩ => ?_
    simp only [step, hout]
    exact mem_append_right _ (mem_singleton.2 hseq.symm)

theorem Inv.step {op : Op T} (hrange : h.InRange op) (hassign : h.Assigns op) :
    (h.step op).Inv := by
  cases op with
  | enqueue payload => exact hi.step_enqueue hrange hassign
  | ack generation through => exact hi.step_ack generation through
  | fail generation sequence => exact hi.step_fail generation sequence
  | claim generation => exact hi.of_moved (hi.ordered.claim generation) rfl rfl
  | retryNow generation sequence =>
    exact hi.of_moved (hi.ordered.retryNow generation sequence) rfl rfl
  | reconnect generation => exact hi.of_moved (hi.ordered.reconnect generation) rfl rfl

end

def start (core : EgressCore T) : History T := ⟨core, [], []⟩

theorem core_new (hnew : EgressCore.new generation policy = .ok core) :
    core = ⟨policy, generation, 0, none, [], ∅, ∅, none⟩ := by
  unfold EgressCore.new at hnew
  split at hnew
  · cases hnew
  · split at hnew
    · cases hnew
    · split at hnew
      · cases hnew
      · cases hnew
        rfl

theorem inv_start (hnew : EgressCore.new generation policy = .ok core) : (start core).Inv := by
  rw [core_new hnew]
  have hnone :
      EgressCore.held (⟨policy, generation, 0, none, [], ∅, ∅, none⟩ : EgressCore T) = [] := by
    simp [EgressCore.held, sequences, vals]
  refine ⟨⟨.nil, EgressCore.keyed_empty, EgressCore.keyed_empty, ?_, ?_, ?_, ?_⟩, ?_⟩ <;>
    simp [start, hnone]

/-- No more sequences are assigned than `enqueue` was called. -/
theorem nextSequence_le (h : History T) (ops : List (Op T)) :
    (h.run ops).core.nextSequence ≤ h.core.nextSequence + ops.countP Op.isEnqueue := by
  induction ops generalizing h with
  | nil => exact le_refl _
  | cons op ops ih =>
    refine (ih (h.step op)).trans ?_
    rw [countP_cons]
    cases op with
    | enqueue payload =>
      have : (h.step (.enqueue payload)).core.nextSequence ≤ h.core.nextSequence + 1 :=
        min_le_left _ _
      simp only [Op.isEnqueue, if_true]
      omega
    | claim generation =>
      rcases h.core.claim_cases generation with hc | ⟨_, _, _, _, _, _, _, hc⟩ <;>
        simp [step, hc]
    | ack generation through =>
      rcases h.core.ack_cases generation through with hc | ⟨_, _, hc⟩ <;> simp [step, hc]
    | fail generation sequence =>
      rcases h.core.fail_cases generation sequence with hc | ⟨_, _, _, hc | ⟨hc, -⟩⟩ <;>
        simp [step, hc]
    | retryNow generation sequence =>
      rcases h.core.retryNow_cases generation sequence with hc | ⟨_, _, _, hc⟩ <;>
        simp [step, hc]
    | reconnect generation =>
      rcases h.core.reconnect_cases generation with hc | hc <;> simp [step, hc]

end History

open History in
/-- **Egress conservation.** In a run with fewer than `2 ^ 64` enqueues the containers account for
every sequence throughout, iff every sequence was assigned above the watermark of its time. -/
theorem conserved_iff (generation : Nat) (policy : EgressPolicy) {core : EgressCore T}
    (hnew : EgressCore.new generation policy = .ok core) {ops : List (Op T)}
    (hcount : ops.countP Op.isEnqueue < 2 ^ 64) :
    (∀ pre, pre <+: ops → Conserved ((start core).run pre)) ↔
      ∀ pre op, pre ++ [op] <+: ops → ((start core).run pre).Assigns op := by
  refine forall_prefix_iff InRange (inv_start hnew) (fun _ hi => hi.conserved)
    (fun _ _ hi hrange hok => hi.step hrange hok) ?_ ?_
  · intro h op hi hrange hbad hcons
    cases op with
    | enqueue payload =>
      -- the sequence that was just assigned is in the queue, at or below the watermark
      refine hcons.above h.core.nextSequence (.inl ?_) (not_not.1 hbad)
      simp [step, EgressCore.enqueue, sequences]
    | claim _ | ack _ _ | fail _ _ | retryNow _ _ | reconnect _ => exact hbad trivial
  · intro pre op hpre
    cases op with
    | enqueue payload =>
      have hle := nextSequence_le (start core) pre
      have hlt := (hpre.sublist.countP_le).trans_lt hcount
      have hzero : (start core).core.nextSequence = 0 := by rw [core_new hnew, start]
      rw [countP_append] at hlt
      simp only [countP_cons, Op.isEnqueue, if_true] at hlt
      show ((start core).run pre).core.nextSequence + 1 < 2 ^ 64
      omega
    | claim _ | ack _ _ | fail _ _ | retryNow _ _ | reconnect _ => trivial

def attached : EgressCore Nat := ⟨.default, 1, 0, none, [], ∅, ∅, none⟩

/-- Of three values the first is acknowledged, the second fails and is replayed by the reconnect. -/
theorem conserved_iff_replayed :
    let ops : List (Op Nat) := [.enqueue 7, .enqueue 8, .enqueue 9, .claim 1, .claim 1, .ack 1 0,
      .fail 1 1, .reconnect 2, .claim 2]
    let h := (History.start attached).run ops
    (h.core.inflight.keys, sequences h.core.pending) = ([1], [2]) ∧
      ((∀ pre, pre <+: ops → Conserved ((History.start attached).run pre)) ↔
        ∀ pre op, pre ++ [op] <+: ops → ((History.start attached).run pre).Assigns op) :=
  ⟨by decide +kernel, conserved_iff 1 .default rfl (by decide)⟩

/-- An ack through 5 before anything was sent: the first value gets the sequence 0, and an ack of 0
does not release it. -/
theorem ack_ahead_of_enqueue :
    let h := (History.start attached).run [.ack 1 5, .enqueue 7, .claim 1, .ack 1 0]
    (h.core.ackedThrough, h.core.inflight.keys) = (some 5, [0]) ∧ ¬Conserved h := by
  intro h
  have hkeys : h.core.inflight.keys = [0] := by decide +kernel
  have hacked : h.core.ackedThrough = some 5 := by decide +kernel
  refine ⟨by rw [hkeys, hacked], fun hcons => hcons.above 0 (.inr (.inl ?_)) ⟨5, hacked, by decide⟩⟩
  rw [← Std.ExtTreeMap.mem_keys, hkeys]
  exact mem_singleton.2 rfl

end Lazily.Egress
