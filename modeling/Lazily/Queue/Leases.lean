import Lazily.Queue.WorkQueue
import Lazily.Lib.Reach

/-!
# No item is lost or leased twice

`work_conserved`: in every run each pushed item is in exactly one place of the queue, its attempts
are the leases issued for it and within the budget, delivery ids are never reused, and settling
under an id that is not the worker's live lease changes nothing.

A nack and a reap only move items from the leases to the pending queue or the dead letters
(`Released`); the invariant `Leased` is kept by every such move and by a push, a claim and an ack.
-/

namespace Lazily.Queue

open Lib List SortedMap WorkQueueCore Nat
open scoped SortedSet

variable {T I : Type}

/-! ## Where the items are -/

/-- The item a lease is for, counted as tried once more. -/
def WorkQueueDelivery.item (d : WorkQueueDelivery T I) : WorkQueueItem T :=
  ⟨d.itemId, d.value, d.attempt⟩

def WorkQueueDeadLetter.item (d : WorkQueueDeadLetter T) : WorkQueueItem T :=
  ⟨d.itemId, d.value, d.attempts⟩

namespace WorkQueueCore

def items (c : WorkQueueCore T I) : List (WorkQueueItem T) :=
  c.pending ++ (c.inFlight.vals.map (·.item) ++ c.deadLetters.map (·.item))

variable {c c' c'' : WorkQueueCore T I} {d : WorkQueueDelivery T I} {k : Nat} {t : Transition}
    {worker : I}

theorem items_insert (h : k ∉ c.inFlight) :
    items { c with inFlight := c.inFlight.insert k d } |>.Perm (d.item :: c.items) := by
  have hvals := ((vals_insert_perm (v := d) h).map (·.item)).append_right
    (c.deadLetters.map (·.item))
  exact (hvals.append_left c.pending).trans perm_middle

theorem items_erase (h : c.inFlight[k]? = some d) :
    c.items.Perm (d.item :: items { c with inFlight := c.inFlight.erase k }) := by
  have hvals := ((vals_erase_perm h).map (·.item)).append_right (c.deadLetters.map (·.item))
  exact (hvals.append_left c.pending).trans perm_middle

theorem items_failDelivery (reason : WorkQueueDeadLetterReason) :
    (c.failDelivery d reason).items.Perm (d.item :: c.items) := by
  unfold failDelivery
  split
  · rw [items, append_assoc]
    exact perm_middle
  · rw [items, map_append]
    have hdead := (perm_append_singleton d.item (c.deadLetters.map (·.item))).append_left
      (c.inFlight.vals.map (·.item))
    exact ((hdead.trans perm_middle).append_left c.pending).trans perm_middle

/-! ## Giving leases back -/

/-- `c'` is `c` with some leases given back: every item is still there once, only leases went, and
what came to the pending queue may be tried again. -/
structure Released (c c' : WorkQueueCore T I) : Prop where
  policy : c'.policy = c.policy
  nextItemId : c'.nextItemId = c.nextItemId
  nextDeliveryId : c'.nextDeliveryId = c.nextDeliveryId
  items : c'.items.Perm c.items
  pending : ∀ item ∈ c'.pending, item ∈ c.pending ∨ item.attempts < c.policy.maxDeliveries
  inFlight : ∀ (k : Nat) d, c'.inFlight[k]? = some d → c.inFlight[k]? = some d

namespace Released

theorem refl (c : WorkQueueCore T I) : Released c c :=
  ⟨rfl, rfl, rfl, .refl _, fun _ => .inl, fun _ _ => id⟩

theorem trans (h : Released c c') (h' : Released c' c'') : Released c c'' where
  policy := h'.policy.trans h.policy
  nextItemId := h'.nextItemId.trans h.nextItemId
  nextDeliveryId := h'.nextDeliveryId.trans h.nextDeliveryId
  items := h'.items.trans h.items
  pending item hitem := by
    rcases h'.pending item hitem with hin | hlt
    · exact h.pending item hin
    · rw [h.policy] at hlt
      exact .inr hlt
  inFlight k d hd := h.inFlight k d (h'.inFlight k d hd)

end Released

theorem released_failDelivery (h : c.inFlight[k]? = some d) (reason : WorkQueueDeadLetterReason) :
    Released c (failDelivery { c with inFlight := c.inFlight.erase k } d reason) := by
  have hitems := (items_failDelivery reason).trans (items_erase h).symm
  have herase : ∀ (a : Nat) e, (c.inFlight.erase k)[a]? = some e → c.inFlight[a]? = some e := by
    intro a e he
    rw [get_erase] at he
    split at he
    · cases he
    · exact he
  unfold failDelivery at hitems ⊢
  split at hitems
  · rename_i hlt
    rw [if_pos hlt]
    refine ⟨rfl, rfl, rfl, hitems, fun item hitem => ?_, herase⟩
    rcases mem_append.1 hitem with hin | hin
    · exact .inl hin
    · exact .inr (mem_singleton.1 hin ▸ hlt)
  · rename_i hlt
    rw [if_neg hlt]
    exact ⟨rfl, rfl, rfl, hitems, fun item hitem => .inl hitem, herase⟩

theorem released_reapOne (c : WorkQueueCore T I) (k : Nat) : Released c (c.reapOne k) := by
  unfold reapOne
  split
  · rename_i d hd
    exact released_failDelivery hd .expired
  · exact .refl c

theorem released_reapAll :
    ∀ (ks : List Nat) (c : WorkQueueCore T I), Released c (ks.foldl reapOne c)
  | [], c => .refl c
  | k :: ks, c => (released_reapOne c k).trans (released_reapAll ks (c.reapOne k))

theorem released_reapExpired {now n : Nat}
    (h : c.reapExpired now = some (c', n, t)) : Released c c' := by
  simp only [reapExpired] at h
  split at h
  · cases h
  · cases h
    exact released_reapAll _ c

theorem owns_iff [DecidableEq I] :
    c.owns worker k = true ↔ ∃ d, c.inFlight[k]? = some d ∧ d.worker = worker := by
  unfold owns
  cases c.inFlight[k]? <;> simp

theorem released_nack [DecidableEq I] (h : c.nack worker k = some (c', t)) : Released c c' := by
  unfold nack at h
  split at h
  · split at h
    · rename_i d hd
      cases h
      exact released_failDelivery hd .nack
    · cases h
  · cases h

end WorkQueueCore

/-! ## The invariant -/

namespace WorkHistory

/-- Every item pushed, with the attempts made on it: in the queue or acknowledged. -/
def held (h : WorkHistory T I) : List (WorkQueueItem T) :=
  h.core.items ++ h.acknowledged.map (·.item)

/-- How many leases were issued for an item. -/
def leases (h : WorkHistory T I) (itemId : Nat) : Nat := h.issued.countP (·.itemId = itemId)

structure Leased (policy : WorkQueuePolicy) (h : WorkHistory T I) : Prop where
  policyKept : h.core.policy = policy
  conserved : (h.held.map fun item => (item.itemId, item.value)).Perm h.pushed
  distinct : (h.pushed.map Prod.fst).Nodup
  pushedBelow : ∀ p ∈ h.pushed, p.1 < h.core.nextItemId
  attempts : ∀ item ∈ h.held,
    item.attempts = h.leases item.itemId ∧ item.attempts ≤ h.core.policy.maxDeliveries
  budget : ∀ item ∈ h.core.pending, item.attempts < h.core.policy.maxDeliveries
  issuedBelow : ∀ d ∈ h.issued, d.deliveryId < h.core.nextDeliveryId ∧ d.itemId < h.core.nextItemId
  issuedDistinct : (h.issued.map (·.deliveryId)).Nodup
  live : ∀ (k : Nat) d, h.core.inFlight[k]? = some d →
    d ∈ h.issued ∧ d.deliveryId = k ∧ ∀ d' ∈ h.issued, d'.itemId = d.itemId → d'.deliveryId ≤ k

theorem leased_start (policy : WorkQueuePolicy) :
    Leased policy (start policy : WorkHistory T I) where
  policyKept := rfl
  conserved := .refl _
  distinct := nodup_nil
  pushedBelow p h := by cases h
  attempts item h := by cases h
  budget item h := by cases h
  issuedBelow d h := by cases h
  issuedDistinct := nodup_nil
  live k d h := by simp [start, new] at h

variable {policy : WorkQueuePolicy} {h : WorkHistory T I} {core : WorkQueueCore T I}

namespace Leased

variable (hl : Leased policy h)
include hl

theorem heldDistinct : (h.held.map (·.itemId)).Nodup := by
  have hperm := (hl.conserved.map Prod.fst).nodup_iff.2 hl.distinct
  rwa [map_map] at hperm

variable {item : WorkQueueItem T}

theorem heldBelow (hin : item ∈ h.held) : item.itemId < h.core.nextItemId :=
  hl.pushedBelow _ (hl.conserved.subset (mem_map_of_mem hin))

/-- An item whose id is new was never leased. -/
theorem leases_next : h.leases h.core.nextItemId = 0 := by
  refine countP_eq_zero.2 fun d hd => ?_
  have := (hl.issuedBelow d hd).2
  simp only [decide_eq_true_eq]
  omega

theorem release (hr : h.core.Released core) : Leased policy { h with core := core } := by
  have hheld : held { h with core := core } |>.Perm h.held := hr.items.append_right _
  refine ⟨hr.policy.trans hl.policyKept, (hheld.map _).trans hl.conserved, hl.distinct, ?_,
    fun item hitem => ?_, ?_, ?_, hl.issuedDistinct, ?_⟩
  · simpa only [hr.nextItemId] using hl.pushedBelow
  · have hattempts := hl.attempts item (hheld.subset hitem)
    rwa [← hr.policy] at hattempts
  · intro item hitem
    simp only [hr.policy]
    exact (hr.pending item hitem).elim (hl.budget item) id
  · simpa only [hr.nextItemId, hr.nextDeliveryId] using hl.issuedBelow
  · exact fun k d hd => hl.live k d (hr.inFlight k d hd)

variable {d : WorkQueueDelivery T I}

/-- Settling a lease moves its item to the acknowledged ones. -/
theorem ack {k : Nat} (hd : h.core.inFlight[k]? = some d) : Leased policy { h with
      core := { h.core with inFlight := h.core.inFlight.erase k }
      acknowledged := h.acknowledged ++ [d] } := by
  set h' : WorkHistory T I := { h with
    core := { h.core with inFlight := h.core.inFlight.erase k }
    acknowledged := h.acknowledged ++ [d] } with hdef
  have hheld : h'.held.Perm h.held := by
    have hgone := (items_erase hd).append_right (h.acknowledged.map (·.item))
    refine List.Perm.trans ?_ hgone.symm
    rw [hdef, held, map_append, ← append_assoc]
    exact perm_append_singleton _ _
  refine ⟨hl.policyKept, (hheld.map _).trans hl.conserved, hl.distinct, hl.pushedBelow,
    fun item hitem => hl.attempts item (hheld.subset hitem), hl.budget, hl.issuedBelow,
    hl.issuedDistinct, fun a e he => ?_⟩
  rw [hdef, get_erase] at he
  split at he
  · cases he
  · exact hl.live a e he

theorem push (value : T) : Leased policy { h with
      core := { h.core with
        nextItemId := h.core.nextItemId + 1
        pending := h.core.pending ++ [⟨h.core.nextItemId, value, 0⟩] }
      pushed := h.pushed ++ [(h.core.nextItemId, value)] } := by
  set item : WorkQueueItem T := ⟨h.core.nextItemId, value, 0⟩ with hitem
  set h' : WorkHistory T I := { h with
    core := { h.core with
      nextItemId := h.core.nextItemId + 1
      pending := h.core.pending ++ [item] }
    pushed := h.pushed ++ [(h.core.nextItemId, value)] } with hdef
  have hheld : h'.held.Perm (item :: h.held) := by
    simp only [hdef, held, items, append_assoc, cons_append]
    exact perm_middle
  refine ⟨hl.policyKept, (hheld.map _).trans ?_, ?_, fun p hp => ?_, fun i hi => ?_,
    fun i hi => ?_, fun d hd => ?_, hl.issuedDistinct, hl.live⟩
  · exact (hl.conserved.cons _).trans (perm_append_singleton _ _).symm
  · rw [hdef, map_append]
    refine (perm_append_singleton _ _).nodup_iff.2 (nodup_cons.2 ⟨?_, hl.distinct⟩)
    rintro hin
    obtain ⟨p, hp, heq⟩ := mem_map.1 hin
    exact absurd (hl.pushedBelow p hp) (heq ▸ lt_irrefl _)
  · rcases mem_append.1 hp with hp | hp
    · exact (hl.pushedBelow p hp).trans (lt_succ_self _)
    · rw [mem_singleton.1 hp]
      exact lt_succ_self _
  · rcases mem_cons.1 (hheld.subset hi) with rfl | hi
    · exact ⟨hl.leases_next.symm, zero_le _⟩
    · exact hl.attempts i hi
  · rcases mem_append.1 hi with hi | hi
    · exact hl.budget i hi
    · rw [mem_singleton.1 hi]
      exact h.core.policy.deliversOnce
  · exact ⟨(hl.issuedBelow d hd).1, (hl.issuedBelow d hd).2.trans (lt_succ_self _)⟩

/-- A claim takes the oldest pending item and counts one more attempt on it. -/
theorem claim {rest : List (WorkQueueItem T)} (hpending : h.core.pending = item :: rest)
    (hid : d.deliveryId = h.core.nextDeliveryId)
    (hd : d.item = { item with attempts := item.attempts + 1 }) :
    Leased policy { h with
      core := { h.core with
        pending := rest
        nextDeliveryId := h.core.nextDeliveryId + 1
        inFlight := h.core.inFlight.insert h.core.nextDeliveryId d }
      issued := h.issued ++ [d] } := by
  set h' : WorkHistory T I := { h with
    core := { h.core with
      pending := rest
      nextDeliveryId := h.core.nextDeliveryId + 1
      inFlight := h.core.inFlight.insert h.core.nextDeliveryId d }
    issued := h.issued ++ [d] } with hdef
  set others : List (WorkQueueItem T) :=
    held { h with core := { h.core with pending := rest } } with hothers
  have hfrom : h.held = item :: others := by
    rw [hothers, held, items, hpending]
    rfl
  have hto : h'.held.Perm (d.item :: others) := by
    have hnew : h.core.nextDeliveryId ∉ h.core.inFlight := by
      rw [mem_iff_exists]
      rintro ⟨e, he⟩
      obtain ⟨hissued, hkey, -⟩ := hl.live _ e he
      exact absurd (hl.issuedBelow e hissued).1 (hkey ▸ lt_irrefl _)
    exact (items_insert (c := { h.core with pending := rest }) hnew).append_right _
  have hitemId : d.itemId = item.itemId := congrArg WorkQueueItem.itemId hd
  -- The items other than the one claimed have other ids.
  have hdistinct := hl.heldDistinct
  rw [hfrom, map_cons, nodup_cons] at hdistinct
  have hother : ∀ i ∈ others, i.itemId ≠ item.itemId :=
    fun i hi heq => hdistinct.1 (heq ▸ mem_map_of_mem hi)
  have hin : item ∈ h.held := by
    rw [hfrom]
    exact mem_cons_self
  refine ⟨hl.policyKept, (hto.map _).trans ?_, hl.distinct, hl.pushedBelow, fun i hi => ?_,
    fun i hi => ?_, fun e he => ?_, ?_, fun k e he => ?_⟩
  · have hconserved := hl.conserved
    rw [hfrom] at hconserved
    rwa [hd]
  · rcases mem_cons.1 (hto.subset hi) with rfl | hi
    · have hcount := (hl.attempts item hin).1
      have hbudget := hl.budget item (by rw [hpending]; exact mem_cons_self)
      rw [hd]
      refine ⟨?_, hbudget⟩
      simp only [hdef, leases, countP_append, countP_singleton, hitemId, hcount,
        decide_true, if_true]
    · have hold := hl.attempts i (by rw [hfrom]; exact mem_cons_of_mem _ hi)
      have hne : ¬ item.itemId = i.itemId := (hother i hi).symm
      simp only [hdef, leases, countP_append, countP_singleton, hitemId, hne,
        decide_false, Bool.false_eq_true, if_false]
      exact hold
  · exact hl.budget i (by rw [hpending]; exact mem_cons_of_mem _ hi)
  · rcases mem_append.1 he with he | he
    · exact ⟨(hl.issuedBelow e he).1.trans (lt_succ_self _), (hl.issuedBelow e he).2⟩
    · rw [mem_singleton.1 he]
      exact ⟨hid ▸ lt_succ_self _, hitemId ▸ hl.heldBelow hin⟩
  · rw [hdef, map_append]
    refine (perm_append_singleton _ _).nodup_iff.2 (nodup_cons.2 ⟨?_, hl.issuedDistinct⟩)
    rintro hold
    obtain ⟨e, he, heq⟩ := mem_map.1 hold
    exact absurd (hl.issuedBelow e he).1 ((heq.trans hid) ▸ lt_irrefl _)
  · rw [hdef, get_insert] at he
    split at he
    · rename_i hk
      cases he
      refine ⟨mem_append_right _ (mem_singleton.2 rfl), hid.trans hk, fun e' he' _ => ?_⟩
      rcases mem_append.1 he' with he' | he'
      · exact hk ▸ (hl.issuedBelow e' he').1.le
      · rw [mem_singleton.1 he']
        exact (hid.trans hk).le
    · obtain ⟨hissued, hkey, hlast⟩ := hl.live k e he
      refine ⟨mem_append_left _ hissued, hkey, fun e' he' heq => ?_⟩
      rcases mem_append.1 he' with he' | he'
      · exact hlast e' he' heq
      · -- the claimed item was pending, so no live lease is for it
        rw [mem_singleton.1 he', hitemId] at heq
        have hlive : e.item ∈ others := by
          refine mem_append_left _ (mem_append_right _ (mem_append_left _ ?_))
          exact mem_map_of_mem (mem_vals.2 ⟨k, he⟩)
        exact absurd heq.symm (hother _ hlive)

end Leased

/-! ## Runs -/

variable [DecidableEq I]

theorem Leased.step (hl : Leased policy h) (op : WorkOp T I) : Leased policy (h.step op) := by
  cases op with
  | push value =>
    simp only [WorkHistory.step, WorkQueueCore.push]
    split_ifs
    · exact hl.push value
    · exact hl
  | claim worker now =>
    cases hpending : h.core.pending with
    | nil =>
      simp only [WorkHistory.step, WorkQueueCore.claim, hpending]
      exact hl
    | cons item rest =>
      simp only [WorkHistory.step, WorkQueueCore.claim, hpending]
      split_ifs
      · refine hl.claim hpending rfl ?_
        -- the budget keeps the attempt below the width of its counter
        have hbudget := hl.budget item (by rw [hpending]; exact mem_cons_self)
        have hfit := h.core.policy.deliveriesFit
        simp only [WorkQueueDelivery.item]
        rw [min_eq_left (by omega)]
      · exact hl
  | ack worker k =>
    simp only [WorkHistory.step, WorkQueueCore.ack]
    by_cases howns : h.core.owns worker k = true
    · obtain ⟨d, hd, -⟩ := owns_iff.1 howns
      simp only [howns, hd]
      exact hl.ack hd
    · simp only [howns]
      exact hl
  | nack worker k =>
    simp only [WorkHistory.step]
    split
    · rename_i core t hnack
      exact hl.release (released_nack hnack)
    · exact hl
  | reapExpired now =>
    simp only [WorkHistory.step]
    split
    · rename_i core n t hreap
      exact hl.release (released_reapExpired hreap)
    · exact hl

theorem leased_run (policy : WorkQueuePolicy) (ops : List (WorkOp T I)) :
    Leased policy ((start policy).run ops) :=
  foldl_invariant (leased_start policy) fun _ op hl => hl.step op

/-- Settling what is not the worker's live lease does nothing. -/
theorem step_of_not_owns (h : WorkHistory T I) {worker : I} {k : Nat}
    (hnot : ∀ d, h.core.inFlight[k]? = some d → d.worker ≠ worker) :
    h.step (.ack worker k) = h ∧ h.step (.nack worker k) = h := by
  have howns : h.core.owns worker k = false := by
    rw [Bool.eq_false_iff, ne_eq, owns_iff]
    rintro ⟨d, hd, hworker⟩
    exact hnot d hd hworker
  simp [step, WorkQueueCore.ack, WorkQueueCore.nack, howns]

/-- In every run of a queue: the items held (pending, leased, dead or acknowledged) are the items
pushed, each once; the attempts of each are the leases issued for it, within the budget; a delivery
id is issued once; and an ack or nack changes nothing when its id is not live, is another worker's,
or was superseded by a later delivery of the same item. -/
theorem work_conserved (policy : WorkQueuePolicy) (ops : List (WorkOp T I)) :
    let h := (start policy).run ops
    (h.held.map fun item => (item.itemId, item.value)).Perm h.pushed ∧
    (h.pushed.map Prod.fst).Nodup ∧
    (∀ item ∈ h.held, item.attempts = h.leases item.itemId ∧ item.attempts ≤ policy.maxDeliveries) ∧
    (h.issued.map (·.deliveryId)).Nodup ∧
    (∀ worker (k : Nat), (∀ d, h.core.inFlight[k]? = some d → d.worker ≠ worker) →
      h.step (.ack worker k) = h ∧ h.step (.nack worker k) = h) ∧
    (∀ worker, ∀ d ∈ h.issued, ∀ later ∈ h.issued, later.itemId = d.itemId →
      d.deliveryId < later.deliveryId →
      h.step (.ack worker d.deliveryId) = h ∧ h.step (.nack worker d.deliveryId) = h) := by
  intro h
  have hl : Leased policy h := leased_run policy ops
  refine ⟨hl.conserved, hl.distinct, fun item hitem => ?_, hl.issuedDistinct,
    fun worker k hnot => h.step_of_not_owns hnot, fun worker d hd later hlater heq hlt => ?_⟩
  · rw [← hl.policyKept]
    exact hl.attempts item hitem
  · refine h.step_of_not_owns fun e he => ?_
    obtain ⟨hissued, hkey, hlast⟩ := hl.live _ e he
    have hsame : e = d := inj_on_of_nodup_map hl.issuedDistinct hissued hd hkey
    exact absurd (hlast later hlater (hsame ▸ heq)) hlt.not_ge

end WorkHistory

end Lazily.Queue
