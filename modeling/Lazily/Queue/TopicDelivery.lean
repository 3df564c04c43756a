import Lazily.Queue.Topic
import Lazily.Lib.Reach

/-!
# Topic delivery in order

`delivered_in_order`: what `advance` hands to a subscriber are log entries at strictly increasing
offsets, in every run that advances no cursor the retained log has moved past.

`gc` leaves ephemeral cursors behind. Such a cursor reads the oldest retained element, whatever its
offset, and moves by one, so the element is handed out again (`advance_repeats`).
-/

namespace Lazily.Queue

open Lib List Function TopicHistory TopicCore Nat SortedMap
open scoped SortedSet

variable {T I : Type} [LinearOrder I]

namespace TopicCore

variable {c c' : TopicCore T I} {id : I} {sub : TopicSubscription}

/-- A cursor is at most at the tail, and at least at the base if it is of a durability that `low`
keeps there; an ephemeral subscriber is connected. -/
def Ranged (low : TopicDurability → Prop) (c : TopicCore T I) (sub : TopicSubscription) : Prop :=
  sub.cursor ≤ c.endOffset ∧ (low sub.durability → c.baseOffset ≤ sub.cursor) ∧
    (sub.durability ≠ .ephemeral ∨ sub.connected = true)

def InRange (low : TopicDurability → Prop) (c : TopicCore T I) : Prop :=
  ∀ (id : I) sub, c.subscriptions[id]? = some sub → c.Ranged low sub

variable {low : TopicDurability → Prop}

theorem snapshot_of_fromSnapshot {snapshot : TopicSnapshot T I}
    (h : fromSnapshot snapshot = some c) : c.snapshot = snapshot := by
  unfold fromSnapshot at h
  split at h
  · cases h
    rfl
  · cases h

theorem fromSnapshot_snapshot_iff : fromSnapshot c.snapshot = some c ↔ c.InRange fun _ => True := by
  have hall : (∀ sub ∈ c.subscriptions.vals, Restorable c.snapshot sub) ↔
      c.InRange fun _ => True := by
    simp only [mem_vals, Restorable, InRange, Ranged, endOffset, snapshot]
    grind
  rw [← hall]
  refine ⟨fun h => ?_, fun h => if_pos h⟩
  by_contra hn
  cases (if_neg hn).symm.trans h

theorem frontier_cases (c : TopicCore T I) :
    (c.frontier = c.endOffset ∧ ∀ (id : I) sub, c.subscriptions[id]? = some sub →
      sub.durability ≠ .durable) ∨
    ((∃ (id : I) (sub : _), c.subscriptions[id]? = some sub ∧ sub.durability = .durable ∧
        sub.cursor = c.frontier) ∧
      ∀ (id : I) sub, c.subscriptions[id]? = some sub → sub.durability = .durable →
        c.frontier ≤ sub.cursor) := by
  have hmem : ∀ {n}, n ∈ (c.subscriptions.vals.filter (·.durability = .durable)).map (·.cursor) ↔
      ∃ (id : I) (sub : _), c.subscriptions[id]? = some sub ∧ sub.durability = .durable ∧
        sub.cursor = n := by
    intro n
    simp only [mem_map, mem_filter, mem_vals, decide_eq_true_eq]
    constructor
    · rintro ⟨sub, ⟨⟨id, hsub⟩, hdur⟩, hn⟩
      exact ⟨id, sub, hsub, hdur, hn⟩
    · rintro ⟨id, sub, hsub, hdur, hn⟩
      exact ⟨sub, ⟨⟨id, hsub⟩, hdur⟩, hn⟩
  unfold frontier
  cases hmin : ((c.subscriptions.vals.filter (·.durability = .durable)).map (·.cursor)).min? with
  | none =>
    rw [min?_eq_none_iff] at hmin
    refine .inl ⟨rfl, fun id sub hsub hdur => ?_⟩
    have := hmem.2 ⟨id, sub, hsub, hdur, rfl⟩
    rw [hmin] at this
    cases this
  | some n =>
    obtain ⟨hn, hle⟩ := min?_eq_some_iff.1 hmin
    exact .inr ⟨hmem.1 hn, fun id sub hsub hdur => hle _ (hmem.2 ⟨id, sub, hsub, hdur, rfl⟩)⟩

theorem frontier_le (hsub : c.subscriptions[id]? = some sub) (hdur : sub.durability = .durable) :
    c.frontier ≤ sub.cursor := by
  rcases c.frontier_cases with ⟨-, hnone⟩ | ⟨-, hle⟩
  · exact absurd hdur (hnone id sub hsub)
  · exact hle id sub hsub hdur

namespace InRange

variable (h : c.InRange low)
include h

theorem frontier_between (hlow : low .durable) :
    c.baseOffset ≤ c.frontier ∧ c.frontier ≤ c.endOffset := by
  rcases c.frontier_cases with ⟨heq, -⟩ | ⟨⟨id, sub, hsub, hdur, heq⟩, -⟩
  · rw [heq]
    exact ⟨le_add_right _ _, le_rfl⟩
  · obtain ⟨hend, hbase, -⟩ := h id sub hsub
    rw [← heq]
    exact ⟨hbase (hdur ▸ hlow), hend⟩

/-- A collection drops only what is retained, so the tail stays where it is. -/
theorem endOffset_gc (hlow : low .durable) : c.gc.1.endOffset = c.endOffset := by
  obtain ⟨hbase, hend⟩ := h.frontier_between hlow
  simp only [gc, endOffset, length_drop] at hend ⊢
  omega

/-- Writing a subscription whose cursor is in range. -/
theorem set (id : I) (hsub : c.Ranged low sub) : (c.setSubscription id sub).InRange low := by
  intro a s hs
  rw [setSubscription, get_insert] at hs
  split at hs
  · cases hs
    exact hsub
  · exact h a s hs

end InRange

/-! ## What the operations do -/

theorem subscribe_cases (c : TopicCore T I) (id : I) (durability : TopicDurability) :
    (∃ sub outcome flag, c.subscriptions[id]? = some sub ∧ outcome ≠ .created ∧
      (c.subscribe id durability = (c, outcome, flag) ∨ c.subscribe id durability =
          (c.setSubscription id { sub with connected := true }, outcome, flag))) ∨
    c.subscribe id durability =
      (c.setSubscription id ⟨c.endOffset, durability, true⟩, .created, false) := by
  unfold subscribe
  cases hsub : c.subscriptions[id]? with
  | none => exact .inr rfl
  | some sub =>
    refine .inl ?_
    dsimp only
    split
    · exact ⟨sub, .alreadyConnected, false, rfl, by decide, .inl rfl⟩
    · exact ⟨sub, .reconnected, true, rfl, by decide, .inr rfl⟩

theorem disconnect_cases {flag : Bool} (h : c.disconnect id = some (c', flag)) :
    ∃ sub, c.subscriptions[id]? = some sub ∧
      (c' = { c with subscriptions := c.subscriptions.erase id } ∨ sub.durability ≠ .ephemeral ∧
          c' = c.setSubscription id { sub with connected := false }) := by
  unfold disconnect at h
  split at h
  · cases h
  · rename_i sub hsub
    split at h
    · cases h
    · split at h
      · cases h
        exact ⟨sub, hsub, .inl rfl⟩
      · cases h
        exact ⟨sub, hsub, .inr ⟨by assumption, rfl⟩⟩

theorem advance_cases {value : T} (h : c.advance id = some (c', value)) :
    ∃ sub, c.subscriptions[id]? = some sub ∧ sub.connected = true ∧ sub.cursor < c.endOffset ∧
      c.elements[c.index sub]? = some value ∧
      c' = c.setSubscription id { sub with cursor := sub.cursor + 1 } := by
  unfold advance at h
  split at h
  · cases h
  · rename_i sub hsub
    split at h
    · cases h
    · rename_i hcond
      rw [not_or] at hcond
      split at h
      · cases h
      · rename_i v hv
        cases h
        exact ⟨sub, hsub, by simpa using hcond.1, not_le.1 hcond.2, hv, rfl⟩

end TopicCore

/-! ## The invariant -/

namespace TopicHistory

/-- The condition on an operation: a collection leaves no cursor behind that `low` keeps at the
base. -/
def Spares (low : TopicDurability → Prop) (h : TopicHistory T I) : TopicOp T I → Prop
  | .gc => ∀ (id : I) sub, h.core.subscriptions[id]? = some sub → low sub.durability →
      h.core.frontier ≤ sub.cursor
  | _ => True

theorem spares_durable (h : TopicHistory T I) (op : TopicOp T I) : h.Spares (· = .durable) op := by
  cases op with
  | gc => exact fun _ _ => frontier_le
  | publish _ | subscribe _ _ | disconnect _ | advance _ => trivial

theorem get_of_erase {m : SortedMap I TopicSubscription} {id a : I} {s : TopicSubscription}
    (hs : (m.erase id)[a]? = some s) : m[a]? = some s := by
  rw [get_erase] at hs
  split at hs
  · cases hs
  · exact hs

theorem inRange_step {low : TopicDurability → Prop} {h : TopicHistory T I}
    (hr : h.core.InRange low) (hlow : low .durable) {op : TopicOp T I} (hok : h.Spares low op) :
    (h.step op).core.InRange low := by
  cases op with
  | publish value =>
    intro id sub hsub
    obtain ⟨hend, hrest⟩ := hr id sub hsub
    refine ⟨hend.trans ?_, hrest⟩
    simp [step, publish, endOffset]
  | subscribe id durability =>
    rcases h.core.subscribe_cases id durability with
      ⟨sub, outcome, flag, hsub, -, hc | hc⟩ | hc
    · simpa only [step, hc] using hr
    · obtain ⟨hend, hbase, -⟩ := hr id sub hsub
      simp only [step, hc]
      exact hr.set id ⟨hend, hbase, .inr rfl⟩
    · simp only [step, hc]
      exact hr.set id ⟨le_rfl, fun _ => le_add_right _ _, .inr rfl⟩
  | disconnect id =>
    simp only [step]
    split
    · rename_i core flag hc
      obtain ⟨sub, hsub, rfl | ⟨hne, rfl⟩⟩ := disconnect_cases hc
      · exact fun a s hs => hr a s (get_of_erase hs)
      · obtain ⟨hend, hbase, -⟩ := hr id sub hsub
        exact hr.set id ⟨hend, hbase, .inl hne⟩
    · exact hr
  | advance id =>
    cases hc : h.core.advance id with
    | none => simpa only [step, hc] using hr
    | some result =>
      obtain ⟨sub, hsub, hconn, hlt, -, hcore⟩ := advance_cases hc
      obtain ⟨-, hbase, -⟩ := hr id sub hsub
      simp only [step, hc, hsub, hcore]
      exact hr.set id ⟨hlt, fun hl => (hbase hl).trans (le_succ _), .inr hconn⟩
  | gc =>
    intro id sub hsub
    obtain ⟨hend, -, hconn⟩ := hr id sub hsub
    exact ⟨(hr.endOffset_gc hlow).symm ▸ hend, hok id sub hsub, hconn⟩

theorem inRange_durable_step (h : TopicHistory T I) (op : TopicOp T I)
    (hr : h.core.InRange (· = .durable)) : (h.step op).core.InRange (· = .durable) :=
  inRange_step hr rfl (h.spares_durable op)

structure Inv (h : TopicHistory T I) : Prop where
  logAscending : h.log.Pairwise (·.1 < ·.1)
  logBelow : ∀ p ∈ h.log, p.1 < h.core.endOffset
  retained : ∀ i value, h.core.elements[i]? = some value → (h.core.baseOffset + i, value) ∈ h.log
  ascending : ∀ id, (h.delivered id).Pairwise (·.1 < ·.1)
  entries : ∀ id, ∀ p ∈ h.delivered id, p ∈ h.log
  passed : ∀ (id : I) sub, h.core.subscriptions[id]? = some sub →
    ∀ p ∈ h.delivered id, p.1 < sub.cursor

theorem inv_start (core : TopicCore T I) : (start core).Inv where
  logAscending := by
    refine pairwise_iff_getElem.2 fun i j hi hj hlt => ?_
    simp only [start, getElem_mapIdx]
    omega
  logBelow p hp := by
    simp only [start, mem_mapIdx] at hp
    obtain ⟨i, hi, rfl⟩ := hp
    simp only [start, endOffset]
    omega
  retained i value hi := by
    obtain ⟨hlt, rfl⟩ := List.getElem?_eq_some_iff.1 hi
    exact List.mem_mapIdx.2 ⟨i, hlt, rfl⟩
  ascending id := .nil
  entries id p hp := by cases hp
  passed id sub hsub p hp := by cases hp

variable {h : TopicHistory T I}

namespace Inv

variable (hi : h.Inv)
include hi

theorem publish (value : T) : (h.step (.publish value)).Inv := by
  have hend : (h.core.publish value).1.endOffset = h.core.endOffset + 1 := by
    simp [TopicCore.publish, TopicCore.endOffset, add_assoc]
  refine ⟨?_, fun p hp => ?_, fun i v hv => ?_, hi.ascending,
    fun id p hp => mem_append_left _ (hi.entries id p hp), hi.passed⟩
  · refine pairwise_append.2 ⟨hi.logAscending, pairwise_singleton _ _, fun p hp q hq => ?_⟩
    rw [mem_singleton.1 hq]
    exact hi.logBelow p hp
  · change p.1 < (h.core.publish value).1.endOffset
    rw [hend]
    rcases mem_append.1 hp with hp | hp
    · exact (hi.logBelow p hp).trans (lt_succ_self _)
    · rw [mem_singleton.1 hp]
      exact lt_succ_self _
  · change (h.core.elements ++ [value])[i]? = some v at hv
    rw [getElem?_append] at hv
    split at hv
    · exact mem_append_left _ (hi.retained i v hv)
    · obtain ⟨hlt, heq⟩ := List.getElem?_eq_some_iff.1 hv
      have hi : i = h.core.elements.length := by
        simp only [length_singleton] at hlt
        omega
      subst hi
      refine mem_append_right _ (mem_singleton.2 ?_)
      simpa [step, TopicCore.endOffset, TopicCore.publish] using heq.symm

theorem gc (hr : h.core.InRange (· = .durable)) : (h.step .gc).Inv := by
  have hend := hr.endOffset_gc rfl
  refine ⟨hi.logAscending, fun p hp => hend.symm ▸ hi.logBelow p hp,
    fun i v hv => ?_, hi.ascending, hi.entries, hi.passed⟩
  have hbase := (hr.frontier_between rfl).1
  change (h.core.elements.drop (h.core.frontier - h.core.baseOffset))[i]? = some v at hv
  rw [getElem?_drop] at hv
  have hin := hi.retained _ v hv
  rwa [← Nat.add_assoc, Nat.add_sub_cancel' hbase] at hin

/-- A subscriber's record and what it was handed are written together: the cursor is past the
entries handed out. -/
theorem write (id : I) (sub : TopicSubscription) {handed : List (Nat × T)}
    (hascending : handed.Pairwise (·.1 < ·.1)) (hentries : ∀ p ∈ handed, p ∈ h.log)
    (hpassed : ∀ p ∈ handed, p.1 < sub.cursor) :
    Inv { h with
      core := h.core.setSubscription id sub
      delivered := Function.update h.delivered id handed } := by
  refine ⟨hi.logAscending, hi.logBelow, hi.retained, fun a => ?_, fun a => ?_, fun a s hs => ?_⟩
  · by_cases ha : a = id
    · simpa only [ha, update_self] using hascending
    · simpa only [update_of_ne ha] using hi.ascending a
  · by_cases ha : a = id
    · simpa only [ha, update_self] using hentries
    · simpa only [update_of_ne ha] using hi.entries a
  · change (h.core.subscriptions.insert id sub)[a]? = some s at hs
    rw [get_insert] at hs
    split at hs
    · rename_i heq
      cases hs
      simpa only [← heq, update_self] using hpassed
    · rename_i hne
      simpa only [update_of_ne (Ne.symm hne)] using hi.passed a s hs

theorem keep {id : I} {sub : TopicSubscription}
    (hsub : h.core.subscriptions[id]? = some sub) (connected : Bool) :
    Inv { h with core := h.core.setSubscription id { sub with connected := connected } } := by
  have hkept := hi.write id { sub with connected := connected } (hi.ascending id) (hi.entries id)
    (hi.passed id sub hsub)
  rwa [update_eq_self] at hkept

theorem subscribe (id : I) (durability : TopicDurability) :
    (h.step (.subscribe id durability)).Inv := by
  rcases h.core.subscribe_cases id durability with
    ⟨sub, outcome, flag, hsub, hne, hc | hc⟩ | hc
  · simp only [step, hc, if_neg hne]
    exact hi
  · simp only [step, hc, if_neg hne]
    exact hi.keep hsub true
  · simp only [step, hc]
    exact hi.write id _ .nil (by simp) (by simp)

theorem disconnect (id : I) : (h.step (.disconnect id)).Inv := by
  simp only [step]
  split
  · rename_i core flag hc
    obtain ⟨sub, hsub, rfl | ⟨-, rfl⟩⟩ := disconnect_cases hc
    · exact { hi with passed := fun a s hs => hi.passed a s (get_of_erase hs) }
    · exact hi.keep hsub false
  · exact hi

/-- An advance of a cursor the log has not moved past hands out the entry at the cursor. -/
theorem advance (id : I)
    (hbase : ∀ sub, h.core.subscriptions[id]? = some sub → sub.connected = true →
      h.core.baseOffset ≤ sub.cursor) : (h.step (.advance id)).Inv := by
  cases hc : h.core.advance id with
  | none =>
    simp only [step, hc]
    exact hi
  | some result =>
    obtain ⟨core, value⟩ := result
    obtain ⟨sub, hsub, hconn, hlt, hvalue, rfl⟩ := advance_cases hc
    simp only [step, hc, hsub]
    have hcursor : h.core.baseOffset + h.core.index sub = sub.cursor :=
      Nat.add_sub_cancel' (hbase sub hsub hconn)
    have hentry := hi.retained _ value hvalue
    rw [hcursor] at hentry ⊢
    have hpassed := hi.passed id sub hsub
    refine hi.write id _ ?_ (fun p hp => ?_) fun p hp => ?_
    · refine pairwise_append.2 ⟨hi.ascending id, pairwise_singleton _ _, fun p hp q hq => ?_⟩
      rw [mem_singleton.1 hq]
      exact hpassed p hp
    · rcases mem_append.1 hp with hp | hp
      · exact hi.entries id p hp
      · exact mem_singleton.1 hp ▸ hentry
    · rcases mem_append.1 hp with hp | hp
      · exact (hpassed p hp).trans (lt_succ_self _)
      · exact mem_singleton.1 hp ▸ lt_succ_self _

end Inv

/-! ## Runs -/

/-- The condition on an operation: a connected subscriber is advanced only while the log retains
everything from its cursor on. -/
def Retained (h : TopicHistory T I) : TopicOp T I → Prop
  | .advance id => ∀ sub ∈ h.core.subscriptions[id]?, sub.connected = true →
      h.core.baseOffset ≤ sub.cursor
  | _ => True

instance (h : TopicHistory T I) : DecidablePred h.Retained
  | .advance id => inferInstanceAs (Decidable (∀ sub ∈ h.core.subscriptions[id]?, _ → _ ≤ _))
  | .publish _ | .subscribe _ _ | .disconnect _ | .gc => .isTrue trivial

theorem Inv.step (hi : h.Inv) (hr : h.core.InRange (· = .durable)) {op : TopicOp T I}
    (hok : h.Retained op) : (h.step op).Inv := by
  cases op with
  | publish value => exact hi.publish value
  | subscribe id durability => exact hi.subscribe id durability
  | disconnect id => exact hi.disconnect id
  | advance id => exact hi.advance id hok
  | gc => exact hi.gc hr

/-- What the subscribers were handed is in order: entries of the log, which has one entry an offset,
at strictly increasing offsets. -/
structure InOrder (h : TopicHistory T I) : Prop where
  log : h.log.Pairwise (·.1 < ·.1)
  entries : ∀ id, ∀ p ∈ h.delivered id, p ∈ h.log
  ascending : ∀ id, (h.delivered id).Pairwise (·.1 < ·.1)

/-- **Topic delivery.** From any snapshot a topic accepts, in every run whose advances are of
cursors the log has not moved past, every subscriber is handed log entries at strictly increasing
offsets. -/
theorem delivered_in_order (snapshot : TopicSnapshot T I) {core : TopicCore T I}
    (hsnapshot : TopicCore.fromSnapshot snapshot = some core) {ops : List (TopicOp T I)}
    (hok : Allowed step Retained (start core) ops) : ((start core).run ops).InOrder := by
  have hr : core.InRange (· = .durable) := fun id sub hsub => by
    rw [← snapshot_of_fromSnapshot hsnapshot] at hsnapshot
    obtain ⟨hend, hbase, hconn⟩ := fromSnapshot_snapshot_iff.1 hsnapshot id sub hsub
    exact ⟨hend, fun _ => hbase trivial, hconn⟩
  obtain ⟨-, hi⟩ :
      ((start core).run ops).core.InRange (· = .durable) ∧ ((start core).run ops).Inv :=
    hok.invariant (I := fun h => h.core.InRange (· = .durable) ∧ h.Inv) ⟨hr, inv_start core⟩
    fun h op hi hok => ⟨h.inRange_durable_step op hi.1, hi.2.step hi.1 hok⟩
  exact ⟨hi.logAscending, hi.entries, hi.ascending⟩

def blank : TopicCore Nat Nat := .new

/-- An ephemeral subscriber has read to the tail when the topic is collected; a durable one
joins. -/
theorem delivered_in_order_at_tail :
    let ops : List (TopicOp Nat Nat) := [.subscribe 0 .ephemeral, .publish 7, .advance 0, .gc,
      .subscribe 1 .durable, .publish 8, .advance 0, .advance 1, .gc]
    let h := (start blank).run ops
    h.delivered 0 = [(0, 7), (1, 8)] ∧ h.core.baseOffset = 2 ∧ h.InOrder :=
  ⟨by decide +kernel, by decide +kernel,
    delivered_in_order blank.snapshot (if_pos (by decide +kernel)) (by decide +kernel)⟩

/-- Three elements are collected before an ephemeral subscriber has read them: its cursor is at 0
and the log starts at 3, so two advances hand out the element at offset 3 twice. -/
theorem advance_repeats :
    let ops : List (TopicOp Nat Nat) := [.subscribe 0 .ephemeral, .publish 1, .publish 2,
      .publish 3, .gc, .publish 4, .advance 0, .advance 0]
    let h := (start blank).run ops
    h.delivered 0 = [(3, 4), (3, 4)] ∧ ¬h.InOrder := by
  intro ops h
  have hrun : h.delivered 0 = [(3, 4), (3, 4)] := by decide +kernel
  refine ⟨hrun, fun hin => ?_⟩
  have hascending := hin.ascending 0
  rw [hrun] at hascending
  simp at hascending

end TopicHistory

/-!
## What a topic retains

`gc` collects up to the lowest durable cursor. Ephemeral cursors do not count: one that is left
behind reads from the new base on (`gc_invisible_iff`), and a snapshot of the topic is refused
(`restored_iff`).
-/

namespace TopicCore

variable {c : TopicCore T I} {id : I} {sub : TopicSubscription}

/-- Neither the frontier nor the base has moved past the cursor. -/
theorem drop_gc_iff (hr : c.InRange (· = .durable)) (hsub : sub.cursor ≤ c.endOffset) :
    c.gc.1.elements.drop (c.gc.1.index sub) = c.elements.drop (c.index sub) ↔
      c.frontier ≤ sub.cursor ∨ c.frontier = c.baseOffset := by
  obtain ⟨hbase, hend⟩ := hr.frontier_between rfl
  simp only [endOffset] at hend hsub
  simp only [gc, index, drop_drop]
  constructor
  · intro h
    have hlen := congrArg length h
    simp only [length_drop] at hlen
    omega
  · intro h
    have heq : c.frontier - c.baseOffset + (sub.cursor - c.frontier) =
        sub.cursor - c.baseOffset := by omega
    rw [heq]

theorem readSuffix_eq (hsub : c.subscriptions[id]? = some sub) (hconn : sub.connected = true) :
    c.readSuffix id = c.elements.drop (c.index sub) := by
  simp [readSuffix, hsub, hconn]

/-- What `advance` hands out is the first of the unread suffix. -/
theorem advance_snd (hsub : c.subscriptions[id]? = some sub) (hconn : sub.connected = true) :
    (c.advance id).map Prod.snd =
      if c.endOffset ≤ sub.cursor then none else (c.readSuffix id).head? := by
  rw [readSuffix_eq hsub hconn, head?_drop]
  simp only [advance, hsub, hconn, Bool.not_true, Bool.false_eq_true, false_or]
  split
  · rfl
  · cases c.elements[c.index sub]? <;> rfl

end TopicCore

namespace TopicHistory

/-- **Snapshots.** In a run of a new topic every state is restored from its snapshot, exactly if
every collection leaves no cursor behind. -/
theorem restored_iff (ops : List (TopicOp T I)) :
    (∀ pre, pre <+: ops → TopicCore.fromSnapshot ((start .new).run pre).core.snapshot =
      some ((start .new : TopicHistory T I).run pre).core) ↔
    ∀ pre op, pre ++ [op] <+: ops →
      ((start .new : TopicHistory T I).run pre).Spares (fun _ => True) op := by
  refine forall_prefix_iff (I := fun h => h.core.InRange fun _ => True) (fun _ _ => True) ?_
    (fun h hr => fromSnapshot_snapshot_iff.2 hr)
    (fun h op hr _ hok => inRange_step hr trivial hok) (fun h op _ _ hno hrestored => ?_)
    fun _ _ _ => trivial
  · intro id sub hsub
    simp [start, new] at hsub
  · have hr := fromSnapshot_snapshot_iff.1 hrestored
    cases op with
    | gc => exact hno fun id sub hsub _ => (hr id sub hsub).2.1 trivial
    | publish _ | subscribe _ _ | disconnect _ | advance _ => exact hno trivial

/-- An ephemeral subscriber has not read what a collection takes: the snapshot is refused. -/
theorem collected_snapshot_refused :
    let ops : List (TopicOp Nat Nat) := [.subscribe 0 .ephemeral, .publish 1, .gc]
    let c := ((start blank).run ops).core
    (TopicCore.fromSnapshot c.snapshot).isNone = true := by
  decide +kernel

theorem inRange_run (ops : List (TopicOp T I)) :
    ((start .new : TopicHistory T I).run ops).core.InRange (· = .durable) :=
  foldl_invariant (I := fun h : TopicHistory T I => h.core.InRange (· = .durable))
    (fun id sub hsub => by simp [start, new] at hsub)
    inRange_durable_step

/-- **Collections.** In every state of a new topic, a collection changes neither the unread suffix
of a connected subscriber nor what its next advance hands out, exactly if it does not move past the
cursor; and a durable subscriber, connected or not, loses nothing from its cursor on. -/
theorem gc_invisible_iff (ops : List (TopicOp T I)) {id : I} {sub : TopicSubscription}
    (hsub : ((start .new).run ops).core.subscriptions[id]? = some sub) :
    let c := ((start .new : TopicHistory T I).run ops).core
    (sub.connected = true →
      (c.gc.1.readSuffix id = c.readSuffix id ∧
          (c.gc.1.advance id).map Prod.snd = (c.advance id).map Prod.snd ↔
        c.frontier ≤ sub.cursor ∨ c.frontier = c.baseOffset)) ∧
    (sub.durability = .durable → c.gc.1.baseOffset ≤ sub.cursor ∧
      c.gc.1.elements.drop (c.gc.1.index sub) = c.elements.drop (c.index sub)) := by
  intro c
  have hr : c.InRange (· = .durable) := inRange_run ops
  have hdrop := drop_gc_iff hr (hr id sub hsub).1
  have hgc : c.gc.1.subscriptions[id]? = some sub := hsub
  refine ⟨fun hconn => ?_, fun hdur => ?_⟩
  · rw [← hdrop, ← readSuffix_eq hsub hconn, ← readSuffix_eq hgc hconn]
    refine and_iff_left_of_imp fun hsuffix => ?_
    rw [advance_snd hgc hconn, advance_snd hsub hconn, hsuffix, hr.endOffset_gc rfl]
  · have hle := frontier_le hsub hdur
    exact ⟨hle, hdrop.2 (.inl hle)⟩

/-- The cursor of a connected ephemeral subscriber is at the tail when the topic is collected. -/
theorem gc_invisible_at_tail :
    let ops : List (TopicOp Nat Nat) := [.subscribe 0 .ephemeral, .publish 1, .advance 0]
    let c := ((start .new : TopicHistory Nat Nat).run ops).core
    c.gc.1.readSuffix 0 = c.readSuffix 0 :=
  have hsub : ((start .new : TopicHistory Nat Nat).run [.subscribe 0 .ephemeral, .publish 1,
      .advance 0]).core.subscriptions[0]? = some ⟨1, .ephemeral, true⟩ := by decide +kernel
  (((gc_invisible_iff _ hsub).1 rfl).2 (by decide +kernel)).1

/-- A connected ephemeral subscriber has one element to read, and none after a collection. -/
theorem gc_takes_unread :
    let ops : List (TopicOp Nat Nat) := [.subscribe 0 .ephemeral, .publish 1]
    let c := ((start blank).run ops).core
    c.readSuffix 0 = [1] ∧ c.gc.1.readSuffix 0 = [] := by
  decide +kernel

/-- `id` has a durable record, and `values` are what it was handed and what is left for it. -/
def Owes (h : TopicHistory T I) (id : I) (values : List T) : Prop :=
  ∃ sub, h.core.subscriptions[id]? = some sub ∧ sub.durability = .durable ∧
    (h.delivered id).map Prod.snd ++ h.core.elements.drop (h.core.index sub) = values

def published : TopicOp T I → List T
  | .publish value => [value]
  | _ => []

theorem Owes.step {h : TopicHistory T I} (hr : h.core.InRange (· = .durable)) {id : I}
    {values : List T} (ho : h.Owes id values) (op : TopicOp T I) :
    (h.step op).Owes id (values ++ published op) := by
  obtain ⟨sub, hsub, hdur, rfl⟩ := ho
  obtain ⟨hend, hbase, -⟩ := hr id sub hsub
  have hpast := hbase hdur
  simp only [endOffset] at hend
  cases op with
  | publish value =>
    have hle : sub.cursor - h.core.baseOffset ≤ h.core.elements.length := by omega
    exact ⟨sub, hsub, hdur, by
      simp [TopicHistory.step, TopicCore.publish, published, index, drop_append_of_le_length hle]⟩
  | subscribe a durability =>
    simp only [TopicHistory.step, subscribe, published, append_nil]
    grind [Owes, setSubscription, get_insert, index]
  | disconnect a =>
    simp only [TopicHistory.step, disconnect, published, append_nil]
    grind [Owes, setSubscription, get_insert, get_erase, index]
  | advance a =>
    simp only [TopicHistory.step, published, append_nil]
    cases hc : h.core.advance a with
    | none => exact ⟨sub, hsub, hdur, rfl⟩
    | some result =>
      obtain ⟨core, value⟩ := result
      obtain ⟨s, hs, -, -, hvalue, rfl⟩ := advance_cases hc
      simp only [hs]
      by_cases ha : a = id
      · -- the element moves from what is left to what was handed
        subst ha
        cases hs.symm.trans hsub
        obtain ⟨hlt, rfl⟩ := List.getElem?_eq_some_iff.1 hvalue
        refine ⟨{ sub with cursor := sub.cursor + 1 }, by simp [setSubscription], hdur, ?_⟩
        rw [drop_eq_getElem_cons hlt]
        simp [setSubscription, index, Nat.sub_add_comm hpast]
      · grind [Owes, setSubscription, get_insert, index]
  | gc =>
    refine ⟨sub, hsub, hdur, ?_⟩
    simp only [TopicHistory.step, published, append_nil]
    rw [(drop_gc_iff hr hend).2 (.inl (frontier_le hsub hdur))]

/-- **Durable subscribers miss nothing.** From every state of a new topic, whatever follows: what a
durable subscriber was handed and what is left for it grow by what is published, in order. -/
theorem durable_misses_nothing (pre ops : List (TopicOp T I)) (id : I) (values : List T)
    (ho : ((start .new).run pre).Owes id values) :
    ((start .new).run (pre ++ ops)).Owes id (values ++ ops.flatMap published) := by
  induction ops generalizing pre values with
  | nil => simpa using ho
  | cons op ops ih =>
    have hstep : ((start .new).run (pre ++ [op])).Owes id (values ++ published op) := by
      rw [TopicHistory.run, foldl_concat]
      exact ho.step (inRange_run pre) op
    simpa using ih (pre ++ [op]) _ hstep

theorem durable_misses_nothing_offline :
    let h := (start .new : TopicHistory Nat Nat).run [.subscribe 0 .durable, .publish 1, .advance 0,
      .disconnect 0, .publish 2, .gc, .subscribe 0 .durable, .publish 3]
    h.core.baseOffset = 1 ∧ h.Owes 0 [1, 2, 3] :=
  ⟨by decide +kernel, durable_misses_nothing [.subscribe 0 .durable] _ 0 []
    ⟨⟨0, .durable, true⟩, by decide +kernel, rfl, rfl⟩⟩

end TopicHistory

end Lazily.Queue
