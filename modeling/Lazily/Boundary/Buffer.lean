import Lazily.Boundary.Core
import Lazily.Lib.Reach

/-!
# The future-event buffer

What a drain does (`drainContiguous_spec`): it moves the cursor over the buffered events that follow
without a gap, and the phase tells whether any event is left. In every run the buffered events are
filed under their cursors and are beyond a gap (`ordered_run`).
-/

namespace Lazily.Boundary.BoundaryIngressCore

open Lib Ingress SortedMap Std.ExtTreeMap
open scoped SortedSet

variable {K T N : Type} [LinearOrder K] [LinearOrder N]
variable {c c' : BoundaryIngressCore K T N} {n generation : Nat}

/-! ## One payload -/

variable (event : BoundaryIngressEvent K T) (actions : List (BoundaryIngressAction K T))

theorem applyPayload_frame (c : BoundaryIngressCore K T N) :
    let c' := (c.applyPayload event actions).1
    c'.cursor = some event.cursor ∧ c'.buffered = c.buffered ∧ c'.generation = c.generation := by
  unfold applyPayload
  cases event.payload <;> exact ⟨rfl, rfl, rfl⟩

/-! ## Draining -/

/-- From the cursor `n`, the events up to `k` were buffered without a gap and have been applied; the
one after `k` is not there. -/
structure Drained (n k : Nat) (c c' : BoundaryIngressCore K T N) : Prop where
  le : n ≤ k
  cursor : c'.cursor = some k
  applied : ∀ j, n < j → j ≤ k → j ∈ c.buffered
  rest : ∀ j : Nat, c'.buffered[j]? = if n < j ∧ j ≤ k then none else c.buffered[j]?
  gap : k + 1 ∉ c'.buffered
  generation : c'.generation = c.generation

namespace Drained

variable {n k : Nat}

theorem refl (hcursor : c.cursor = some n) (hgap : n + 1 ∉ c.buffered) : Drained n n c c where
  le := le_rfl
  cursor := hcursor
  applied j h1 h2 := absurd h1 h2.not_gt
  rest j := by rw [if_neg fun h => absurd h.1 h.2.not_gt]
  gap := hgap
  generation := rfl

theorem mem {j : Nat} (h : Drained n k c c') :
    j ∈ c'.buffered ↔ j ∈ c.buffered ∧ ¬(n < j ∧ j ≤ k) := by
  simp only [mem_iff_exists, h.rest]
  split <;> simp [*]

theorem round {c1 : BoundaryIngressCore K T N} (hnext : n + 1 ∈ c.buffered)
    (hbuffered : c1.buffered = c.buffered.erase (n + 1))
    (hgeneration : c1.generation = c.generation)
    (h : Drained (n + 1) k c1 c') : Drained n k c c' where
  le := (Nat.le_succ n).trans h.le
  cursor := h.cursor
  applied j h1 h2 := by
    rcases (Nat.succ_le_of_lt h1).eq_or_lt with rfl | h1
    · exact hnext
    · have hin := h.applied j h1 h2
      rw [hbuffered, mem_erase_iff] at hin
      exact hin.2
  rest j := by
    have hle := h.le
    rw [h.rest, hbuffered, get_erase]
    split_ifs <;> first | rfl | omega
  gap := h.gap
  generation := h.generation.trans hgeneration

end Drained

def Keyed (c : BoundaryIngressCore K T N) : Prop :=
  ∀ (k : Nat) e, c.buffered[k]? = some e → e.cursor = k

theorem drainLoop_drained (fuel : Nat) : ∀ {c : BoundaryIngressCore K T N} {n : Nat}
    (actions : List (BoundaryIngressAction K T)), c.Keyed → c.cursor = some n →
    c.buffered.size ≤ fuel → ∃ k, Drained n k c (drainLoop fuel c actions).1 := by
  induction fuel with
  | zero =>
    intro c n actions _ hcursor hfuel
    have hempty : c.buffered = ∅ := eq_empty_iff_size_eq_zero.2 (Nat.le_zero.1 hfuel)
    exact ⟨n, .refl hcursor (by simp [hempty])⟩
  | succ fuel ih =>
    intro c n actions hkeyed hcursor hfuel
    simp only [drainLoop, hcursor]
    cases hnext : c.buffered[n + 1]? with
    | none => exact ⟨n, .refl hcursor (not_mem_iff.2 hnext)⟩
    | some e =>
      have hin : n + 1 ∈ c.buffered := mem_of_get hnext
      set applied := applyPayload { c with buffered := c.buffered.erase (n + 1) } e actions
        with happlied
      obtain ⟨hcur, hbuf, hgen⟩ :=
        applyPayload_frame e actions { c with buffered := c.buffered.erase (n + 1) }
      rw [← happlied] at hcur hbuf hgen
      rw [hkeyed _ e hnext] at hcur
      have hkeyed1 : applied.1.Keyed := by
        intro j e' he'
        rw [hbuf, get_erase] at he'
        split at he'
        · cases he'
        · exact hkeyed j e' he'
      have hfuel1 : applied.1.buffered.size ≤ fuel := by
        rw [hbuf, size_erase, if_pos (mem_iff_contains.1 hin)]
        omega
      obtain ⟨k, hk⟩ := ih applied.2 hkeyed1 hcur hfuel1
      exact ⟨k, hk.round hin hbuf hgen⟩

theorem Drained.congr {k : Nat} {c'' : BoundaryIngressCore K T N} (h : Drained n k c c')
    (hcursor : c''.cursor = c'.cursor) (hbuffered : c''.buffered = c'.buffered)
    (hgeneration : c''.generation = c'.generation) : Drained n k c c'' where
  le := h.le
  cursor := hcursor.trans h.cursor
  applied := h.applied
  rest j := by rw [hbuffered, h.rest]
  gap := hbuffered ▸ h.gap
  generation := hgeneration.trans h.generation

/-- A drain from the cursor `n`: some `k` is reached, and the phase says whether events are left. -/
theorem drainContiguous_spec (hkeyed : c.Keyed) (hcursor : c.cursor = some n) :
    let c' := (c.drainContiguous actions).1
    (∃ k, Drained n k c c') ∧
      ((c'.phase = settledPhase c'.validation ∧ ∀ j, j ∉ c'.buffered) ∨
        c'.phase = .replayRequired ∧ ∃ j, j ∈ c'.buffered) := by
  obtain ⟨k, hk⟩ := drainLoop_drained c.buffered.size actions hkeyed hcursor le_rfl
  simp only [drainContiguous, hk.cursor]
  split
  · rename_i hempty
    rw [Std.ExtTreeMap.isEmpty_iff] at hempty
    refine ⟨⟨k, hk.congr hk.cursor.symm rfl rfl⟩, .inl ⟨rfl, fun j => ?_⟩⟩
    simp [hempty]
  · rename_i hleft
    refine ⟨⟨k, hk.congr hk.cursor.symm rfl rfl⟩, .inr ⟨rfl, ?_⟩⟩
    rw [Std.ExtTreeMap.isEmpty_iff, Std.ExtTreeMap.eq_empty_iff_forall_not_mem] at hleft
    exact not_forall_not.1 hleft

/-! ## Events are buffered beyond a gap -/

/-- The buffered events are filed under their cursors and, once there is a cursor, beyond its
successor. -/
structure Ordered (c : BoundaryIngressCore K T N) : Prop where
  keyed : c.Keyed
  ahead : ∀ n, c.cursor = some n → ∀ j ∈ c.buffered, n + 1 < j

/-- The stream got to the cursor `n` and on to `k`: everything after `n` up to `k` was among the
`old` buffered cursors, what is left of these is beyond `k`, and the phase says whether that is
anything. -/
structure Advanced (n k : Nat) (old : Nat → Prop) (c : BoundaryIngressCore K T N) : Prop where
  le : n ≤ k
  cursor : c.cursor = some k
  applied : ∀ j, n < j → j ≤ k → old j
  left : ∀ j, j ∈ c.buffered ↔ old j ∧ k < j
  phase : (c.phase = settledPhase c.validation ∧ ∀ j, j ∉ c.buffered) ∨
    c.phase = .replayRequired ∧ ∃ j, j ∈ c.buffered
  ordered : c.Ordered

theorem advanced_drain (old : Nat → Prop) (hkeyed : c.Keyed) (hcursor : c.cursor = some n)
    (hold : ∀ j, j ∈ c.buffered ↔ old j ∧ n < j) :
    (∃ k, Advanced n k old (c.drainContiguous actions).1.bump) ∧
      (c.drainContiguous actions).1.generation = c.generation := by
  obtain ⟨⟨k, hk⟩, hphase⟩ := drainContiguous_spec actions hkeyed hcursor
  generalize (c.drainContiguous actions).1 = c' at hk hphase ⊢
  have hle := hk.le
  have hleft : ∀ j, j ∈ c'.buffered ↔ old j ∧ k < j := by
    intro j
    rw [hk.mem, hold]
    constructor
    · rintro ⟨⟨hj, hlt⟩, hnot⟩
      exact ⟨hj, by omega⟩
    · rintro ⟨hj, hlt⟩
      exact ⟨⟨hj, by omega⟩, by omega⟩
  refine ⟨⟨k, hle, hk.cursor, fun j h1 h2 => ((hold j).1 (hk.applied j h1 h2)).1, hleft, hphase,
    fun j e he => ?_, fun m hm j hj => ?_⟩, hk.generation⟩
  · change c'.buffered[j]? = some e at he
    rw [hk.rest] at he
    split at he
    · cases he
    · exact hkeyed j e he
  · obtain rfl : k = m := Option.some.inj (hk.cursor.symm.trans hm)
    have hlt := ((hleft j).1 hj).2
    have hne : j ≠ k + 1 := fun heq => hk.gap (heq ▸ hj)
    omega

/-! ## What an operation does to the stream -/

/-- The event stream is as it was: what the operations on members, deliveries and time leave
alone. -/
structure SameStream (c c' : BoundaryIngressCore K T N) : Prop where
  config : c'.config = c.config
  phase : c'.phase = c.phase
  generation : c'.generation = c.generation
  cursor : c'.cursor = c.cursor
  buffered : c'.buffered = c.buffered
  sourceKeys : c'.sourceKeys = c.sourceKeys
  validation : c'.validation = c.validation
  replayFrom : c'.replayFrom = c.replayFrom

theorem SameStream.refl (c : BoundaryIngressCore K T N) : SameStream c c :=
  ⟨rfl, rfl, rfl, rfl, rfl, rfl, rfl, rfl⟩

variable (member : N)

theorem sameStream_memberJoin (c : BoundaryIngressCore K T N) :
    SameStream c (c.memberJoin member).1 := by
  unfold memberJoin
  split
  · exact .refl c
  · exact ⟨rfl, rfl, rfl, rfl, rfl, rfl, rfl, rfl⟩

theorem sameStream_memberLeave (c : BoundaryIngressCore K T N) :
    SameStream c (c.memberLeave member).1 := by
  unfold memberLeave
  split
  · exact .refl c
  · exact ⟨rfl, rfl, rfl, rfl, rfl, rfl, rfl, rfl⟩

variable (receiptId : N)

theorem sameStream_openDelivery (c : BoundaryIngressCore K T N) :
    SameStream c (c.openDelivery receiptId).1 := by
  unfold openDelivery
  split <;> exact ⟨rfl, rfl, rfl, rfl, rfl, rfl, rfl, rfl⟩

theorem sameStream_acknowledge (c : BoundaryIngressCore K T N) :
    SameStream c (c.acknowledge receiptId member).1 := by
  unfold acknowledge
  split
  · exact .refl c
  · split
    · exact .refl c
    · exact ⟨rfl, rfl, rfl, rfl, rfl, rfl, rfl, rfl⟩

theorem sameStream_tick (c : BoundaryIngressCore K T N) (now : Nat) :
    SameStream c (c.tick now).1 := by
  simp only [tick]
  split <;> exact ⟨rfl, rfl, rfl, rfl, rfl, rfl, rfl, rfl⟩

/-- The operations that do not touch the stream: those on members, deliveries and time, what an
older generation sends, and an event that was seen already. -/
def Ignores (c : BoundaryIngressCore K T N) : BoundaryOp K T N → Prop
  | .subscribe generation => generation < c.generation
  | .applySnapshot snapshot => snapshot.generation < c.generation
  | .applyEvent event => event.generation < c.generation ∨
      event.generation = c.generation ∧
        ∃ n, c.cursor = some n ∧ (event.cursor ≤ n ∨ event.cursor ∈ c.buffered)
  | _ => True

/-- What an operation does to the stream of an adapter. -/
inductive StreamStep (c c' : BoundaryIngressCore K T N) : BoundaryOp K T N → Prop
  | idle {op : BoundaryOp K T N} (hop : c.Ignores op) (hsame : SameStream c c') :
      StreamStep c c' op
  | subscribed {generation : Nat} (hgen : c.generation ≤ generation)
      (hgen' : c'.generation = generation) (hcursor : c'.cursor = none)
      (hbuffered : c'.buffered = ∅) (hphase : c'.phase = .bootstrapping) :
      StreamStep c c' (.subscribe generation)
  | covered {snapshot : BoundaryIngressSnapshot K T N} {k : Nat}
      (hgen : c.generation ≤ snapshot.generation) (hgen' : c'.generation = snapshot.generation)
      (hadvanced : Advanced snapshot.cursor k
        (fun j => c.generation = snapshot.generation ∧ j ∈ c.buffered) c') :
      StreamStep c c' (.applySnapshot snapshot)
  | applied {event : BoundaryIngressEvent K T} {n k : Nat} (hgen : event.generation = c.generation)
      (hgen' : c'.generation = c.generation) (hcursor : c.cursor = some n)
      (hnext : event.cursor = n + 1) (hadvanced : Advanced (n + 1) k (· ∈ c.buffered) c') :
      StreamStep c c' (.applyEvent event)
  | held {event : BoundaryIngressEvent K T} (hgen : c.generation ≤ event.generation)
      (hgen' : c'.generation = event.generation)
      (hcursor : c'.cursor = (c.handoff event.generation).cursor)
      (hgap : ∀ n, c'.cursor = some n → n + 1 < event.cursor)
      (hbuffered : c'.buffered = (c.handoff event.generation).buffered.insert event.cursor event)
      (hphase : c'.phase = (c.handoff event.generation).phase ∨ c'.phase = .replayRequired) :
      StreamStep c c' (.applyEvent event)
  | refused {event : BoundaryIngressEvent K T} (hgen : c.generation ≤ event.generation)
      (hgen' : c'.generation = event.generation)
      (hcursor : c'.cursor = (c.handoff event.generation).cursor)
      (hgap : ∀ n, c'.cursor = some n → n + 1 < event.cursor)
      (hbuffered : c'.buffered = (c.handoff event.generation).buffered)
      (hphase : c'.phase = .backpressured) : StreamStep c c' (.applyEvent event)

theorem streamStep_subscribe (c : BoundaryIngressCore K T N) (generation : Nat) :
    StreamStep c (c.subscribe generation).1 (.subscribe generation) := by
  unfold subscribe
  split
  · rename_i hlt
    exact .idle hlt (.refl c)
  · rename_i hlt
    exact .subscribed (not_lt.1 hlt) rfl rfl rfl rfl

theorem get_install {snapshot : BoundaryIngressSnapshot K T N}
    (hgen : c.generation ≤ snapshot.generation) {j : Nat} {e : BoundaryIngressEvent K T} :
    (c.install snapshot).buffered[j]? = some e ↔
      (c.generation = snapshot.generation ∧ c.buffered[j]? = some e) ∧ snapshot.cursor < j := by
  simp only [install, get_filter_eq_some]
  split
  · rename_i hlt
    simp [hlt.ne]
  · rename_i hlt
    simp [hgen.antisymm (not_lt.1 hlt)]

theorem streamStep_applySnapshot (hc : c.Keyed) (snapshot : BoundaryIngressSnapshot K T N) :
    StreamStep c (c.applySnapshot snapshot).1 (.applySnapshot snapshot) := by
  simp only [applySnapshot]
  split
  · rename_i hlt
    exact .idle hlt ⟨rfl, rfl, rfl, rfl, rfl, rfl, rfl, rfl⟩
  · rename_i hlt
    have hgen := not_lt.1 hlt
    have hkeyed : (c.install snapshot).Keyed := fun j e he => hc j e ((get_install hgen).1 he).1.2
    have hold : ∀ j, j ∈ (c.install snapshot).buffered ↔
        (c.generation = snapshot.generation ∧ j ∈ c.buffered) ∧ snapshot.cursor < j := by
      intro j
      simp only [mem_iff_exists, get_install hgen, exists_and_left, exists_and_right]
    obtain ⟨⟨k, hk⟩, hgen'⟩ := advanced_drain _ _ hkeyed rfl hold
    exact .covered hgen hgen' hk

theorem handoff_generation (c : BoundaryIngressCore K T N)
    (hgen : c.generation ≤ generation) : (c.handoff generation).generation = generation := by
  unfold handoff
  split
  · rfl
  · rename_i hlt
    exact hgen.antisymm (not_lt.1 hlt)

theorem handoff_same (c : BoundaryIngressCore K T N) : c.handoff c.generation = c :=
  if_neg (lt_irrefl _)

theorem handoff_newer (hlt : c.generation < generation) : (c.handoff generation).cursor = none := by
  rw [handoff, if_pos hlt]

theorem ordered_new (config : BoundaryIngressConfig) :
    (new config : BoundaryIngressCore K T N).Ordered :=
  ⟨fun k e he => by simp [new] at he, fun n hn => by cases hn⟩

section

variable (hc : c.Ordered)
include hc

theorem streamStep_sequenceEvent (hcursor : c.cursor = some n)
    {event : BoundaryIngressEvent K T} (hsame : event.generation = c.generation) :
    StreamStep c (c.sequenceEvent n event).1 (.applyEvent event) := by
  have hhand : c.handoff event.generation = c := by rw [hsame, handoff_same]
  unfold sequenceEvent
  split
  · rename_i hseen
    exact .idle (.inr ⟨hsame, n, hcursor, hseen⟩) (.refl c)
  · rename_i hnew
    rw [not_or, not_le] at hnew
    split
    · rename_i hnext
      obtain ⟨hcur, hbuf, hgen1⟩ := applyPayload_frame event [] c
      have hkeyed : (c.applyPayload event []).1.Keyed := by
        unfold Keyed
        rw [hbuf]
        exact hc.keyed
      have hold : ∀ j, j ∈ (c.applyPayload event []).1.buffered ↔ j ∈ c.buffered ∧ n + 1 < j := by
        intro j
        rw [hbuf]
        exact ⟨fun hj => ⟨hj, hc.ahead n hcursor j hj⟩, And.left⟩
      obtain ⟨⟨k, hk⟩, hgen2⟩ := advanced_drain (c.applyPayload event []).2 _ hkeyed
        (hcur.trans (congrArg some hnext)) hold
      exact .applied hsame (hgen2.trans hgen1) hcursor hnext hk
    · have hgap : ∀ m, c.cursor = some m → m + 1 < event.cursor := by
        intro m hm
        obtain rfl : n = m := Option.some.inj (hcursor.symm.trans hm)
        omega
      split
      · exact .refused hsame.ge hsame.symm (by rw [hhand]; rfl) hgap (by rw [hhand]; rfl) rfl
      · exact .held hsame.ge hsame.symm (by rw [hhand]; rfl) hgap (by rw [hhand]; rfl) (.inr rfl)

theorem streamStep_applyEvent : StreamStep c (c.applyEvent event).1 (.applyEvent event) := by
  simp only [applyEvent]
  split
  · rename_i hlt
    exact .idle (.inl hlt) ⟨rfl, rfl, rfl, rfl, rfl, rfl, rfl, rfl⟩
  · rename_i hlt
    have hgen := not_lt.1 hlt
    have hgen' := c.handoff_generation hgen
    split
    · rename_i hcursor
      have hgap : ∀ n, (c.handoff event.generation).cursor = some n → n + 1 < event.cursor :=
        fun n hn => by cases hcursor.symm.trans hn
      unfold bufferBootstrap
      split
      · exact .refused hgen hgen' rfl hgap rfl rfl
      · dsimp only
        split <;> exact .held hgen hgen' rfl hgap rfl (.inl rfl)
    · rename_i n hcursor
      -- there is a cursor, so the generation is the current one
      have hsame : event.generation = c.generation := by
        by_contra hne
        have hnone := handoff_newer (lt_of_le_of_ne hgen (Ne.symm hne))
        cases hnone.symm.trans hcursor
      rw [hsame, handoff_same] at hcursor ⊢
      exact streamStep_sequenceEvent hc hcursor hsame

theorem streamStep (op : BoundaryOp K T N) : StreamStep c (c.step op).1 op := by
  cases op with
  | subscribe generation => exact streamStep_subscribe c generation
  | applySnapshot snapshot => exact streamStep_applySnapshot hc.keyed snapshot
  | applyEvent event => exact streamStep_applyEvent event hc
  | memberJoin member => exact .idle trivial (sameStream_memberJoin member c)
  | memberLeave member => exact .idle trivial (sameStream_memberLeave member c)
  | openDelivery receiptId => exact .idle trivial (sameStream_openDelivery receiptId c)
  | acknowledge receiptId member => exact .idle trivial (sameStream_acknowledge member receiptId c)
  | tick now => exact .idle trivial (sameStream_tick c now)

theorem Ordered.handoff (generation : Nat) : (c.handoff generation).Ordered := by
  unfold BoundaryIngressCore.handoff
  split
  · exact ⟨fun k e he => by simp at he, fun n hn => by cases hn⟩
  · exact hc

theorem Ordered.step (op : BoundaryOp K T N) : (c.step op).1.Ordered := by
  have hstep := streamStep hc op
  cases hstep with
  | idle _ hsame =>
    refine ⟨?_, ?_⟩
    · unfold Keyed
      rw [hsame.buffered]
      exact hc.keyed
    · rw [hsame.cursor, hsame.buffered]
      exact hc.ahead
  | subscribed _ _ hcursor hbuffered _ =>
    refine ⟨fun k e he => ?_, fun n hn => ?_⟩
    · simp [hbuffered] at he
    · cases hcursor.symm.trans hn
  | covered _ _ hadvanced => exact hadvanced.ordered
  | applied _ _ _ _ hadvanced => exact hadvanced.ordered
  | @held event _ _ hcursor hgap hbuffered _ =>
    have hc1 := hc.handoff event.generation
    refine ⟨fun k e he => ?_, fun n hn j hj => ?_⟩
    · rw [hbuffered, get_insert] at he
      split at he
      · rename_i hk
        cases he
        exact hk
      · exact hc1.keyed k e he
    · rw [hbuffered, mem_insert_iff] at hj
      rcases hj with rfl | hj
      · exact hgap n hn
      · exact hc1.ahead n (hcursor ▸ hn) j hj
  | @refused event _ _ hcursor _ hbuffered _ =>
    have hc1 := hc.handoff event.generation
    refine ⟨?_, ?_⟩
    · unfold Keyed
      rw [hbuffered]
      exact hc1.keyed
    · rw [hcursor, hbuffered]
      exact hc1.ahead

end

theorem ordered_run (config : BoundaryIngressConfig) (ops : List (BoundaryOp K T N)) :
    ((new config).run ops).Ordered :=
  foldl_invariant (ordered_new config) fun _ op hc => hc.step op

end Lazily.Boundary.BoundaryIngressCore
