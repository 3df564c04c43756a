import Lazily.Boundary.Buffer

/-!
# The cursor of an adapter

`no_rollback_iff`: in every run, a step keeps the cursor and what goes with it from going back iff
it is not a snapshot of the current generation below the cursor. The source checks the generation of
a snapshot, not its cursor.

`replay_asked_iff`: throughout a run the adapter asks for a cold replay while an offered event is
lost iff nothing closes the gap over it. A refused event is remembered in the phase only, and a
drain sets the phase by the buffer alone (`refused_event_forgotten`).
-/

namespace Lazily.Boundary

open Lib List Option
open scoped SortedSet

variable {K T N : Type} [LinearOrder K] [LinearOrder N] {m n k : Nat} {old : Nat → Prop}
  {op : BoundaryOp K T N}

namespace BoundaryIngressCore

variable {c c' : BoundaryIngressCore K T N}

/-! ## No rollback -/

/-- The step from `c` to `c'` takes nothing back, as long as it stays in the generation and is no
subscription: the cursor does not decrease, and a snapshot below it replaces nothing. -/
def NoRollback (c : BoundaryIngressCore K T N) (op : BoundaryOp K T N) : Prop :=
  let c' := (c.step op).1
  ∀ n, c.cursor = some n → c'.generation = c.generation → (∀ g, op ≠ .subscribe g) →
    (∃ n', c'.cursor = some n' ∧ n ≤ n') ∧
    ∀ snapshot, op = .applySnapshot snapshot → snapshot.generation = c.generation →
      snapshot.cursor < n → c'.sourceKeys = c.sourceKeys ∧ c'.validation = c.validation ∧
        c'.members = c.members

/-- The condition: a snapshot of the current generation is not below the cursor. -/
def Fresh (c : BoundaryIngressCore K T N) : BoundaryOp K T N → Prop
  | .applySnapshot snapshot => snapshot.generation = c.generation →
      ∀ n ∈ c.cursor, n ≤ snapshot.cursor
  | _ => True

/-- A snapshot below the cursor drains nothing: what is buffered is beyond the old cursor. -/
theorem Ordered.advanced_below (hc : c.Ordered) (hcursor : c.cursor = some n)
    (hold : ∀ j, old j → j ∈ c.buffered) (hlt : m < n) (h : Advanced m k old c') : k = m := by
  by_contra hne
  have hle := h.le
  have hahead := hc.ahead n hcursor (m + 1) (hold _ (h.applied (m + 1) (by omega) (by omega)))
  omega

theorem Ordered.noRollback_iff_fresh (hc : c.Ordered) (op : BoundaryOp K T N) :
    c.NoRollback op ↔ c.Fresh op := by
  have hstep := streamStep hc op
  unfold NoRollback
  dsimp only
  cases hstep with
  | idle hop hsame =>
    have hfresh : c.Fresh op := by
      cases op with
      | applySnapshot snapshot => exact fun heq => absurd hop heq.ge.not_gt
      | _ => trivial
    refine ⟨fun _ => hfresh, fun _ n hn _ _ => ⟨⟨n, hsame.cursor.trans hn, le_rfl⟩, ?_⟩⟩
    rintro snapshot rfl heq
    exact absurd hop heq.ge.not_gt
  | subscribed => exact ⟨fun _ => trivial, fun _ n _ _ hop => absurd rfl (hop _)⟩
  | @covered snapshot k hgen hgen' hadvanced =>
    constructor
    · intro hno heq n hn
      by_contra hlt
      obtain ⟨⟨n', hn', hle⟩, -⟩ := hno n hn (hgen'.trans heq) (fun g hg => by cases hg)
      have hk := hc.advanced_below hn (fun _ => And.right) (not_le.1 hlt) hadvanced
      have := some.inj (hadvanced.cursor.symm.trans hn')
      omega
    · intro hfresh n hn heq _
      have hle := hfresh (hgen'.symm.trans heq) n hn
      refine ⟨⟨k, hadvanced.cursor, hle.trans hadvanced.le⟩, ?_⟩
      rintro _ ⟨⟩ - hlt
      exact absurd hle hlt.not_ge
  | @applied event m k hgen hgen' hcursor hnext hadvanced =>
    refine ⟨fun _ => trivial, fun _ n hn _ _ => ⟨⟨k, hadvanced.cursor, ?_⟩,
      fun _ hop => by cases hop⟩⟩
    obtain rfl : m = n := some.inj (hcursor.symm.trans hn)
    exact (Nat.le_succ m).trans hadvanced.le
  | @held event hgen hgen' hcursor _ _ _ =>
    refine ⟨fun _ => trivial, fun _ n hn heq _ => ⟨⟨n, ?_, le_rfl⟩, fun _ hop => by cases hop⟩⟩
    rw [hcursor, hgen'.symm.trans heq, handoff_same, hn]
  | @refused event hgen hgen' hcursor _ _ _ =>
    refine ⟨fun _ => trivial, fun _ n hn heq _ => ⟨⟨n, ?_, le_rfl⟩, fun _ hop => by cases hop⟩⟩
    rw [hcursor, hgen'.symm.trans heq, handoff_same, hn]

/-- **No rollback.** After every run, a step takes nothing back iff it is not a snapshot of the
current generation below the cursor. -/
theorem no_rollback_iff (config : BoundaryIngressConfig) (ops : List (BoundaryOp K T N))
    (op : BoundaryOp K T N) :
    ((new config).run ops).NoRollback op ↔ ((new config).run ops).Fresh op :=
  (ordered_run config ops).noRollback_iff_fresh op

end BoundaryIngressCore

/-- The value 7 for a key, as the first of generation 1. -/
def envelope (key : Nat) : Ingress.IngressEnvelope Nat Nat := ⟨key, 1, 0, 0, 7⟩

/-- A valid snapshot of generation 1 with the given keys and no members. -/
def snapshotAt (cursor : Nat) (keys : List Nat) : BoundaryIngressSnapshot Nat Nat Nat :=
  ⟨1, cursor, 0, keys.map envelope, [], .valid⟩

def upsertAt (cursor key : Nat) : BoundaryIngressEvent Nat Nat :=
  ⟨1, cursor, 0, .upsert (envelope key)⟩

namespace BoundaryIngressCore

/-- Event 11 is applied over the snapshot at 10; a late copy of that snapshot takes it back. -/
theorem late_snapshot_rolls_back :
    let c := (new .default : BoundaryIngressCore Nat Nat Nat).run
      [.subscribe 1, .applySnapshot (snapshotAt 10 [0]), .applyEvent (upsertAt 11 1)]
    let late := BoundaryOp.applySnapshot (snapshotAt 10 [0])
    (c.cursor, c.sourceKeys.toList) = (some 11, [0, 1]) ∧
      ((c.step late).1.cursor, (c.step late).1.sourceKeys.toList) = (some 10, [0]) ∧
      ¬c.NoRollback late := by
  intro c late
  have hcursor : c.cursor = some 11 := by decide +kernel
  have hback : (c.step late).1.cursor = some 10 := by decide +kernel
  refine ⟨by decide +kernel, by decide +kernel, fun hno => ?_⟩
  obtain ⟨⟨n, hn, hle⟩, -⟩ := hno 11 hcursor (by decide +kernel) (by simp [late])
  rw [hback] at hn
  cases hn
  exact absurd hle (by decide)

end BoundaryIngressCore

/-! ## Lost events -/

/-- An adapter with the cursors of its generation that were offered to it above its cursor and have
not been applied or covered since. -/
structure StreamHistory (K T N : Type) [LinearOrder K] [LinearOrder N] where
  core : BoundaryIngressCore K T N
  owed : List Nat

namespace StreamHistory

def start (config : BoundaryIngressConfig) : StreamHistory K T N := ⟨.new config, []⟩

/-- What is offered under an operation, and what is still owed from before: a newer generation owes
nothing of the older one. -/
def offered (h : StreamHistory K T N) : BoundaryOp K T N → List Nat
  | .subscribe generation => if h.core.generation < generation then [] else h.owed
  | .applySnapshot snapshot => if h.core.generation < snapshot.generation then [] else h.owed
  | .applyEvent event =>
    if h.core.generation < event.generation then [event.cursor]
    else if event.generation = h.core.generation then event.cursor :: h.owed
    else h.owed
  | _ => h.owed

/-- The cursor moves by applied events and by snapshots, so what it has passed is applied or
covered. -/
def step (h : StreamHistory K T N) (op : BoundaryOp K T N) : StreamHistory K T N where
  core := (h.core.step op).1
  owed := (h.offered op).filter fun m => (h.core.step op).1.cursor.all (· < m)

variable (h : StreamHistory K T N)

def run (ops : List (BoundaryOp K T N)) : StreamHistory K T N :=
  ops.foldl step h

/-- While an owed event is not buffered, the adapter is not live and asks for a cold replay. -/
def ReplayAsked : Prop :=
  ∀ m ∈ h.owed, m ∉ h.core.buffered → h.core.phase ≠ .live ∧
    ∃ n, h.core.projection.effectIntent = .coldReplay h.core.generation n

/-- Moving the cursor to `n` forgets nothing: every owed event beyond `n` is buffered, or there is a
further gap below a buffered event. -/
def Safe (n : Nat) : Prop :=
  (∀ m ∈ h.owed, n < m → m ∈ h.core.buffered) ∨
    ∃ b ∈ h.core.buffered, ∃ m, n < m ∧ m < b ∧ m ∉ h.core.buffered

/-- The condition on an operation of the current generation: it subscribes again only while nothing
is owed, and moves the cursor only where that is safe. -/
def Closes : BoundaryOp K T N → Prop
  | .subscribe generation => generation = h.core.generation → h.owed = []
  | .applySnapshot snapshot => snapshot.generation = h.core.generation → h.Safe snapshot.cursor
  | .applyEvent event => event.generation = h.core.generation →
      (∃ n ∈ h.core.cursor, event.cursor = n + 1) → h.Safe event.cursor
  | _ => True

variable {h : StreamHistory K T N} {c : BoundaryIngressCore K T N}

open BoundaryIngressCore

theorem asks_iff : (c.phase ≠ .live ∧ ∃ n, c.projection.effectIntent = .coldReplay c.generation n) ↔
    c.phase = .replayRequired ∨ c.phase = .backpressured := by
  cases hphase : c.phase <;>
    simp [BoundaryIngressProjection.effectIntent, projection, hphase]

theorem mem_step :
    m ∈ (h.step op).owed ↔ m ∈ h.offered op ∧ ∀ n, (h.core.step op).1.cursor = some n → n < m := by
  simp [step, Option.all_eq_true]

/-- The cursor got to `k`, after everything up to `n` was applied or covered: what is lost is what
was owed beyond `n` and not buffered. -/
theorem lost_advanced (hadvanced : Advanced n k (· ∈ h.core.buffered) (h.core.step op).1)
    (hoffered : ∀ m, n < m → (m ∈ h.offered op ↔ m ∈ h.owed)) :
    m ∈ (h.step op).owed ∧ m ∉ (h.core.step op).1.buffered ↔
      m ∈ h.owed ∧ n < m ∧ m ∉ h.core.buffered := by
  have hle := hadvanced.le
  have hcursor : (∀ n', (h.core.step op).1.cursor = some n' → n' < m) ↔ k < m := by
    simp [hadvanced.cursor]
  rw [mem_step, hcursor, hadvanced.left]
  constructor
  · rintro ⟨⟨hin, hlt⟩, hnot⟩
    have hn : n < m := by omega
    exact ⟨(hoffered m hn).1 hin, hn, fun hbuf => hnot ⟨hbuf, hlt⟩⟩
  · rintro ⟨hin, hn, hnot⟩
    refine ⟨⟨(hoffered m hn).2 hin, ?_⟩, fun hbuf => hnot hbuf.1⟩
    by_contra hge
    exact hnot (hadvanced.applied m hn (by omega))

/-- The buffer is left with an event iff there is a further gap below one. -/
theorem left_iff (hadvanced : Advanced n k old c) :
    (∃ j, j ∈ c.buffered) ↔ ∃ b, old b ∧ ∃ m, n < m ∧ m < b ∧ ¬old m := by
  have hle := hadvanced.le
  constructor
  · rintro ⟨j, hj⟩
    obtain ⟨hold, hlt⟩ := (hadvanced.left j).1 hj
    have hahead := hadvanced.ordered.ahead k hadvanced.cursor j hj
    refine ⟨j, hold, k + 1, by omega, by omega, fun hk => ?_⟩
    have hin := (hadvanced.left (k + 1)).2 ⟨hk, by omega⟩
    have := hadvanced.ordered.ahead k hadvanced.cursor _ hin
    omega
  · rintro ⟨b, hb, m, hn, hlt, hm⟩
    refine ⟨b, (hadvanced.left b).2 ⟨hb, ?_⟩⟩
    by_contra hge
    exact hm (hadvanced.applied m hn (by omega))

theorem asks_advanced_iff (hadvanced : Advanced n k old c) :
    c.phase = .replayRequired ∨ c.phase = .backpressured ↔ ∃ j, j ∈ c.buffered := by
  rcases hadvanced.phase with ⟨hphase, hnone⟩ | ⟨hphase, hsome⟩
  · rw [hphase]
    unfold settledPhase
    split <;> simp [hnone]
  · simp [hphase, hsome]

/-- A step that moves the cursor to `n` in the generation keeps asking iff it is safe. -/
theorem replayAsked_advanced_iff (hadvanced : Advanced n k (· ∈ h.core.buffered) (h.core.step op).1)
    (hoffered : ∀ m, n < m → (m ∈ h.offered op ↔ m ∈ h.owed)) :
    (h.step op).ReplayAsked ↔ h.Safe n := by
  have hasks : ((h.step op).core.phase ≠ .live ∧ ∃ n, (h.step op).core.projection.effectIntent =
      .coldReplay (h.step op).core.generation n) ↔ _ :=
    asks_iff.trans ((asks_advanced_iff hadvanced).trans (left_iff hadvanced))
  unfold ReplayAsked Safe
  simp only [hasks]
  constructor
  · intro hask
    by_cases hall : ∀ m ∈ h.owed, n < m → m ∈ h.core.buffered
    · exact .inl hall
    · push Not at hall
      obtain ⟨m, hin, hn, hnot⟩ := hall
      obtain ⟨hin', hnot'⟩ := (lost_advanced hadvanced hoffered).2 ⟨hin, hn, hnot⟩
      exact .inr (hask m hin' hnot')
  · rintro (hall | hgap) m hin hnot
    · obtain ⟨hin', hn, hnot'⟩ := (lost_advanced hadvanced hoffered).1 ⟨hin, hnot⟩
      exact absurd (hall m hin' hn) hnot'
    · exact hgap

/-- A step that leaves the buffer, or adds the offered event to it, and leaves the phase or asks for
a replay keeps asking. -/
theorem replayAsked_kept (hask : h.ReplayAsked)
    (hlost : ∀ m ∈ (h.step op).owed, m ∉ (h.step op).core.buffered →
      m ∈ h.owed ∧ m ∉ h.core.buffered)
    (hphase : (h.step op).core.phase = h.core.phase ∨ (h.step op).core.phase = .replayRequired) :
    (h.step op).ReplayAsked := by
  intro m hin hnot
  obtain ⟨hin', hnot'⟩ := hlost m hin hnot
  have hasked := asks_iff.1 (hask m hin' hnot')
  refine asks_iff.2 ?_
  rcases hphase with heq | heq
  · rwa [heq]
  · exact .inl heq

theorem offered_of_newer {generation : Nat} (hlt : h.core.generation < generation) :
    h.offered (.subscribe generation) = [] ∧
      ∀ snapshot, snapshot.generation = generation → h.offered (.applySnapshot snapshot) = [] := by
  refine ⟨if_pos hlt, ?_⟩
  rintro snapshot rfl
  exact if_pos hlt

theorem replayAsked_of_nothing_owed (hnone : h.offered op = []) : (h.step op).ReplayAsked := by
  intro m hin
  have := (mem_step.1 hin).1
  rw [hnone] at this
  cases this

theorem ignored (hc : h.core.Ordered) (hop : h.core.Ignores op) :
    h.Closes op ∧ ∀ m ∈ h.offered op, m ∈ h.owed ∨ m ∈ h.core.buffered ∨
      ∃ n, h.core.cursor = some n ∧ m ≤ n := by
  cases op with
  | subscribe generation =>
    refine ⟨fun heq => absurd hop heq.ge.not_gt, fun m hm => .inl ?_⟩
    rwa [offered, if_neg hop.not_gt] at hm
  | applySnapshot snapshot =>
    refine ⟨fun heq => absurd hop heq.ge.not_gt, fun m hm => .inl ?_⟩
    rwa [offered, if_neg hop.not_gt] at hm
  | applyEvent event =>
    rcases hop with hlt | ⟨heq, n, hn, hseen⟩
    · refine ⟨fun heq => absurd hlt heq.ge.not_gt, fun m hm => .inl ?_⟩
      rwa [offered, if_neg hlt.not_gt, if_neg hlt.ne] at hm
    · constructor
      · rintro - ⟨n', hn', hnext⟩
        obtain rfl : n = n' := some.inj (hn.symm.trans hn')
        rcases hseen with hle | hbuf
        · omega
        · have := hc.ahead n hn _ hbuf
          omega
      · intro m hm
        rw [offered, if_neg heq.le.not_gt, if_pos heq] at hm
        rcases mem_cons.1 hm with rfl | hm
        · rcases hseen with hle | hbuf
          · exact .inr (.inr ⟨n, hn, hle⟩)
          · exact .inr (.inl hbuf)
        · exact .inl hm
  | memberJoin _ | memberLeave _ | openDelivery _ | acknowledge _ _ | tick _ =>
    exact ⟨trivial, fun m => .inl⟩

/-- An event beyond a gap does not close it. -/
theorem closes_of_gap {event : BoundaryIngressEvent K T}
    (hcursor : c.cursor = (h.core.handoff event.generation).cursor)
    (hgap : ∀ n, c.cursor = some n → n + 1 < event.cursor) : h.Closes (.applyEvent event) := by
  rintro heq ⟨n, hn, hnext⟩
  have := hgap n (by rw [hcursor, heq, handoff_same]; exact hn)
  omega

theorem replayAsked_step_iff (hask : h.ReplayAsked) (hc : h.core.Ordered) (op : BoundaryOp K T N) :
    (h.step op).ReplayAsked ↔ h.Closes op := by
  have hstep : StreamStep h.core (h.step op).core op := streamStep hc op
  cases hstep with
  | idle hop hsame =>
    obtain ⟨hcloses, hoffered⟩ := ignored hc hop
    refine iff_of_true (replayAsked_kept hask (fun m hin hnot => ?_) (.inl hsame.phase)) hcloses
    obtain ⟨hin, hbelow⟩ := mem_step.1 hin
    rw [hsame.buffered] at hnot
    rcases hoffered m hin with howed | hbuf | ⟨n, hn, hle⟩
    · exact ⟨howed, hnot⟩
    · exact absurd hbuf hnot
    · exact absurd hle (hbelow n (hsame.cursor.trans hn)).not_ge
  | @subscribed generation hgen _ hcursor hbuffered hphase =>
    rcases hgen.lt_or_eq with hlt | rfl
    · exact iff_of_true (replayAsked_of_nothing_owed (offered_of_newer hlt).1)
        fun heq => absurd hlt heq.le.not_gt
    · have howed : ∀ m, m ∈ (h.step (.subscribe h.core.generation)).owed ↔ m ∈ h.owed := by
        intro m
        rw [mem_step, offered, if_neg (lt_irrefl _)]
        exact and_iff_left fun n hn => by cases hcursor.symm.trans hn
      constructor
      · intro hask' _
        refine eq_nil_iff_forall_not_mem.2 fun m hm => ?_
        have hasked := asks_iff.1 (hask' m ((howed m).2 hm) (by simp [hbuffered]))
        rw [hphase] at hasked
        simp at hasked
      · intro hnone m hm
        rw [howed, hnone rfl] at hm
        cases hm
  | @covered snapshot k hgen _ hadvanced =>
    rcases hgen.lt_or_eq with hlt | heq
    · exact iff_of_true (replayAsked_of_nothing_owed ((offered_of_newer hlt).2 snapshot rfl))
        fun heq => absurd hlt heq.le.not_gt
    · simp only [heq, true_and] at hadvanced
      have hoffered : h.offered (.applySnapshot snapshot) = h.owed := if_neg heq.ge.not_gt
      rw [replayAsked_advanced_iff hadvanced fun m _ => by rw [hoffered]]
      exact ⟨fun hsafe _ => hsafe, fun hsafe => hsafe heq.symm⟩
  | @applied event n k hgen _ hcursor hnext hadvanced =>
    rw [← hnext] at hadvanced
    have hoffered : h.offered (.applyEvent event) = event.cursor :: h.owed := by
      rw [offered, if_neg hgen.le.not_gt, if_pos hgen]
    rw [replayAsked_advanced_iff hadvanced fun m hm => by
      rw [hoffered, mem_cons, or_iff_right hm.ne']]
    exact ⟨fun hsafe _ _ => hsafe, fun hsafe => hsafe hgen ⟨n, hcursor, hnext⟩⟩
  | @held event hgen _ hcursor hgap hbuffered hphase =>
    refine iff_of_true ?_ (closes_of_gap hcursor hgap)
    rcases hgen.lt_or_eq with hlt | heq
    · intro m hin hnot
      have hin := (mem_step.1 hin).1
      rw [offered, if_pos hlt, mem_singleton] at hin
      exact absurd (by rw [hbuffered, hin]; simp) hnot
    · rw [← heq, handoff_same] at hbuffered hphase
      refine replayAsked_kept hask (fun m hin hnot => ?_) hphase
      have hin := (mem_step.1 hin).1
      rw [offered, if_neg heq.ge.not_gt, if_pos heq.symm, mem_cons] at hin
      rw [hbuffered, SortedMap.mem_insert_iff, not_or] at hnot
      exact ⟨hin.resolve_left hnot.1, hnot.2⟩
  | @refused event hgen _ hcursor hgap _ hphase =>
    exact iff_of_true (fun m _ _ => asks_iff.2 (.inr hphase)) (closes_of_gap hcursor hgap)

/-- **Lost events.** Throughout a run the adapter asks for a cold replay, and is not live, while an
offered event is neither buffered nor applied nor covered, iff every operation of the run that moves
the cursor or subscribes again closes nothing over such an event. -/
theorem replay_asked_iff (config : BoundaryIngressConfig) (ops : List (BoundaryOp K T N)) :
    (∀ pre, pre <+: ops → ((start config).run pre).ReplayAsked) ↔
      ∀ pre op, pre ++ [op] <+: ops → ((start config).run pre).Closes op := by
  refine forall_prefix_iff (I := fun h => h.ReplayAsked ∧ h.core.Ordered) (fun _ _ => True)
    ⟨fun m hm => (by cases hm), ordered_new config⟩ (fun _ => And.left) ?_ ?_ fun _ _ _ => trivial
  · exact fun h op hi _ hok => ⟨(replayAsked_step_iff hi.1 hi.2 op).2 hok, hi.2.step op⟩
  · exact fun h op hi _ hbad hask => hbad ((replayAsked_step_iff hi.1 hi.2 op).1 hask)

/-- One event fits the buffer. Event 12 is buffered over the gap at 11, event 13 is refused; event
11 then drains the buffer, and the adapter is live at 12. -/
theorem refused_event_forgotten :
    let h := (start ⟨1, 1000⟩ : StreamHistory Nat Nat Nat).run
      [.subscribe 1, .applySnapshot (snapshotAt 10 [0]), .applyEvent (upsertAt 12 2),
        .applyEvent (upsertAt 13 3), .applyEvent (upsertAt 11 1)]
    (h.core.phase, h.core.cursor, h.owed) = (.live, some 12, [13]) ∧ ¬h.ReplayAsked := by
  intro h
  have hphase : h.core.phase = .live := by decide +kernel
  have howed : h.owed = [13] := by decide +kernel
  have hbuffered : 13 ∉ h.core.buffered := by decide +kernel
  refine ⟨by decide +kernel, fun hask => ?_⟩
  exact (hask 13 (by simp [howed]) hbuffered).1 hphase

end StreamHistory

end Lazily.Boundary
