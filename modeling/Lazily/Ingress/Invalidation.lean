import Lazily.Ingress.Core

/-!
# The invalidation sets of the ingress core

Every transition of `IngressCore` hands back the readers it dirtied, and a shell clears exactly
these. `sound_step_iff`, and over whole runs `invalidation_sound_iff`: the set covers every
observation that moved unless the transition is `Exposed`. What exposes it:

* `open` that raises the generation of a scope with a watermark: readiness (from live) and retry
  (with errors) move; so does retry when a closed scope with errors is opened anew;
* `reconnect` of a closed scope without a handoff: authority is back;
* `admit` whose envelope resets the scope and is then refused, or buffered while there are errors;
* a receipt that evicts one of another channel.
-/

namespace Lazily.Ingress

open Option List IngressChange ScopeView Nat AList

variable {K T : Type}

/-- The four readers a shell keeps per scope. -/
inductive ReaderKind where
  | value | readiness | authority | retry
  deriving DecidableEq, Repr

def IngressScopeChange.has (c : IngressScopeChange) : ReaderKind → Bool
  | .value => c.value
  | .readiness => c.readiness
  | .authority => c.authority
  | .retry => c.retry

/-- The reader of this kind is cleared for the key. -/
def IngressChange.Marks (c : IngressChange K) (k : K) (kind : ReaderKind) : Prop :=
  ∃ e ∈ c.scopes, e.1 = k ∧ e.2.has kind = true

namespace IngressCore

variable [DecidableEq K]

/-- What the reader of this kind observes is as before. -/
def Unmoved (c c' : IngressCore K T) (k : K) : ReaderKind → Prop
  | .value => c'.peek k = c.peek k
  | .readiness => c'.readiness k = c.readiness k
  | .authority => c'.authority k = c.authority k
  | .retry => c'.retry k = c.retry k

/-- Every reader whose observation moved is marked. -/
structure Sound (c c' : IngressCore K T) (change : IngressChange K) : Prop where
  scopes : ∀ k kind, ¬c.Unmoved c' k kind → change.Marks k kind
  receipts : ∀ channel, c'.receipts channel ≠ c.receipts channel → change.channel channel = true

end IngressCore

/-! ## One scope -/

namespace Scope

variable {policy : IngressPolicy} {now generation : Nat} {s s' : Scope T}
    {change : IngressScopeChange} {before : Option (Scope T)}

/-- What the reader of this kind observes of the scope of a key. -/
def Unmoved (policy : IngressPolicy) (now : Nat) (before : Option (Scope T)) (after : Scope T) :
    ReaderKind → Prop
  | .value => after.window = before.bind window
  | .readiness => (after.view now policy).readiness =
      before.elim .unknown fun s => (s.view now policy).readiness
  | .authority => (after.view now policy).authority =
      before.bind fun s => (s.view now policy).authority
  | .retry => (after.view now policy).retry = before.bind fun s => (s.view now policy).retry

/-- Every reader of the scope whose observation moved is marked. -/
def Marked (policy : IngressPolicy) (now : Nat) (before : Option (Scope T)) (after : Scope T)
    (change : IngressScopeChange) : Prop :=
  ∀ kind, ¬Unmoved policy now before after kind → change.has kind = true

theorem marked_iff {after : Scope T} : Marked policy now before after change ↔
      (change.value = false → Unmoved policy now before after .value) ∧
      (change.readiness = false → Unmoved policy now before after .readiness) ∧
      (change.authority = false → Unmoved policy now before after .authority) ∧
      (change.retry = false → Unmoved policy now before after .retry) := by
  have hkind : ∀ kind, (¬Unmoved policy now before after kind → change.has kind = true) ↔
      (change.has kind = false → Unmoved policy now before after kind) := by
    intro kind
    rw [← Bool.not_eq_true]
    exact not_imp_comm
  simp only [Marked, hkind]
  constructor
  · exact fun h => ⟨h .value, h .readiness, h .authority, h .retry⟩
  · rintro ⟨h1, h2, h3, h4⟩ (_ | _ | _ | _) <;> assumption

/-- `open` of a closed scope whose error streak goes on, or with a generation that takes the
watermark away from a scope that is live or has errors. -/
def OpenExposed (s : Scope T) (generation : Nat) : Prop :=
  s.lifecycle = .closed ∧ 0 < s.consecutiveErrors ∨
    s.lifecycle ≠ .closed ∧ s.generation < generation ∧ s.deliveredThrough ≠ none ∧
      (s.lifecycle = .live ∨ 0 < s.consecutiveErrors)

/-- The first appearance of a scope without a value. -/
theorem marked_none (hr : change.readiness = true)
    (ha : change.authority = true) (hw : s'.window = none)
    (he : change.retry = false → s'.consecutiveErrors = 0) : Marked policy now none s' change := by
  rw [marked_iff]
  simpa [hr, ha, hw, Unmoved, view, retry] using he

/-! ### When an observation moves -/

@[simp] theorem unmoved_value : Unmoved policy now (some s) s' .value ↔ s'.window = s.window :=
  Iff.rfl

/-- Readiness reads lifecycle, watermark and stamp. -/
theorem unmoved_readiness (hl : s'.lifecycle = s.lifecycle)
    (hd : s'.deliveredThrough.isNone = s.deliveredThrough.isNone)
    (hs : s'.stampedAt = s.stampedAt) : Unmoved policy now (some s) s' .readiness := by
  simp [Unmoved, readiness, isFresh, view, hl, hd, hs]

theorem unmoved_authority (hl : s'.lifecycle = .closed ↔ s.lifecycle = .closed)
    (hg : s'.generation = s.generation) (hd : s'.deliveredThrough = s.deliveredThrough)
    (hs : s'.stampedAt = s.stampedAt) : Unmoved policy now (some s) s' .authority := by
  by_cases h : s.lifecycle = .closed <;>
    simp [Unmoved, authority, view, hl, hg, hd, hs, h]

/-- Retry reads the error streak and the watermark, the latter only while there are errors. -/
theorem unmoved_retry_iff : Unmoved policy now (some s) s' .retry ↔
    s'.consecutiveErrors = s.consecutiveErrors ∧
      (s.consecutiveErrors = 0 ∨ s'.nextExpected = s.nextExpected) := by
  simp only [Unmoved, retry, view, bind_some]
  by_cases h : s.consecutiveErrors = 0 <;> by_cases h' : s'.consecutiveErrors = 0
  · simp [h]
  · simp [h]
  · simp [h, h', eq_comm]
  · simp only [h, h', if_false, some_inj, IngressRetry.mk.injEq, false_or]
    constructor
    · rintro ⟨he, -, hr⟩
      exact ⟨he, hr⟩
    · rintro ⟨he, hr⟩
      exact ⟨he, by rw [he], hr⟩

theorem unmoved_retry_reset (h : (0 < s.consecutiveErrors : Bool) = false)
    (h' : s'.consecutiveErrors = 0) : Unmoved policy now (some s) s' .retry := by
  have h0 : s.consecutiveErrors = 0 := by simpa using h
  exact unmoved_retry_iff.2 ⟨h'.trans h0.symm, .inl h0⟩

theorem nextExpected_eq_zero : s.nextExpected = 0 ↔ s.deliveredThrough = none := by
  unfold nextExpected
  cases s.deliveredThrough <;> simp

theorem marked_reopen_closed (hlife : s.lifecycle = .closed) (hwindow : s.window = none)
    (generation : Nat) :
    Marked policy now (some s) (reopen generation (some s)).1 (reopen generation (some s)).2 ↔
      s.consecutiveErrors = 0 := by
  rw [marked_iff, unmoved_retry_iff]
  simp only [reopen, hlife, if_true, new, ne_eq, Prod.mk.injEq, reduceCtorEq, false_and,
    not_false_eq_true, unmoved_value, hwindow, decide_true, false_imp_iff,
    true_imp_iff, true_and]
  omega

/-- A raise of the generation by `open`: the watermark goes, the lifecycle is that of before. -/
theorem marked_reopen_raise (hlife : s.lifecycle ≠ .closed) (hg : s.generation < generation) :
    Marked policy now (some s) (reopen generation (some s)).1 (reopen generation (some s)).2 ↔
      (s.deliveredThrough ≠ none → s.lifecycle ≠ .live ∧ s.consecutiveErrors = 0) := by
  have hne : s.generation ≠ generation := by omega
  rw [marked_iff, unmoved_retry_iff]
  cases hl : s.lifecycle with
  | closed => exact absurd hl hlife
  | opening | live | suspended =>
    cases hd : s.deliveredThrough <;>
      simp [reopen, hl, hg, hne, hd, liveOrOpening, nextExpected, Unmoved, readiness, view]
    try split <;> simp

theorem liveOrOpening_ne_closed (s : Scope T) : s.liveOrOpening ≠ .closed := by
  unfold liveOrOpening
  split <;> simp

theorem marked_reopen_keep (hlife : s.lifecycle ≠ .closed) (hg : ¬s.generation < generation) :
    Marked policy now (some s) (reopen generation (some s)).1 (reopen generation (some s)).2 := by
  have hopen := s.liveOrOpening_ne_closed
  rw [marked_iff]
  simp only [reopen, if_neg hlife, if_neg hg]
  refine ⟨fun _ => rfl, fun h => unmoved_readiness ?_ rfl rfl,
    fun _ => unmoved_authority (by simp [hopen, hlife]) rfl rfl rfl, fun _ => rfl⟩
  by_contra hl
  have hne : ¬s.lifecycle = s.liveOrOpening := fun h => hl h.symm
  simp [hne] at h

theorem marked_reopen_iff (hclosed : s.lifecycle = .closed → s.window = none) (generation : Nat) :
    Marked policy now (some s) (reopen generation (some s)).1 (reopen generation (some s)).2 ↔
      ¬s.OpenExposed generation := by
  unfold OpenExposed
  by_cases hlife : s.lifecycle = .closed
  · rw [marked_reopen_closed hlife (hclosed hlife)]
    simp [hlife]
  · by_cases hg : s.generation < generation
    · rw [marked_reopen_raise hlife hg]
      simp only [hlife, hg, ne_eq, not_false_eq_true, true_and, false_and, false_or, not_and,
        not_or, not_lt, le_zero]
    · exact iff_of_true (marked_reopen_keep hlife hg) (by simp [hlife, hg])

/-- `reconnect` of a closed scope without a handoff: it claims authority again. -/
def ReconnectExposed (s : Scope T) (generation : Nat) : Prop :=
  s.lifecycle = .closed ∧ ¬s.generation < generation

/-- A handoff: everything that may move is marked. -/
theorem marked_reconnect_handoff (hg : s.generation < generation) :
    Marked policy now (some s) (reconnect generation (some s)).1
      (reconnect generation (some s)).2.1 := by
  rw [marked_iff]
  simp only [reconnect, getD_some, hg, decide_true, isNone_some,
    Bool.false_eq_true, if_false, Bool.true_eq_false, false_imp_iff]
  refine ⟨fun h => ?_, fun h => ?_, trivial, fun h => unmoved_retry_reset h rfl⟩
  · exact (isNone_iff_eq_none.1 (by simpa using h)).symm
  · have hl : s.lifecycle = .opening := by simpa [handoff, liveOrOpening] using h
    simp [Unmoved, view, readiness, handoff, liveOrOpening, hl]

/-- Without a handoff a closed scope claims authority again, and `authority` is not marked. -/
theorem marked_reconnect_keep (hg : ¬s.generation < generation) :
    Marked policy now (some s) (reconnect generation (some s)).1
      (reconnect generation (some s)).2.1 ↔ s.lifecycle ≠ .closed := by
  have hopen := s.liveOrOpening_ne_closed
  rw [marked_iff]
  simp only [reconnect, getD_some, hg, decide_false, Bool.false_eq_true, if_false,
    isNone_some, Bool.false_and, true_imp_iff]
  refine ⟨fun h hl => ?_, fun hl => ⟨rfl, fun h => ?_, ?_, fun h => unmoved_retry_reset h rfl⟩⟩
  · simpa [Unmoved, view, authority, hl, hopen] using h.2.2.1
  · have hl : s.lifecycle = s.liveOrOpening := by simpa using h
    exact unmoved_readiness hl.symm rfl rfl
  · exact unmoved_authority (by simp [hopen, hl]) rfl rfl rfl

theorem marked_reconnect_iff (generation : Nat) :
    Marked policy now (some s) (reconnect generation (some s)).1
      (reconnect generation (some s)).2.1 ↔ ¬s.ReconnectExposed generation := by
  unfold ReconnectExposed
  by_cases hg : s.generation < generation
  · exact iff_of_true (marked_reconnect_handoff hg) (by simp [hg])
  · rw [marked_reconnect_keep hg]
    simp [hg]

theorem marked_close : Marked policy now (some s) s.close.1 s.close.2 := by
  rw [marked_iff]
  simp only [close, Bool.true_eq_false, false_imp_iff, true_and]
  refine ⟨fun h => ?_, fun h => unmoved_retry_reset h rfl⟩
  exact (isNone_iff_eq_none.1 (by simpa using h)).symm

theorem marked_suspend (hl : s.lifecycle ≠ .closed) :
    Marked policy now (some s) s.suspend.1 s.suspend.2.1 := by
  rw [marked_iff]
  refine ⟨fun _ => rfl, nofun, fun _ => ?_, fun _ => rfl⟩
  exact unmoved_authority (by simp [suspend, hl]) rfl rfl rfl

theorem marked_drain : Marked policy now (some s)
    { s with window := none, windowDepth := 0, delivered := [] } .valueOnly := by
  rw [marked_iff]
  exact ⟨nofun, fun _ => rfl, fun _ => rfl, fun _ => rfl⟩

theorem marked_fail (before : Option (Scope T)) :
    Marked policy now before (fail before).1 (fail before).2 := by
  cases before with
  | none => exact marked_none rfl rfl rfl nofun
  | some s =>
    rw [marked_iff]
    exact ⟨fun _ => rfl, fun _ => rfl, fun _ => rfl, nofun⟩

/-! ### Admission -/

/-- What `admit` marks for the scope of the envelope's key. -/
def admitChange (before : Option (Scope T)) (after : Scope T) : Decision → IngressScopeChange
  | .refuse _ | .block => .default
  | .buffered _ => bufferedChange before after
  | .delivered _ _ _ => .all

/-- An envelope that starts a newer generation and is then refused, or buffered while the scope has
errors and a watermark to lose. -/
def AdmitExposed (policy : IngressPolicy) (now : Nat) (s : Scope T)
    (generation sequence stampedAt : Nat) : Prop :=
  s.lifecycle ≠ .closed ∧ s.generation < generation ∧ now - stampedAt ≤ policy.freshnessHorizon ∧
    (0 < sequence ∧
        (policy.reorderWindow = 0 ∨ 0 < s.consecutiveErrors ∧ s.deliveredThrough ≠ none) ∨
      sequence = 0 ∧ policy.highWater = 0 ∧
        (policy.overflow = .block ∨ policy.overflow = .dropNewest))

/-- The reorder buffer is no observation. -/
theorem marked_pending (pending : AList fun _ : Nat => T × Nat) :
    Marked policy now (some s) { s with pending := pending } change := by
  rw [marked_iff]
  exact ⟨fun _ => rfl, fun _ => rfl, fun _ => rfl, fun _ => rfl⟩

theorem marked_self : Marked policy now (some s) s change := marked_pending s.pending

theorem marked_all : Marked policy now before s' .all := by
  rintro (_ | _ | _ | _) - <;> rfl

/-- A reset that marks nothing hides the new generation from the readers of authority. -/
theorem not_marked_handoff (hlife : s.lifecycle ≠ .closed) (hg : s.generation < generation) :
    ¬Marked policy now (some s) (s.handoff generation) .default := by
  rw [marked_iff]
  intro h
  have hauth := h.2.2.1 rfl
  simp [Unmoved, view, authority, handoff, hlife] at hauth
  omega

variable (M : MergePolicy T) (sequence stampedAt : Nat) (payload : T) (handoff : Option (Nat × Nat))

@[simp] theorem admitChange_deliver :
    admitChange before s' (s.deliver M sequence stampedAt payload handoff).2 = .all := rfl

/-- Without a reset every admission marks what it moves. -/
theorem marked_sequenced : let r := s.sequenced M policy sequence stampedAt payload handoff
    Marked policy now (some s) r.1 (admitChange (some s) r.1 r.2) :=
  sequenced_cases M
    (motive := fun r => Marked policy now (some s) r.1 (admitChange (some s) r.1 r.2)) policy
    (fun _ _ => marked_self) (fun _ => marked_self) (fun _ _ => marked_pending _)
    (fun _ => marked_all) fun _ => marked_all

/-- Buffering under a newer generation: `retry` is not marked, though it resumes at the
watermark. -/
theorem marked_handoff_buffered (hg : s.generation < generation)
    (pending : AList fun _ : Nat => T × Nat) :
    let after := { s.handoff generation with pending := pending }
    Marked policy now (some s) after (bufferedChange (some s) after) ↔
      ¬(0 < s.consecutiveErrors ∧ s.deliveredThrough ≠ none) := by
  have hne : s.generation ≠ generation := by omega
  intro after
  have hretry : Unmoved policy now (some s) after .retry ↔
      ¬(0 < s.consecutiveErrors ∧ s.deliveredThrough ≠ none) := by
    rw [unmoved_retry_iff, ne_eq, ← nextExpected_eq_zero (s := s)]
    show s.consecutiveErrors = s.consecutiveErrors ∧ (_ ∨ 0 = s.nextExpected) ↔ _
    omega
  rw [marked_iff, ← hretry]
  refine ⟨fun h => h.2.2.2 rfl, fun h => ⟨fun hv => ?_, fun hr => ?_, fun ha => ?_, fun _ => h⟩⟩
  · have hw : s.window = none := by simpa [bufferedChange, after, handoff] using hv
    exact hw.symm
  · have hd : s.deliveredThrough = none := by simpa [bufferedChange, after, handoff] using hr
    exact unmoved_readiness rfl (by simp [after, handoff, hd]) rfl
  · simp [bufferedChange, after, handoff, hne] at ha

theorem marked_sequenced_handoff (hlife : s.lifecycle ≠ .closed) (hg : s.generation < generation) :
    let r := (s.handoff generation).sequenced M policy sequence stampedAt payload handoff
    Marked policy now (some s) r.1 (admitChange (some s) r.1 r.2) ↔
      ¬(0 < sequence ∧
          (policy.reorderWindow = 0 ∨ 0 < s.consecutiveErrors ∧ s.deliveredThrough ≠ none) ∨
        sequence = 0 ∧ policy.highWater = 0 ∧
          (policy.overflow = .block ∨ policy.overflow = .dropNewest)) := by
  have hnext : (s.handoff generation).nextExpected = 0 := rfl
  have hpending : (s.handoff generation).pending = ∅ := rfl
  have hdepth : (s.handoff generation).windowDepth = 0 := rfl
  simp only [sequenced, hnext, not_lt_zero, if_false, hpending, lookup_empty,
    isSome_none, hdepth, le_zero, keys_empty, length_nil]
  rcases Nat.eq_zero_or_pos sequence with rfl | hpos
  · -- in order: the empty window is over the mark only at a high water of zero
    by_cases hw : policy.highWater = 0
    · cases ho : policy.overflow with
      | block | dropNewest => simpa [hw, admitChange] using not_marked_handoff hlife hg
      | dropOldest | conflate | spill => simpa [hw] using marked_all
    · simpa [hw] using marked_all
  · have hne : sequence ≠ 0 := by omega
    by_cases hr : policy.reorderWindow = 0
    · simpa [hpos, hr, admitChange] using not_marked_handoff hlife hg
    · simp only [hpos, hr, hne, if_true, true_and, false_and, false_or, or_false]
      exact marked_handoff_buffered hg _

variable (policy now) in
theorem marked_decide_iff (s : Scope T) (generation : Nat) :
    let r := s.decide M policy now generation sequence stampedAt payload
    Marked policy now (some s) r.1 (admitChange (some s) r.1 r.2) ↔
      ¬s.AdmitExposed policy now generation sequence stampedAt := by
  unfold AdmitExposed
  refine decide_cases M (motive := fun r => Marked policy now (some s) r.1
    (admitChange (some s) r.1 r.2) ↔ _) policy (fun hn _ => ?_) fun ha handoff => ?_
  · exact iff_of_true marked_self fun h => hn ⟨h.1, le_of_lt h.2.1, h.2.2.1⟩
  unfold baseline
  split
  · rename_i hg
    simp only [ha.1, hg, ha.2.2, ne_eq, not_false_eq_true, true_and]
    exact marked_sequenced_handoff M sequence stampedAt payload _ ha.1 hg
  · rename_i hg
    exact iff_of_true (marked_sequenced M sequence stampedAt payload _) fun h => hg h.2.1

variable (policy now) in
/-- A scope made for the envelope that is buffered or delivered. -/
theorem marked_decide_none (generation : Nat) :
    let r := (new generation : Scope T).decide M policy now generation sequence stampedAt payload
    admitChange none r.1 r.2 ≠ .default →
      Marked policy now none r.1 (admitChange none r.1 r.2) := by
  simp only [decide, new, reduceCtorEq, if_false, lt_irrefl]
  split
  · exact fun h => absurd rfl h
  · refine sequenced_cases M (motive := fun r => admitChange none r.1 r.2 ≠ .default →
      Marked policy now none r.1 (admitChange none r.1 r.2)) policy
      (fun _ _ h => absurd rfl h) (fun _ h => absurd rfl h)
      (fun _ _ _ => marked_none rfl rfl rfl fun _ => rfl) (fun _ _ => marked_all)
      fun _ _ => marked_all

/-! ### What becomes of an envelope -/

def Accepts (policy : IngressPolicy) (now : Nat) (s : Scope T)
    (generation sequence stampedAt : Nat) : Prop :=
  s.Admits policy now generation stampedAt ∧ (s.baseline generation).InOrder policy sequence

def Buffers (policy : IngressPolicy) (now : Nat) (s : Scope T)
    (generation sequence stampedAt : Nat) : Prop :=
  s.Admits policy now generation stampedAt ∧ (s.baseline generation).Ahead policy sequence

/-- The decision agrees with the conditions for delivery and for buffering. -/
def Decides (d : Decision) (accepts buffers : Prop) : Prop :=
  match d with
  | .refuse _ | .block => ¬accepts ∧ ¬buffers
  | .buffered _ => ¬accepts ∧ buffers
  | .delivered _ _ _ => accepts

theorem decides_sequenced (s : Scope T) :
    Decides (s.sequenced M policy sequence stampedAt payload handoff).2 (s.InOrder policy sequence)
      (s.Ahead policy sequence) :=
  sequenced_cases M (motive := fun r => Decides r.2 _ _) policy (fun h _ => not_or.1 h) not_or.1
    (fun h _ => ⟨fun h' => Nat.ne_of_lt h.1 h'.1.symm, h⟩) id id

variable (policy now) in
theorem decides_decide (s : Scope T) (generation : Nat) :
    Decides (s.decide M policy now generation sequence stampedAt payload).2
      (s.Accepts policy now generation sequence stampedAt)
      (s.Buffers policy now generation sequence stampedAt) := by
  unfold Accepts Buffers
  refine decide_cases M (motive := fun r => Decides r.2 _ _) policy (fun hn _ => ?_) fun ha _ => ?_
  · exact ⟨fun h => hn h.1, fun h => hn h.1⟩
  · simp only [ha, true_and]
    exact decides_sequenced M ..

/-! ### Closed scopes hold nothing -/

def Emptied (s : Scope T) : Prop := s.lifecycle = .closed → s.window = none

theorem emptied_of_ne_closed (h : s.lifecycle ≠ .closed) : s.Emptied := fun hl => absurd hl h

theorem lifecycle_mergeInto : (s.mergeInto M payload stampedAt).1.lifecycle = s.lifecycle := by
  unfold mergeInto
  cases s.window <;> rfl

theorem lifecycle_flush : ∀ (fuel : Nat) (s : Scope T) (through : Nat) (conflated : Bool),
    (s.flush M fuel through conflated).1.lifecycle = s.lifecycle
  | 0, _, _, _ => rfl
  | fuel + 1, s, through, conflated => by
    rw [flush]
    split
    · rfl
    · exact (lifecycle_flush fuel _ _ _).trans (lifecycle_mergeInto M ..)

theorem reopen_ne_closed (generation : Nat) (before : Option (Scope T)) :
    (reopen generation before).1.lifecycle ≠ .closed := by
  unfold reopen
  split
  · nofun
  · simp only []
    split
    · nofun
    · split <;> exact liveOrOpening_ne_closed _

theorem sequenced_ne_closed (hlife : s.lifecycle ≠ .closed) :
    (s.sequenced M policy sequence stampedAt payload handoff).1.lifecycle ≠ .closed := by
  have hdeliver : ∀ s : Scope T,
      (s.deliver M sequence stampedAt payload handoff).1.lifecycle ≠ .closed := by
    intro s hl
    have hlive := lifecycle_flush M _ _ _ _ ▸ hl
    cases hlive
  exact sequenced_cases M (motive := fun r => r.1.lifecycle ≠ .closed) policy (fun _ _ => hlife)
    (fun _ => hlife) (fun _ _ => hlife) (fun _ => hdeliver _) fun _ => hdeliver _

theorem Emptied.decide (h : s.Emptied) (generation : Nat) :
    (s.decide M policy now generation sequence stampedAt payload).1.Emptied := by
  refine decide_cases M (motive := fun r => r.1.Emptied) policy (fun _ _ => h) fun hadmits _ =>
    emptied_of_ne_closed (sequenced_ne_closed M _ _ _ _ ?_)
  unfold baseline
  split <;> exact hadmits.1

end Scope

/-! ## The core -/

namespace IngressChange

theorem marks_mark {key k : K} {change : IngressScopeChange} {kind : ReaderKind} :
    (default.mark key change).Marks k kind ↔ k = key ∧ change.has kind = true := by
  unfold mark IngressChange.Marks
  split
  · have hnone : change.has kind = false := by
      cases kind <;> simp_all [IngressScopeChange.isEmpty, IngressScopeChange.has]
    simp [default, hnone]
  · simp only [default, nil_append, mem_singleton, exists_eq_left]
    exact and_congr_left' eq_comm

theorem channel_markChannel {ic : IngressChange K} (hic : ∀ ch, ic.channel ch = false)
    (channel ch : IngressReceiptChannel) :
    (ic.markChannel channel).channel ch = true ↔ ch = channel := by
  cases channel <;> cases ch <;>
    simp [markChannel, channel] <;>
    first | exact hic .accepted | exact hic .dropped | exact hic .error

theorem channel_mark (key : K) (change : IngressScopeChange) (ch : IngressReceiptChannel) :
    (default.mark key change).channel ch = false := by
  unfold mark
  split <;> cases ch <;> rfl

theorem scopes_markChannel (ic : IngressChange K) (channel : IngressReceiptChannel) :
    (ic.markChannel channel).scopes = ic.scopes := by
  cases channel <;> rfl

/-- The sweep of `tick` marks every scope whose readiness differs. -/
theorem marks_foldl {p : (Sigma fun _ : K => Scope T) → Bool} {e : Sigma fun _ : K => Scope T}
    (hp : p e = true) : ∀ (es : List (Sigma fun _ : K => Scope T)) (ic : IngressChange K),
    e ∈ es ∨ ic.Marks e.1 .readiness →
      (es.foldl (fun ic e => if p e then ic.mark e.1 .readinessOnly else ic) ic).Marks e.1
        .readiness
  | [], _, h => by simpa using h
  | x :: es, ic, h => by
    rw [foldl_cons]
    refine marks_foldl hp es _ ?_
    rcases h with h | ⟨m, hm, hmk⟩
    · rcases mem_cons.1 h with rfl | h
      · exact .inr ⟨(e.1, .readinessOnly), by simp [hp, mark,
          IngressScopeChange.readinessOnly, IngressScopeChange.isEmpty], rfl, rfl⟩
      · exact .inl h
    · refine .inr ⟨m, ?_, hmk⟩
      split
      · simp [mark, IngressScopeChange.readinessOnly, IngressScopeChange.isEmpty, hm]
      · exact hm

end IngressChange

namespace IngressCore

variable [DecidableEq K] {c c' : IngressCore K T} {key : K} {s : Scope T}
  {change : IngressScopeChange}

section

variable (hp : c'.policy = c.policy) (hn : c'.observedNow = c.observedNow) {ic : IngressChange K}
include hp hn

theorem unmoved_of_scopes {k : K} (hk : c'.scopes.lookup k = c.scopes.lookup k)
    (kind : ReaderKind) : c.Unmoved c' k kind := by
  cases kind <;> simp [Unmoved, peek, readiness, authority, retry, view, hp, hn, hk]

theorem unmoved_iff (hk : c'.scopes.lookup key = some s) (kind : ReaderKind) :
    c.Unmoved c' key kind ↔ Scope.Unmoved c.policy c.observedNow (c.scopes.lookup key) s kind := by
  cases hc : c.scopes.lookup key <;> cases kind <;>
    simp [Unmoved, Scope.Unmoved, peek, readiness, authority, retry, view, hp, hn, hk, hc]

/-- A transition that sets one scope and marks one key is as sound as what it says of that
scope. -/
theorem scopes_sound_iff (hs : c'.scopes = c.scopes.insert key s)
    (hic : ic.scopes = (default.mark key change).scopes) :
    (∀ k kind, ¬c.Unmoved c' k kind → ic.Marks k kind) ↔
      Scope.Marked c.policy c.observedNow (c.scopes.lookup key) s change := by
  have hmarks : ∀ k kind, ic.Marks k kind ↔ k = key ∧ change.has kind = true := by
    intro k kind
    rw [← marks_mark, IngressChange.Marks, IngressChange.Marks, hic]
  have hkey : c'.scopes.lookup key = some s := by rw [hs, lookup_insert]
  constructor
  · intro h kind hmoved
    exact ((hmarks key kind).1 (h key kind (mt (unmoved_iff hp hn hkey kind).1 hmoved))).2
  · intro h k kind hmoved
    by_cases hk : k = key
    · subst hk
      exact (hmarks k kind).2 ⟨rfl, h kind (mt (unmoved_iff hp hn hkey kind).2 hmoved)⟩
    · refine absurd (unmoved_of_scopes hp hn ?_ kind) hmoved
      rw [hs, lookup_insert_ne hk]

theorem scopes_sound_self (hs : c'.scopes = c.scopes) (k : K) (kind : ReaderKind)
    (hmoved : ¬c.Unmoved c' k kind) : ic.Marks k kind :=
  absurd (unmoved_of_scopes hp hn (by rw [hs]) kind) hmoved

end

theorem sound_self (ic : IngressChange K) : c.Sound c ic :=
  ⟨scopes_sound_self rfl rfl rfl, fun _ h => absurd rfl h⟩

theorem sound_setScope_iff : c.Sound (c.setScope key s) (default.mark key change) ↔
    Scope.Marked c.policy c.observedNow (c.scopes.lookup key) s change := by
  have hscopes := scopes_sound_iff (c := c) (rfl : (c.setScope key s).policy = _) rfl rfl
    (rfl : (default.mark key change).scopes = _)
  exact ⟨fun h => hscopes.1 h.scopes, fun h => ⟨hscopes.2 h, fun _ hmoved => absurd rfl hmoved⟩⟩

/-! ### Receipts -/

/-- A receipt pushed on this channel evicts one of another channel. -/
def Evicts (c : IngressCore K T) (channel : IngressReceiptChannel) : Prop :=
  c.receiptLog.length = c.policy.receiptCapacity ∧
    ∃ r, c.receiptLog.head? = some r ∧ r.channel ≠ channel

/-- What the receipt log and the closed scopes keep in every reachable state. -/
structure Valid (c : IngressCore K T) : Prop where
  capacity : 0 < c.policy.receiptCapacity
  bounded : c.receiptLog.length ≤ c.policy.receiptCapacity
  emptied : ∀ k s, c.scopes.lookup k = some s → s.Emptied

section

variable (hc : c.Valid) (key : K) (generation : Nat) (sequence : Option Nat)
    (outcome : IngressReceiptOutcome)
include hc

/-- The log after a push: the oldest receipt goes once the log is full. -/
theorem receiptLog_pushReceipt : (c.pushReceipt key generation sequence outcome).receiptLog =
      (if c.receiptLog.length = c.policy.receiptCapacity then c.receiptLog.tail
        else c.receiptLog) ++ [⟨c.nextReceiptOffset, key, generation, sequence, outcome⟩] := by
  have hb := hc.bounded
  have hcap := hc.capacity
  simp only [pushReceipt, length_append, length_singleton]
  split
  · have hone : c.receiptLog.length + 1 - c.policy.receiptCapacity = 1 := by omega
    rw [hone, drop_append_of_le_length (by omega), drop_one]
  · have hzero : c.receiptLog.length + 1 - c.policy.receiptCapacity = 0 := by omega
    rw [hzero, drop_zero]

theorem receipts_pushReceipt_iff :
    (∀ channel, (c.pushReceipt key generation sequence outcome).receipts channel ≠
      c.receipts channel → channel = outcome.channel) ↔ ¬c.Evicts outcome.channel := by
  -- away from the channel of the new receipt, the log only loses its head
  have hother : ∀ channel, channel ≠ outcome.channel →
      (c.pushReceipt key generation sequence outcome).receipts channel =
        (if c.receiptLog.length = c.policy.receiptCapacity then c.receiptLog.tail
          else c.receiptLog).filter fun r => r.channel = channel := by
    intro channel hne
    have hnew : outcome.channel ≠ channel := hne.symm
    rw [receipts, receiptLog_pushReceipt hc, filter_append]
    simp [IngressReceipt.channel, hnew]
  unfold Evicts
  by_cases hfull : c.receiptLog.length = c.policy.receiptCapacity
  · cases hlog : c.receiptLog with
    | nil =>
      have := hc.capacity
      simp [hlog] at hfull
      omega
    | cons r rest =>
      rw [hlog] at hfull
      simp only [hfull, head?_cons, some_inj, exists_eq_left', true_and, not_not]
      constructor
      · intro h
        by_contra hne
        refine hne (h r.channel fun heq => ?_)
        rw [hother _ hne, receipts, hlog, if_pos hfull, tail_cons] at heq
        have hlen := congrArg length heq
        simp at hlen
      · intro hr channel hmoved
        by_contra hne
        refine hmoved ?_
        have hrne : r.channel ≠ channel := fun h => hne (h ▸ hr)
        rw [hother _ hne, receipts, hlog, if_pos hfull, tail_cons]
        simp [hrne]
  · refine iff_of_true (fun channel hmoved => ?_) (fun h => hfull h.1)
    by_contra hne
    exact hmoved (by rw [hother _ hne, if_neg hfull, receipts])

/-- The receipts of a change that marks the channel of the pushed receipt. -/
theorem receipts_sound_iff {ic : IngressChange K} (hic : ∀ ch, ic.channel ch = false) :
    (∀ channel, (c.pushReceipt key generation sequence outcome).receipts channel ≠
        c.receipts channel → (ic.markChannel outcome.channel).channel channel = true) ↔
      ¬c.Evicts outcome.channel := by
  rw [← receipts_pushReceipt_iff hc key generation sequence outcome]
  simp only [channel_markChannel hic]

theorem sound_push_iff : c.Sound (c.pushReceipt key generation sequence outcome)
      (default.markChannel outcome.channel) ↔ ¬c.Evicts outcome.channel := by
  have hdefault : ∀ ch, (default : IngressChange K).channel ch = false := by
    rintro (_ | _ | _) <;> rfl
  rw [← receipts_sound_iff hc key generation sequence outcome hdefault]
  exact ⟨fun h => h.receipts, fun h => ⟨scopes_sound_self rfl rfl rfl, h⟩⟩

theorem sound_setScope_push_iff (s : Scope T) (change : IngressScopeChange) :
    c.Sound ((c.setScope key s).pushReceipt key generation sequence outcome)
        ((default.mark key change).markChannel outcome.channel) ↔
      Scope.Marked c.policy c.observedNow (c.scopes.lookup key) s change ∧
        ¬c.Evicts outcome.channel := by
  have hscopes := scopes_sound_iff (c := c)
    (rfl : ((c.setScope key s).pushReceipt key generation sequence outcome).policy = _) rfl rfl
    (scopes_markChannel (default.mark key change) outcome.channel)
  have hreceipts := receipts_sound_iff hc key generation sequence outcome (channel_mark key change)
  exact ⟨fun h => ⟨hscopes.1 h.scopes, hreceipts.1 h.receipts⟩,
    fun h => ⟨hscopes.2 h.1, hreceipts.2 h.2⟩⟩

theorem Valid.pushReceipt : (c.pushReceipt key generation sequence outcome).receiptLog.length ≤
    c.policy.receiptCapacity := by
  have hb := hc.bounded
  have hcap := hc.capacity
  rw [receiptLog_pushReceipt hc]
  split <;> simp <;> omega

end

theorem sound_tick (now : Nat) : c.Sound (c.tick now).1 (c.tick now).2 := by
  unfold tick
  split
  · exact sound_self _
  refine ⟨fun k kind hmoved => ?_, fun _ h => absurd rfl h⟩
  cases hk : c.scopes.lookup k with
  | none =>
    refine absurd ?_ hmoved
    cases kind <;> simp [Unmoved, peek, readiness, authority, retry, view, hk]
  | some s =>
    cases kind with
    | value | authority | retry =>
      refine absurd ?_ hmoved
      simp [Unmoved, peek, authority, retry, view, hk, ScopeView.authority, ScopeView.retry,
        ScopeView.resumeFrom, Scope.view]
    | readiness =>
      have hmem : (⟨k, s⟩ : Sigma fun _ => Scope T) ∈ c.scopes.entries := mem_lookup_iff.1 hk
      have hdiff : (s.view c.observedNow c.policy).readiness ≠ (s.view now c.policy).readiness := by
        intro heq
        exact hmoved (by simp [Unmoved, readiness, view, hk, heq])
      have hmarks := marks_foldl (p := fun e => decide
        ((e.2.view c.observedNow c.policy).readiness ≠ (e.2.view now c.policy).readiness))
        (decide_eq_true hdiff) c.scopes.entries .default (.inl hmem)
      simpa using hmarks

variable (M : MergePolicy T)

/-- The transition moves an observation that it does not mark. -/
def Exposed (c : IngressCore K T) : Transition K T → Prop
  | .openScope key generation => ∃ s, c.scopes.lookup key = some s ∧ s.OpenExposed generation
  | .reconnect key generation => ∃ s, c.scopes.lookup key = some s ∧ s.ReconnectExposed generation
  | .fail _ _ => c.Evicts .error
  | .admitEnvelope e =>
    let s := (c.scopes.lookup e.key).getD (.new e.generation)
    (∃ s, c.scopes.lookup e.key = some s ∧
      s.AdmitExposed c.policy c.observedNow e.generation e.sequence e.stampedAt) ∨
    s.Accepts c.policy c.observedNow e.generation e.sequence e.stampedAt ∧ c.Evicts .accepted ∨
    ¬s.Accepts c.policy c.observedNow e.generation e.sequence e.stampedAt ∧
      ¬s.Buffers c.policy c.observedNow e.generation e.sequence e.stampedAt ∧ c.Evicts .dropped
  | .suspend _ | .close _ | .tick _ | .drain _ => False

section

variable (e : IngressEnvelope K T)

/-- What becomes of the envelope in the scope of its key, with what `admit` marks. -/
theorem marked_admit_iff (c : IngressCore K T) {s' : Scope T}
    {d : Decision} (hd : c.decided M e = (s', d)) :
    (Scope.admitChange (c.scopes.lookup e.key) s' d ≠ .default ∨
        (c.scopes.lookup e.key).isSome = true →
      Scope.Marked c.policy c.observedNow (c.scopes.lookup e.key) s'
        (Scope.admitChange (c.scopes.lookup e.key) s' d)) ↔ ¬∃ s, c.scopes.lookup e.key = some s ∧
        s.AdmitExposed c.policy c.observedNow e.generation e.sequence e.stampedAt := by
  unfold decided at hd
  cases hk : c.scopes.lookup e.key with
  | none =>
    rw [hk, getD_none] at hd
    refine iff_of_true (fun h => ?_) (by simp)
    have hnone := Scope.marked_decide_none c.policy c.observedNow M e.sequence e.stampedAt e.payload
      e.generation
    simp only [hd] at hnone
    exact hnone (h.resolve_right (by simp))
  | some s =>
    rw [hk, getD_some] at hd
    have hsome := Scope.marked_decide_iff c.policy c.observedNow M e.sequence e.stampedAt
      e.payload s e.generation
    simp only [hd] at hsome
    simpa using hsome

theorem sound_refused_iff (hc : c.Valid) (s' : Scope T) (reason : IngressDropReason) :
    c.Sound (c.refused e s' reason) (default.markChannel .dropped) ↔
      ((c.scopes.lookup e.key).isSome = true →
        Scope.Marked c.policy c.observedNow (c.scopes.lookup e.key) s' .default) ∧
      ¬c.Evicts .dropped := by
  unfold refused
  cases hk : c.scopes.lookup e.key with
  | none =>
    rw [isNone_none, if_pos rfl]
    simp only [isSome_none, Bool.false_eq_true, false_imp_iff, true_and]
    exact sound_push_iff hc e.key e.generation (some e.sequence) (.dropped reason)
  | some s =>
    rw [isNone_some, if_neg Bool.false_ne_true, isSome_some, ← hk]
    simp only [true_imp_iff]
    exact sound_setScope_push_iff hc e.key s'.generation (some e.sequence) (.dropped reason) s'
      .default

/-- **One admission** marks what it moves, unless it is exposed. -/
theorem sound_admit_iff (hc : c.Valid) :
    c.Sound (c.admitEnvelope M e).1 (c.admitEnvelope M e).2.1 ↔ ¬c.Exposed (.admitEnvelope e) := by
  obtain ⟨⟨s', d⟩, hd⟩ : ∃ r, c.decided M e = r := ⟨_, rfl⟩
  have hmarked := marked_admit_iff M e c hd
  have hdecides := Scope.decides_decide c.policy c.observedNow M e.sequence e.stampedAt e.payload
    ((c.scopes.lookup e.key).getD (.new e.generation)) e.generation
  have hd' : Scope.decide .. = (s', d) := hd
  rw [hd'] at hdecides
  unfold Exposed
  rw [not_or, ← hmarked]
  cases d with
  | refuse _ | block =>
    obtain ⟨haccepts, hbuffers⟩ := hdecides
    simp only [admitEnvelope, hd]
    rw [sound_refused_iff _ hc]
    simp [haccepts, hbuffers, Scope.admitChange]
  | buffered gapFrom =>
    obtain ⟨haccepts, hbuffers⟩ := hdecides
    have hseen : Scope.admitChange (c.scopes.lookup e.key) s' (.buffered gapFrom) ≠ .default ∨
        (c.scopes.lookup e.key).isSome = true := by
      cases c.scopes.lookup e.key with
      | none => exact .inl (by simp [Scope.admitChange, Scope.bufferedChange,
          IngressScopeChange.creation, IngressScopeChange.default])
      | some s => exact .inr rfl
    have hstep : c.admitEnvelope M e = (c.setScope e.key s', default.mark e.key
        (Scope.bufferedChange (c.scopes.lookup e.key) s'), .buffered gapFrom) := by
      simp only [admitEnvelope, hd]
    rw [hstep, sound_setScope_iff, imp_iff_right hseen]
    simp [haccepts, hbuffers, Scope.admitChange]
  | delivered through conflated handoff =>
    have haccepts : Scope.Accepts .. := hdecides
    have hsound := sound_setScope_push_iff hc e.key s'.generation (some e.sequence)
      (.accepted through conflated) s' .all
    simp only [admitEnvelope, hd]
    refine hsound.trans ?_
    simp [haccepts, Scope.admitChange, Scope.marked_all, IngressReceiptOutcome.channel]

end

/-- **One transition** marks what it moves, unless it is exposed. -/
theorem sound_step_iff (hc : c.Valid) (t : Transition K T) :
    c.Sound (c.step M t).1 (c.step M t).2 ↔ ¬c.Exposed t := by
  cases t with
  | openScope key generation =>
    refine sound_setScope_iff.trans ?_
    cases hk : c.scopes.lookup key with
    | none =>
      exact iff_of_true (Scope.marked_none rfl rfl rfl fun _ => rfl) (by simp [Exposed, hk])
    | some s =>
      refine (Scope.marked_reopen_iff (hc.emptied key s hk) generation).trans ?_
      simp [Exposed, hk]
  | suspend key | close key | drain key =>
    refine iff_of_true ?_ id
    simp only [step, suspend, close, drain]
    cases hk : c.scopes.lookup key with
    | none => exact sound_self _
    | some s =>
      dsimp only
      split
      · exact sound_self _
      · rename_i hlife
        rw [sound_setScope_iff, hk]
        first
          | exact Scope.marked_suspend fun h => hlife (.inr h)
          | exact Scope.marked_close
          | exact Scope.marked_drain
  | reconnect key generation =>
    refine sound_setScope_iff.trans ?_
    cases hk : c.scopes.lookup key with
    | none =>
      refine iff_of_true (Scope.marked_none ?_ ?_ ?_ fun _ => rfl) (by simp [Exposed, hk]) <;>
        simp [Scope.new, IngressScopeChange.union, IngressScopeChange.creation]
    | some s =>
      refine (Scope.marked_reconnect_iff generation).trans ?_
      simp [Exposed, hk]
  | tick now => exact iff_of_true (sound_tick now) id
  | fail key error =>
    refine (sound_setScope_push_iff hc ..).trans ?_
    exact and_iff_right (Scope.marked_fail _)
  | admitEnvelope e => exact sound_admit_iff M e hc

/-! ### Reachable states -/

/-- The receipt log is as it was, or has one more receipt. -/
theorem Valid.receiptLog_step (hc : c.Valid) (t : Transition K T) :
    (c.step M t).1.policy = c.policy ∧
      (c.step M t).1.receiptLog.length ≤ c.policy.receiptCapacity := by
  have hsame := hc.bounded
  cases t with
  | openScope key generation | reconnect key generation => exact ⟨rfl, hsame⟩
  | suspend key | close key | tick now | drain key =>
    simp only [step, suspend, close, tick, drain]
    repeat' split
    all_goals exact ⟨rfl, hsame⟩
  | fail key error => exact ⟨rfl, hc.pushReceipt ..⟩
  | admitEnvelope e =>
    simp only [step, admitEnvelope, refused]
    repeat' split
    all_goals first | exact ⟨rfl, hsame⟩ | exact ⟨rfl, hc.pushReceipt ..⟩

theorem Valid.step (hc : c.Valid) (t : Transition K T) : (c.step M t).1.Valid := by
  obtain ⟨hpolicy, hbounded⟩ := hc.receiptLog_step M t
  refine ⟨hpolicy ▸ hc.capacity, hpolicy ▸ hbounded, fun k s' hs' => ?_⟩
  rcases lookup_step M c t k with hk | ⟨s, hk, hmove⟩
  · exact hc.emptied k s' (hk ▸ hs')
  obtain rfl : s = s' := by simpa [hk] using hs'
  have hgetD : ∀ generation, ((c.scopes.lookup k).getD (.new generation)).Emptied := by
    intro generation
    cases hk : c.scopes.lookup k with
    | none => exact fun _ => rfl
    | some s => exact hc.emptied k s hk
  generalize c.scopes.lookup k = before at hmove hgetD
  cases hmove with
  | openScope key generation =>
    exact Scope.emptied_of_ne_closed (Scope.reopen_ne_closed generation _)
  | suspend key s => exact Scope.emptied_of_ne_closed nofun
  | reconnect key generation => exact Scope.emptied_of_ne_closed (Scope.liveOrOpening_ne_closed _)
  | close key s | drain key s => exact fun _ => rfl
  | fail key error => exact hgetD 0
  | admitEnvelope e => exact (hgetD e.generation).decide M _ _ _ _

theorem Valid.run : ∀ ts {c : IngressCore K T}, c.Valid → (c.run M ts).Valid
  | [], _, hc => hc
  | t :: ts, _, hc => Valid.run ts (hc.step M t)

theorem valid_new {policy : IngressPolicy} (hnew : new M policy = .ok c) : c.Valid := by
  unfold new at hnew
  split at hnew
  · cases hnew
  · split at hnew
    · cases hnew
    · cases hnew
      exact ⟨by show 0 < policy.receiptCapacity; omega, zero_le _, fun k s hk => by simp at hk⟩

end IngressCore

open IngressCore

/-- **Soundness of the invalidation sets.** From every reachable core, a transition marks each
reader kind and each receipt channel whose observation it moves, iff it is not one of the exposed
ones. -/
theorem invalidation_sound_iff [DecidableEq K] (M : MergePolicy T) (policy : IngressPolicy)
    {c₀ : IngressCore K T} (hnew : IngressCore.new M policy = .ok c₀) (ts : List (Transition K T))
    (t : Transition K T) :
    let c := c₀.run M ts
    c.Sound (c.step M t).1 (c.step M t).2 ↔ ¬c.Exposed t :=
  sound_step_iff M (Valid.run M ts (valid_new M hnew)) t

theorem invalidation_sound_iff_drain :
    let c := emptyCore.run sumPolicy [.openScope 0 1, .admitEnvelope ⟨0, 1, 0, 0, 5⟩]
    c.peek 0 = some 5 ∧ c.Sound (c.step sumPolicy (.drain 0)).1 (c.step sumPolicy (.drain 0)).2 :=
  ⟨by decide +kernel, (invalidation_sound_iff sumPolicy .default rfl _ _).2 id⟩

/-- `open` at generation 2 takes the watermark from a live scope: it goes from ready to warming, and
only its authority is marked. -/
theorem open_hides_warming :
    let c := emptyCore.run sumPolicy [.openScope 0 1, .admitEnvelope ⟨0, 1, 0, 0, 5⟩]
    let r := c.step sumPolicy (.openScope 0 2)
    c.readiness 0 = .ready ∧ r.1.readiness 0 = .warming ∧
      r.2.scopes = [(0, ⟨false, false, true, false⟩)] ∧ ¬c.Sound r.1 r.2 := by
  intro c r
  have hbefore : c.readiness 0 = .ready := by decide +kernel
  have hafter : r.1.readiness 0 = .warming := by decide +kernel
  have hscopes : r.2.scopes = [(0, ⟨false, false, true, false⟩)] := by decide +kernel
  refine ⟨hbefore, hafter, hscopes, fun hsound => ?_⟩
  obtain ⟨e, he, -, hhas⟩ := hsound.scopes 0 .readiness (by simp [Unmoved, hbefore, hafter])
  rw [hscopes, mem_singleton] at he
  subst he
  cases hhas

end Lazily.Ingress
