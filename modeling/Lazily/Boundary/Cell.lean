import Lazily.Boundary.Buffer

/-!
# The adapter around its value plane (`boundary_ingress.rs`)

A `BoundaryIngressCell` hands the actions of its core to an ingress plane. `readmitted_iff`: in a
contiguous event history, the first upsert of a key after its removal reaches the plane iff the
plane had no scope of the key when it was removed. The plane refuses everything for a closed scope
until the scope is reopened, and the adapter never reopens one (`upsert_after_remove_refused`).
-/

namespace Lazily.Boundary

open Lib Ingress IngressCore List Option AList Std.ExtTreeMap
open scoped SortedSet

variable {K T N : Type} [LinearOrder K] [LinearOrder N]

/-! ## Contiguous events -/

/-- Events of one generation that follow the cursor without a gap. -/
def Contiguous (generation : Nat) : Nat → List (BoundaryIngressEvent K T) → Prop
  | _, [] => True
  | n, event :: events =>
    (event.generation = generation ∧ event.cursor = n + 1) ∧ Contiguous generation (n + 1) events

omit [LinearOrder K] in
theorem contiguous_append {generation : Nat} (events events' : List (BoundaryIngressEvent K T)) :
    ∀ {n : Nat}, Contiguous generation n (events ++ events') ↔
      Contiguous generation n events ∧ Contiguous generation (n + events.length) events' := by
  induction events with
  | nil => simp [Contiguous]
  | cons event events ih =>
    intro n
    rw [cons_append, Contiguous, Contiguous, ih, length_cons, Nat.add_right_comm,
      Nat.add_assoc, and_assoc (a := _ ∧ _)]

def BoundaryIngressPayload.actions : BoundaryIngressPayload K T → List (BoundaryIngressAction K T)
  | .upsert envelope => [.admitEnvelope envelope]
  | .remove key => [.close key]
  | .validate _ => []

/-- The adapter is at `n` and has nothing buffered. -/
def BoundaryIngressCore.At (c : BoundaryIngressCore K T N) (generation n : Nat) : Prop :=
  c.generation = generation ∧ c.cursor = some n ∧ c.buffered = ∅

namespace BoundaryIngressCore

variable {c : BoundaryIngressCore K T N} {generation n : Nat}

theorem drainContiguous_empty (hcursor : c.cursor = some n) (hbuffered : c.buffered = ∅)
    (actions : List (BoundaryIngressAction K T)) : c.drainContiguous actions =
      ({ c with replayFrom := none, phase := settledPhase c.validation }, actions) := by
  have hsize : c.buffered.size = 0 := eq_empty_iff_size_eq_zero.1 hbuffered
  have hempty : c.buffered.isEmpty = true := isEmpty_iff.2 hbuffered
  simp only [drainContiguous, hsize, drainLoop]
  rw [hcursor, hempty]
  simp

/-- The next event of the generation leaves as its action, and the adapter is at its cursor. -/
theorem applyEvent_next (hat : c.At generation n) {event : BoundaryIngressEvent K T}
    (hevent : event.generation = generation ∧ event.cursor = n + 1) :
    (c.applyEvent event).1.At generation (n + 1) ∧
      (c.applyEvent event).2 = ⟨event.payload.actions, true⟩ ∧
      ∀ envelope, event.payload = .upsert envelope →
        envelope.key ∈ (c.applyEvent event).1.sourceKeys := by
  obtain ⟨rfl, hcursor, hbuffered⟩ := hat
  obtain ⟨hgen, hnext⟩ := hevent
  have hnew : ¬(event.cursor ≤ n ∨ event.cursor ∈ c.buffered) := by
    rw [hbuffered, hnext]
    simp
  have hstep : c.applyEvent event = ((c.applyPayload event []).1.drainContiguous
      (c.applyPayload event []).2).map bump (⟨·, true⟩) := by
    rw [applyEvent, if_neg hgen.ge.not_gt, hgen, handoff_same]
    simp only [hcursor]
    rw [sequenceEvent, if_neg hnew, if_pos hnext]
    rfl
  obtain ⟨hcur, hbuf, hgen1⟩ := applyPayload_frame event [] c
  rw [hnext] at hcur
  rw [hbuffered] at hbuf
  rw [hstep, drainContiguous_empty hcur hbuf]
  refine ⟨⟨hgen1, hcur, hbuf⟩, ?_, fun envelope hpayload => ?_⟩
  · unfold applyPayload
    cases event.payload <;> rfl
  · simp [applyPayload, hpayload, bump]

end BoundaryIngressCore

/-! ## The cell -/

variable (M : MergePolicy T)

/-- The core, the plane, and what the shell publishes: the projection, and the member map as its
keys in order of insertion. -/
structure BoundaryIngressCell (K T N : Type) [LinearOrder K] [LinearOrder N] where
  core : BoundaryIngressCore K T N
  ingress : IngressCore K T
  members : List N
  projection : BoundaryIngressProjection K N

namespace BoundaryIngressCell

def new (boundary : BoundaryIngressConfig) (policy : IngressPolicy) :
    Except IngressConfigError (BoundaryIngressCell K T N) :=
  match IngressCore.new M policy with
  | .error e => .error e
  | .ok ingress =>
    let core := BoundaryIngressCore.new boundary
    .ok ⟨core, ingress, [], core.projection⟩

def act (ingress : IngressCore K T) : BoundaryIngressAction K T → IngressCore K T
  | .admitEnvelope envelope => (ingress.admitEnvelope M envelope).1
  | .close key => (ingress.close key).1

variable (cell : BoundaryIngressCell K T N)

def settle (transition : BoundaryIngressTransition K T) : BoundaryIngressCell K T N :=
  if !transition.changed ∧ transition.actions = [] then cell
  else
    let projection := cell.core.projection
    { cell with
      ingress := transition.actions.foldl (act M) cell.ingress
      members := cell.members.filter (projection.members.contains ·) ++
        projection.members.filter (!cell.members.contains ·)
      projection := projection }

def step (op : BoundaryOp K T N) : BoundaryIngressCell K T N :=
  let (core, transition) := cell.core.step op
  settle M { cell with core := core } transition

def run (ops : List (BoundaryOp K T N)) : BoundaryIngressCell K T N :=
  ops.foldl (step M) cell

end BoundaryIngressCell

/-! ## A key of the plane -/

namespace BoundaryIngressCell

variable {cell : BoundaryIngressCell K T N} {ingress : IngressCore K T} {generation n : Nat} {k : K}

def Shut (ingress : IngressCore K T) (k : K) : Prop :=
  ∃ s, ingress.scopes.lookup k = some s ∧ s.lifecycle = .closed

/-- What actions that upsert other keys do to a key: a missing scope stays missing, a closed one
closed. Policy and clock of the plane stay. -/
structure Kept (k : K) (ingress ingress' : IngressCore K T) : Prop where
  policy : ingress'.policy = ingress.policy
  observedNow : ingress'.observedNow = ingress.observedNow
  missing : ingress.scopes.lookup k = none → ingress'.scopes.lookup k = none
  shut : Shut ingress k → Shut ingress' k

theorem Kept.refl (k : K) (ingress : IngressCore K T) : Kept k ingress ingress := ⟨rfl, rfl, id, id⟩

theorem Kept.trans {a b c : IngressCore K T} (h : Kept k a b) (h' : Kept k b c) : Kept k a c :=
  ⟨h'.policy.trans h.policy, h'.observedNow.trans h.observedNow, h'.missing ∘ h.missing,
    h'.shut ∘ h.shut⟩

/-- A transition that leaves the scope of the key where it is. -/
theorem Kept.of_lookup {a b : IngressCore K T} (hpolicy : b.policy = a.policy)
    (hnow : b.observedNow = a.observedNow) (hlookup : b.scopes.lookup k = a.scopes.lookup k) :
    Kept k a b := by
  refine ⟨hpolicy, hnow, fun h => hlookup.trans h, ?_⟩
  rintro ⟨s, hs, hclosed⟩
  exact ⟨s, hlookup.trans hs, hclosed⟩

variable {e : IngressEnvelope K T}

theorem kept_admit_other (hne : k ≠ e.key) : Kept k ingress (ingress.admitEnvelope M e).1 := by
  have hset : ∀ s, (ingress.setScope e.key s).scopes.lookup k = ingress.scopes.lookup k :=
    fun s => lookup_insert_ne hne
  simp only [admitEnvelope]
  split
  · simp only [refused]
    split
    · exact .of_lookup rfl rfl rfl
    · exact .of_lookup rfl rfl (hset _)
  · simp only [refused]
    split
    · exact .of_lookup rfl rfl rfl
    · exact .of_lookup rfl rfl (hset _)
  · exact .of_lookup rfl rfl (hset _)
  · exact .of_lookup rfl rfl (hset _)

theorem kept_close (key : K) : Kept k ingress (ingress.close key).1 := by
  unfold close
  split
  · exact .refl k ingress
  · rename_i s hs
    split
    · exact .refl k ingress
    · by_cases hkey : k = key
      · subst hkey
        refine ⟨rfl, rfl, fun h => (by cases h.symm.trans hs), fun _ => ?_⟩
        exact ⟨s.close.1, lookup_insert _, rfl⟩
      · exact .of_lookup rfl rfl (lookup_insert_ne hkey)

theorem close_shut (h : ingress.scopes.lookup k ≠ none) : Shut (ingress.close k).1 k := by
  unfold close
  split
  · rename_i hnone
    exact absurd hnone h
  · rename_i s hs
    split
    · rename_i hclosed
      exact ⟨s, hs, hclosed⟩
    · exact ⟨s.close.1, lookup_insert _, rfl⟩

theorem kept_actions (ingress : IngressCore K T) {payload : BoundaryIngressPayload K T}
    (hother : ∀ e, payload = .upsert e → e.key ≠ k) :
    Kept k ingress (payload.actions.foldl (act M) ingress) := by
  cases payload with
  | upsert e => exact kept_admit_other M (hother e rfl).symm
  | remove key => exact kept_close key
  | validate validation => exact .refl k ingress

/-! ## Admission -/

/-- A newly opened scope delivers the envelope. -/
def Acceptable (ingress : IngressCore K T) (e : IngressEnvelope K T) : Prop :=
  ∃ through conflated handoff, (Scope.decide M ingress.policy ingress.observedNow
    (.new e.generation) e.generation e.sequence e.stampedAt e.payload).2 =
      .delivered through conflated handoff

/-- What a decision delivered is all the window holds, unless it delivered nothing. -/
def Holds (payload : T) (decided : Scope T × Decision) : Prop :=
  (∀ through conflated handoff, decided.2 ≠ .delivered through conflated handoff) ∨
    decided.1.window = some payload ∧ decided.1.lifecycle = .live

theorem holds_decide_new (policy : IngressPolicy) (now generation sequence stampedAt : Nat)
    (payload : T) :
    Holds payload (Scope.decide M policy now (.new generation) generation sequence stampedAt
      payload) := by
  have hnone : ∀ {s : Scope T} {d : Decision}, (∀ through conflated handoff,
      d ≠ .delivered through conflated handoff) → Holds payload (s, d) := fun h => .inl h
  refine Scope.decide_cases M policy (fun _ _ => hnone nofun) fun _ _ => ?_
  have hbaseline : (Scope.new generation : Scope T).baseline generation = .new generation :=
    if_neg (lt_irrefl generation)
  rw [hbaseline]
  exact Scope.sequenced_cases M policy (fun _ _ => hnone nofun) (fun _ => hnone nofun)
    (fun _ _ => hnone nofun) (fun _ => .inr ⟨rfl, rfl⟩) fun _ => .inr ⟨rfl, rfl⟩

theorem readiness_closed_iff {s : Scope T} (hs : ingress.scopes.lookup k = some s) :
    ingress.readiness k = .closed ↔ s.lifecycle = .closed := by
  simp only [readiness, view, hs, map_some, elim_some,
    ScopeView.readiness, Scope.view]
  cases s.lifecycle <;> simp
  split_ifs <;> simp

theorem admit_missing (hmissing : ingress.scopes.lookup e.key = none)
    (hacceptable : Acceptable M ingress e) :
    (ingress.admitEnvelope M e).1.peek e.key = some e.payload ∧
      (ingress.admitEnvelope M e).1.readiness e.key ≠ .closed := by
  obtain ⟨through, conflated, handoff, hdelivered⟩ := hacceptable
  obtain ⟨hwindow, hlive⟩ := (holds_decide_new M ingress.policy ingress.observedNow e.generation
    e.sequence e.stampedAt e.payload).resolve_left fun h => h _ _ _ hdelivered
  have hdecided : ingress.decided M e = Scope.decide M ingress.policy ingress.observedNow
      (.new e.generation) e.generation e.sequence e.stampedAt e.payload := by
    rw [decided, hmissing]
    rfl
  rw [← hdecided] at hdelivered hwindow hlive
  simp only [admitEnvelope, hdelivered]
  have hlookup : (ingress.setScope e.key (ingress.decided M e).1).scopes.lookup e.key =
    some (ingress.decided M e).1 := lookup_insert _
  constructor
  · change ((ingress.setScope e.key _).scopes.lookup e.key).bind Scope.window = _
    rw [hlookup]
    exact hwindow
  · intro hclosed
    have hshut := (readiness_closed_iff hlookup).1 hclosed
    rw [hlive] at hshut
    cases hshut

theorem admit_shut (hshut : Shut ingress e.key) :
    (ingress.admitEnvelope M e).1.readiness e.key = .closed := by
  obtain ⟨s, hs, hclosed⟩ := hshut
  have hdecided : ingress.decided M e = (s, .refuse .scopeClosed) := by
    rw [decided, hs]
    exact if_pos hclosed
  simp only [admitEnvelope, hdecided, refused, hs, isNone_some, Bool.false_eq_true]
  have hlookup : (ingress.setScope e.key s).scopes.lookup e.key = some s := lookup_insert _
  exact (readiness_closed_iff hlookup).2 hclosed

/-! ## Histories -/

/-- The next event of a contiguous history, on the cell. -/
theorem step_next (hat : cell.core.At generation n) {event : BoundaryIngressEvent K T}
    (hevent : event.generation = generation ∧ event.cursor = n + 1) :
    (cell.step M (.applyEvent event)).core.At generation (n + 1) ∧
      (cell.step M (.applyEvent event)).ingress = event.payload.actions.foldl (act M) cell.ingress ∧
      ∀ envelope, event.payload = .upsert envelope →
        envelope.key ∈ (cell.step M (.applyEvent event)).core.sourceKeys := by
  obtain ⟨hat', htransition, hkeys⟩ := BoundaryIngressCore.applyEvent_next hat hevent
  have hstep : cell.step M (.applyEvent event) =
      settle M { cell with core := (cell.core.applyEvent event).1 }
        ⟨event.payload.actions, true⟩ := by
    rw [← htransition]
    rfl
  rw [hstep, settle, if_neg (by simp)]
  exact ⟨hat', rfl, hkeys⟩

theorem run_other (events : List (BoundaryIngressEvent K T)) :
    ∀ {cell : BoundaryIngressCell K T N} {n : Nat}, cell.core.At generation n →
    Contiguous generation n events →
    (∀ event ∈ events, ∀ e, event.payload = .upsert e → e.key ≠ k) →
    (cell.run M (events.map .applyEvent)).core.At generation (n + events.length) ∧
      Kept k cell.ingress (cell.run M (events.map .applyEvent)).ingress := by
  induction events with
  | nil => exact fun hat _ _ => ⟨hat, .refl k _⟩
  | cons event events ih =>
    intro cell n hat hevents hother
    obtain ⟨hat', hingress, -⟩ := step_next M hat hevents.1
    obtain ⟨hend, hkept⟩ := ih hat' hevents.2 fun e he => hother e (mem_cons_of_mem _ he)
    have hfirst := kept_actions M cell.ingress (hother event mem_cons_self)
    rw [← hingress] at hfirst
    refine ⟨?_, hfirst.trans hkept⟩
    rw [length_cons, ← Nat.add_assoc, Nat.add_right_comm]
    exact hend

/-- **Readmission.** Contiguous events remove a key, may do anything but upsert it, and upsert it
with an envelope that a new scope would take. The key is a source key again; the plane shows the
value iff it had no scope of the key when the removal came. -/
theorem readmitted_iff (cell : BoundaryIngressCell K T N) {n : Nat}
    (hcursor : cell.core.cursor = some n) (hbuffered : cell.core.buffered = ∅)
    {removal upsert : BoundaryIngressEvent K T} (mid : List (BoundaryIngressEvent K T))
    (hevents : Contiguous cell.core.generation n (removal :: (mid ++ [upsert])))
    {e : IngressEnvelope K T} (hremoval : removal.payload = .remove e.key)
    (hmid : ∀ event ∈ mid, ∀ e', event.payload = .upsert e' → e'.key ≠ e.key)
    (hupsert : upsert.payload = .upsert e) (hacceptable : Acceptable M cell.ingress e) :
    let cell' := cell.run M ((removal :: (mid ++ [upsert])).map .applyEvent)
    e.key ∈ cell'.core.sourceKeys ∧
      (cell'.ingress.peek e.key = some e.payload ∧ cell'.ingress.readiness e.key ≠ .closed ↔
        cell.ingress.scopes.lookup e.key = none) := by
  obtain ⟨hmidEvents, hlast⟩ := (contiguous_append mid [upsert]).1 hevents.2
  obtain ⟨hat₁, hingress₁, -⟩ := step_next M ⟨rfl, hcursor, hbuffered⟩ hevents.1
  obtain ⟨hat₂, hkept⟩ := run_other M mid hat₁ hmidEvents hmid
  obtain ⟨-, hingress₃, hkeys⟩ := step_next M hat₂ hlast.1
  set cell₂ := (cell.step M (.applyEvent removal)).run M (mid.map .applyEvent) with hcell₂
  have hrun : cell.run M ((removal :: (mid ++ [upsert])).map .applyEvent) =
      cell₂.step M (.applyEvent upsert) := by
    simp [run, hcell₂]
  rw [hremoval] at hingress₁
  rw [hupsert] at hingress₃
  rw [hrun]
  refine ⟨hkeys e hupsert, ?_⟩
  rw [hingress₃]
  have hclosed : Kept e.key cell.ingress cell₂.ingress := by
    refine Kept.trans ?_ hkept
    rw [hingress₁]
    exact kept_close e.key
  constructor
  · rintro ⟨-, hopen⟩
    by_contra hscope
    have hshut : Shut (cell.step M (.applyEvent removal)).ingress e.key := by
      rw [hingress₁]
      exact close_shut hscope
    exact hopen (admit_shut M (hkept.shut hshut))
  · intro hmissing
    refine admit_missing M (hclosed.missing hmissing) ?_
    unfold Acceptable
    rw [hclosed.policy, hclosed.observedNow]
    exact hacceptable

/-- A cell over an empty plane of sums, subscribed to generation 1 with a snapshot at cursor 0. -/
def bootstrapped (entries : List (IngressEnvelope Nat Nat)) : BoundaryIngressCell Nat Nat Nat :=
  let core := BoundaryIngressCore.new .default
  run sumPolicy ⟨core, emptyCore, [], core.projection⟩
    [.subscribe 1, .applySnapshot ⟨1, 0, 0, entries, [], .valid⟩]

/-- The first envelope of generation 1 for key 0. -/
def first : IngressEnvelope Nat Nat := ⟨0, 1, 0, 0, 7⟩

def removeFirst : BoundaryIngressEvent Nat Nat := ⟨1, 1, 0, .remove 0⟩

def upsertFirst : BoundaryIngressEvent Nat Nat := ⟨1, 2, 0, .upsert first⟩

/-- The plane has never seen the removed key: the upsert arrives. -/
theorem readmitted_iff_unseen :
    let cell := bootstrapped []
    let cell' := cell.run sumPolicy [.applyEvent removeFirst, .applyEvent upsertFirst]
    cell'.ingress.peek 0 = some 7 ∧ 0 ∈ cell'.core.sourceKeys ∧
      (cell'.ingress.peek 0 = some 7 ∧ cell'.ingress.readiness 0 ≠ .closed ↔
        cell.ingress.scopes.lookup 0 = none) :=
  ⟨by decide +kernel,
    readmitted_iff sumPolicy (bootstrapped []) (n := 0) (by decide +kernel)
      (isEmpty_iff.1 (by decide +kernel)) []
      ⟨⟨by decide +kernel, rfl⟩, ⟨by decide +kernel, rfl⟩, trivial⟩ (e := first) rfl
      (fun _ h => by cases h) rfl ⟨0, false, none, by decide +kernel⟩⟩

/-- The snapshot opened key 0, the first event removes it, the second one brings it back: the plane
refuses the envelope and has the scope closed, while the adapter is live with the key. -/
theorem upsert_after_remove_refused :
    let cell := bootstrapped [first]
    let cell' := cell.run sumPolicy [.applyEvent removeFirst, .applyEvent upsertFirst]
    cell.ingress.peek 0 = some 7 ∧ Acceptable sumPolicy cell.ingress first ∧
      cell'.core.phase = .live ∧ 0 ∈ cell'.core.sourceKeys ∧
      ¬(cell'.ingress.peek 0 = some 7 ∧ cell'.ingress.readiness 0 ≠ .closed) :=
  ⟨by decide +kernel, ⟨0, false, none, by decide +kernel⟩, by decide +kernel, by decide +kernel,
    by decide +kernel⟩

end BoundaryIngressCell

end Lazily.Boundary
