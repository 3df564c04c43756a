import Lazily.Lib.Reach

/-!
# Waiting at a revision barrier (`stdlib.rs`)

`wait_after` loops under the barrier's mutex. It gives the mutex up twice in an iteration: while the
check runs, and while it sleeps. The deadline is polled at the top of an iteration and again right
before the sleep, where the code takes a timer that has fired for unreachable
(`deadline_between_polls_panics`). `returns_iff_inTime`: a wait returns iff that never happens.

Instants are natural numbers, one for each poll. Other threads act while the mutex is free.
-/

namespace Lazily.Stdlib

open Lib Bool

/-! ## Timers -/

structure TimerCore where
  fireAt : Nat
  fired : Bool
  deriving DecidableEq, Repr

/-- Advance to a tick; whether this is the fire edge. -/
def TimerCore.tick (core : TimerCore) (now : Nat) : TimerCore × Bool :=
  if core.fired ∨ now < core.fireAt then (core, false) else ({ core with fired := true }, true)

inductive TimerPoll where
  | pending (remaining : Nat)
  | fired (newlyFired : Bool)
  deriving DecidableEq, Repr

structure Timer where
  deadline : Nat
  core : TimerCore
  firedAt : Option Nat
  deriving DecidableEq, Repr

namespace Timer

def «at» (deadline : Nat) : Timer := ⟨deadline, ⟨1, false⟩, none⟩

/-- Poll at an instant; a timer that has fired stays so. -/
def pollAt (timer : Timer) (now : Nat) : Timer × TimerPoll :=
  if timer.core.fired then (timer, .fired false)
  else if now < timer.deadline then (timer, .pending (timer.deadline - now))
  else
    let r := timer.core.tick 1
    ({ timer with core := r.1, firedAt := if r.2 then some now else timer.firedAt }, .fired r.2)

end Timer

/-! ## The barrier -/

inductive RevisionCheck where
  | pending
  | satisfied
  | unavailable
  deriving DecidableEq, Repr

inductive RevisionWaitOutcome where
  | satisfied (revision : Nat)
  | timedOut (revision : Nat)
  | cancelled (revision : Nat)
  | disposed (revision : Nat)
  | unavailable (revision : Nat)
  deriving DecidableEq, Repr

/-- Any outcome but the satisfied check. -/
def RevisionWaitOutcome.isLate : RevisionWaitOutcome → Bool
  | .satisfied _ => false
  | .timedOut _ | .cancelled _ | .disposed _ | .unavailable _ => true

/-- What the mutex guards; the generations wrap. -/
structure RevisionBarrierState where
  revision : Nat
  revisionGeneration : Nat
  wakeGeneration : Nat
  disposed : Bool
  lastNow : Option Nat
  clockRegressed : Bool
  deriving DecidableEq, Repr

namespace RevisionBarrierState

def new (initialRevision : Nat) : RevisionBarrierState :=
  ⟨initialRevision, 0, 0, false, none, false⟩

variable (b : RevisionBarrierState)

def wake : RevisionBarrierState :=
  { b with wakeGeneration := (b.wakeGeneration + 1) % UInt64.size }

/-- Take in an observation of the clock; a regression is latched. -/
def observeClock (now : Nat) : RevisionBarrierState × Bool :=
  if b.disposed ∨ b.clockRegressed then (b, false)
  else if b.lastNow.any (now < ·) then ({ b with clockRegressed := true }.wake, false)
  else ({ b with lastNow := some now }, true)

def advance (revision : Nat) : RevisionBarrierState × Bool :=
  if b.disposed ∨ b.clockRegressed ∨ revision ≤ b.revision then (b, false)
  else
    ({ b with
        revision := revision
        revisionGeneration := (b.revisionGeneration + 1) % UInt64.size }.wake, true)

def notify : RevisionBarrierState :=
  if b.disposed ∨ b.clockRegressed then b else b.wake

def dispose : RevisionBarrierState × Bool :=
  if b.disposed ∨ b.clockRegressed then (b, false) else ({ b with disposed := true }.wake, true)

end RevisionBarrierState

/-- A cancellation input: its flag, and the barrier it was made by. -/
structure BarrierCancellation where
  cancelled : Bool
  barrier : Nat
  deriving DecidableEq, Repr

inductive BarrierCall where
  | observeClock (now : Nat)
  | advance (revision : Nat)
  | notify
  | cancel
  | dispose
  deriving DecidableEq, Repr

/-! ## `wait_after` -/

/-- What meets one iteration: the instants its polls read, what the check answers, and the calls of
other threads while the check runs and while the waiter sleeps. -/
structure Round where
  first : Nat
  during : List BarrierCall
  checked : RevisionCheck
  second : Nat
  asleep : List BarrierCall
  deriving DecidableEq, Repr

inductive Phase where
  | looping
  | returned (outcome : RevisionWaitOutcome)
  | panicked
  deriving DecidableEq, Repr

/-- A call of `wait_after`. Observation only: whether a poll has found the deadline passed. -/
structure Waiter where
  barrier : RevisionBarrierState
  afterRevision : Nat
  deadline : Option Timer
  cancellation : Option BarrierCancellation
  phase : Phase
  expired : Bool
  deriving DecidableEq, Repr

namespace Waiter

/-- Enter the call: the cancellation input of another barrier is refused. -/
def enter (id : Nat) (barrier : RevisionBarrierState) (afterRevision : Nat)
    (deadline : Option Timer) (cancellation : Option BarrierCancellation) : Waiter where
  barrier := barrier
  afterRevision := afterRevision
  deadline := deadline
  cancellation := cancellation
  phase :=
    if cancellation.any (·.barrier ≠ id) then .returned (.unavailable barrier.revision)
    else .looping
  expired := false

variable (w : Waiter)

def call : BarrierCall → Waiter
  | .observeClock now => { w with barrier := (w.barrier.observeClock now).1 }
  | .advance revision => { w with barrier := (w.barrier.advance revision).1 }
  | .notify => { w with barrier := w.barrier.notify }
  | .cancel =>
    if w.cancellation.any (·.cancelled) then w
    else
      { w with
        cancellation := w.cancellation.map fun token => { token with cancelled := true }
        barrier := w.barrier.wake }
  | .dispose => { w with barrier := w.barrier.dispose.1 }

def others (calls : List BarrierCall) : Waiter := calls.foldl call w

def finish (outcome : RevisionWaitOutcome) : Waiter :=
  { w with phase := .returned outcome }

/-- Poll the deadline, if there is one; whether it has fired. -/
def poll (now : Nat) : Waiter × Bool :=
  match w.deadline with
  | none => (w, false)
  | some timer =>
    match timer.pollAt now with
    | (timer, .pending _) => ({ w with deadline := some timer }, false)
    | (timer, .fired _) => ({ w with deadline := some timer, expired := true }, true)

variable (r : Round)

/-- Poll again and sleep. -/
def sleep : Waiter :=
  let p := w.poll r.second
  if p.2 then { p.1 with phase := .panicked } else p.1.others r.asleep

/-- Run the check on a newer revision. A wake meanwhile starts the loop again. -/
def runCheck : Waiter :=
  let w' := w.others r.during
  if w'.barrier.wakeGeneration ≠ w.barrier.wakeGeneration then w'
  else
    match r.checked with
    | .satisfied => w'.finish (.satisfied w.barrier.revision)
    | .unavailable => w'.finish (.unavailable w.barrier.revision)
    | .pending => w'.sleep r

/-- An iteration past the polls at the top. -/
def body : Waiter :=
  if w.cancellation.any (·.cancelled) then w.finish (.cancelled w.barrier.revision)
  else if w.afterRevision < w.barrier.revision then w.runCheck r
  else w.sleep r

def iterate : Waiter :=
  if w.barrier.clockRegressed then w.finish (.unavailable w.barrier.revision)
  else if w.barrier.disposed then w.finish (.disposed w.barrier.revision)
  else
    let p := w.poll r.first
    if p.2 then p.1.finish (.timedOut w.barrier.revision) else p.1.body r

def step : Waiter :=
  match w.phase with
  | .looping => w.iterate r
  | .returned _ | .panicked => w

def run (rounds : List Round) : Waiter := rounds.foldl step w

/-! ## What a call comes to -/

/-- The call has not panicked, and once a poll has found the deadline passed it has returned that it
timed out, was cancelled, disposed or unavailable. -/
structure Returns (w : Waiter) : Prop where
  sound : w.phase ≠ .panicked
  late : w.expired = true → ∃ outcome, w.phase = .returned outcome ∧ outcome.isLate = true

/-- The iteration gets to the second poll. -/
structure Sleeps (w : Waiter) (r : Round) : Prop where
  looping : w.phase = .looping
  regular : w.barrier.clockRegressed = false
  alive : w.barrier.disposed = false
  early : (w.poll r.first).2 = false
  wanted : w.cancellation.any (·.cancelled) = false
  unmet : w.afterRevision < w.barrier.revision →
    (w.others r.during).barrier.wakeGeneration = w.barrier.wakeGeneration ∧ r.checked = .pending

/-- The condition on an iteration: a second poll that is reached is before the deadline. -/
def InTime : Prop :=
  w.Sleeps r → ∀ timer, w.deadline = some timer → r.second < timer.deadline

variable {w : Waiter} {r : Round} {now : Nat}

/-- Other threads leave the call's own state. -/
theorem others_frame (w : Waiter) (calls : List BarrierCall) :
    (w.others calls).phase = w.phase ∧ (w.others calls).deadline = w.deadline ∧
      (w.others calls).expired = w.expired := by
  refine foldl_invariant (I := fun w' : Waiter => w'.phase = w.phase ∧ w'.deadline = w.deadline ∧
    w'.expired = w.expired) ⟨rfl, rfl, rfl⟩ fun w' c hw' => ?_
  cases c with
  | cancel =>
    simp only [call]
    split <;> exact hw'
  | observeClock _ | advance _ | notify | dispose => exact hw'

theorem poll_eq_false_iff : (w.poll now).2 = false ↔
    ∀ timer, w.deadline = some timer → timer.core.fired = false ∧ now < timer.deadline := by
  unfold poll Timer.pollAt
  cases w.deadline with
  | none => simp
  | some timer =>
    simp only [Option.some.injEq, forall_eq']
    cases timer.core.fired with
    | true => simp
    | false =>
      by_cases hnow : now < timer.deadline
      · simp [hnow]
      · simp [hnow]

/-- A poll before the deadline changes nothing. -/
theorem poll_of_early (h : (w.poll now).2 = false) : (w.poll now).1 = w := by
  have htimer := poll_eq_false_iff.1 h
  unfold poll Timer.pollAt
  cases hdeadline : w.deadline with
  | none => rfl
  | some timer =>
    obtain ⟨hfired, hnow⟩ := htimer timer hdeadline
    simp only [hfired, hnow, if_true, false_eq_true, if_false]
    rw [← hdeadline]

/-- The second poll of an iteration: the call sleeps and goes on, or it panics. -/
theorem phase_sleep (hphase : w.phase = .looping) :
    (w.sleep r).phase = if (w.poll r.second).2 then .panicked else .looping := by
  unfold sleep
  simp only
  split
  · rfl
  · rename_i hearly
    rw [(others_frame _ _).1, poll_of_early (by simpa using hearly), hphase]

theorem expired_sleep (hearly : (w.poll r.second).2 = false) : (w.sleep r).expired = w.expired := by
  unfold sleep
  simp only [hearly, false_eq_true, if_false]
  rw [(others_frame _ _).2.2, poll_of_early hearly]

/-- An iteration that gets to the second poll gets there with the call's own state as it was. -/
theorem Sleeps.step_eq (hs : w.Sleeps r) : ∃ w' : Waiter, w'.phase = .looping ∧
    w'.deadline = w.deadline ∧ w'.expired = w.expired ∧ w.step r = w'.sleep r := by
  have hstep : w.step r = w.body r := by
    simp [step, hs.looping, iterate, hs.regular, hs.alive, hs.early, poll_of_early hs.early]
  rw [hstep, body]
  simp only [hs.wanted, false_eq_true, if_false]
  split
  · rename_i hnew
    obtain ⟨hwake, hchecked⟩ := hs.unmet hnew
    obtain ⟨hphase, hdeadline, hexpired⟩ := others_frame w r.during
    refine ⟨w.others r.during, hphase.trans hs.looping, hdeadline, hexpired, ?_⟩
    simp [runCheck, hwake, hchecked]
  · exact ⟨w, hs.looping, rfl, rfl, rfl⟩

theorem returns_finish {outcome : RevisionWaitOutcome}
    (h : w.expired = true → outcome.isLate = true) : (w.finish outcome).Returns :=
  ⟨by simp [finish], fun hexpired => ⟨outcome, rfl, h hexpired⟩⟩

theorem returns_looping (hphase : w.phase = .looping) (hexpired : w.expired = false) : w.Returns :=
  ⟨by simp [hphase], fun h => by rw [hexpired] at h; cases h⟩

theorem Returns.expired (hw : w.Returns) (hphase : w.phase = .looping) : w.expired = false := by
  rw [eq_false_iff]
  intro hexpired
  obtain ⟨outcome, hreturned, -⟩ := hw.late hexpired
  rw [hphase] at hreturned
  cases hreturned

/-- An iteration that does not get to the second poll returns or starts the loop again. -/
theorem Returns.step_of_not_sleeps (hw : w.Returns) (hs : ¬w.Sleeps r) : (w.step r).Returns := by
  cases hphase : w.phase with
  | returned outcome => simpa [step, hphase] using hw
  | panicked => exact absurd hphase hw.sound
  | looping =>
    have hexpired := hw.expired hphase
    simp only [step, hphase, iterate]
    split
    · exact returns_finish fun _ => rfl
    rename_i hregular
    split
    · exact returns_finish fun _ => rfl
    rename_i halive
    split
    · exact returns_finish fun _ => rfl
    rename_i hearly
    rw [not_eq_true] at hregular halive hearly
    rw [poll_of_early hearly, body]
    split
    · exact returns_finish fun _ => rfl
    rename_i hwanted
    rw [not_eq_true] at hwanted
    split
    · obtain ⟨hphase', -, hexpired'⟩ := others_frame w r.during
      rw [hphase] at hphase'
      rw [hexpired] at hexpired'
      unfold runCheck
      simp only
      split
      · exact returns_looping hphase' hexpired'
      rename_i hwake
      cases hchecked : r.checked with
      | satisfied =>
        refine returns_finish fun h => ?_
        rw [hexpired'] at h
        cases h
      | unavailable => exact returns_finish fun _ => rfl
      | pending =>
        exact absurd ⟨hphase, hregular, halive, hearly, hwanted,
          fun _ => ⟨not_not.1 hwake, hchecked⟩⟩ hs
    · rename_i hold
      exact absurd ⟨hphase, hregular, halive, hearly, hwanted, fun hnew => absurd hnew hold⟩ hs

theorem Returns.step (hw : w.Returns) (hin : w.InTime r) : (w.step r).Returns := by
  by_cases hs : w.Sleeps r
  · obtain ⟨w', hphase, hdeadline, hexpired, hstep⟩ := hs.step_eq
    have hearly : (w'.poll r.second).2 = false := by
      refine poll_eq_false_iff.2 fun timer htimer => ?_
      rw [hdeadline] at htimer
      exact ⟨(poll_eq_false_iff.1 hs.early timer htimer).1, hin hs timer htimer⟩
    rw [hstep]
    refine returns_looping ?_ ?_
    · rw [phase_sleep hphase, hearly]
      rfl
    · rw [expired_sleep hearly, hexpired]
      exact hw.expired hs.looping
  · exact hw.step_of_not_sleeps hs

/-- The deadline between the two polls of an iteration: the call panics. -/
theorem panics_of_late (hin : ¬w.InTime r) : (w.step r).phase = .panicked := by
  unfold InTime at hin
  push Not at hin
  obtain ⟨hs, timer, htimer, hlate⟩ := hin
  obtain ⟨w', hphase, hdeadline, -, hstep⟩ := hs.step_eq
  have hfired : (w'.poll r.second).2 = true := by
    rw [← not_eq_false]
    intro hearly
    exact absurd (poll_eq_false_iff.1 hearly timer (hdeadline.trans htimer)).2 (Nat.not_lt.2 hlate)
  rw [hstep, phase_sleep hphase, hfired]
  rfl

/-- **Time passing**: a call never panics, and returns late once the deadline has passed, iff in
every iteration that gets to the second poll that poll is before the deadline. -/
theorem returns_iff_inTime (id : Nat) (barrier : RevisionBarrierState) (afterRevision : Nat)
    (deadline : Option Timer) (cancellation : Option BarrierCancellation) (rounds : List Round) :
    let w := enter id barrier afterRevision deadline cancellation
    (∀ pre, pre <+: rounds → (w.run pre).Returns) ↔
      ∀ pre r, pre ++ [r] <+: rounds → (w.run pre).InTime r := by
  intro w
  have hstart : w.Returns := by
    refine ⟨?_, fun h => by cases h⟩
    show (if _ then _ else _) ≠ Phase.panicked
    split <;> simp
  refine forall_prefix_iff (I := Returns) (fun _ _ => True) hstart (fun _ hw => hw)
    (fun w r hw _ hin => hw.step hin) (fun w r _ _ hin hreturns => ?_) fun _ _ _ => trivial
  exact hreturns.sound (panics_of_late hin)

/-- The deadline is at 10. The first poll of the iteration reads 9, the second 10. -/
theorem deadline_between_polls_panics :
    let w := (enter 0 (.new 3) 3 (some (.at 10)) none).run [⟨9, [], .pending, 10, []⟩]
    w.phase = .panicked ∧ ¬w.Returns := by
  intro w
  have hphase : w.phase = .panicked := by decide
  exact ⟨hphase, fun hreturns => hreturns.sound hphase⟩

end Waiter

end Lazily.Stdlib
