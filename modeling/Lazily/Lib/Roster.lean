import Lazily.Lib.Episode
import Mathlib.Logic.Relation

/-!
# A queue of recycled ids

A store hands out numbers as ids and takes the id of a disposed node back. Some of its nodes are
tasks. A task that is due has its flag set and its id in a queue; a disposal clears the flag and
leaves the id in the queue, where it may be reached when another node has taken the slot. A drain
takes the tasks off the queue one at a time, and anything may happen between the steps of a drain.

`TaskRun` numbers the nodes by their creation and logs what becomes of each task. The flag of a slot
says whether its occupant has been scheduled and not dealt with since (`TaskRun.Inv`), whatever the
queue holds; every step keeps that (`Inv.steps`).
-/

namespace Lazily.Lib

open List Option Function Bool Nat

/-- What a store knows of its ids and of its queue. `reserved` are the ids that are handed out and
have no node yet, `occupant` is the node in a slot: a task or not. -/
structure Roster where
  nextId : Nat
  freeIds : List Nat
  reserved : List Nat
  occupant : Nat → Option Bool
  scheduled : Nat → Bool
  pending : List Nat
  draining : Bool

namespace Roster

variable (q : Roster)

def fresh : Nat := q.freeIds.headD q.nextId

def alloc : Roster :=
  { q with
    nextId := if q.freeIds = [] then q.nextId + 1 else q.nextId
    freeIds := q.freeIds.tail
    reserved := q.fresh :: q.reserved }

variable (id : Nat)

def insert (task : Bool) : Roster :=
  { q with
    reserved := q.reserved.erase id
    occupant := Function.update q.occupant id (some task) }

/-- The node in the slot `id` is gone, and off the queue if it was a task. -/
def retire : Roster :=
  { q with
    freeIds := id :: q.freeIds
    occupant := Function.update q.occupant id none
    scheduled := if q.occupant id = some true then Function.update q.scheduled id false
      else q.scheduled }

def schedule : Roster :=
  if q.scheduled id then q
  else
    { q with
      scheduled := Function.update q.scheduled id true
      pending := q.pending ++ [id] }

/-- The task `id` is taken off the queue, which leaves `pending`. -/
def unschedule (pending : List Nat) : Roster :=
  { q with scheduled := Function.update q.scheduled id false, pending := pending }

structure Ok : Prop where
  live : ∀ i, q.occupant i ≠ none → i < q.nextId
  free : ∀ i ∈ q.freeIds ++ q.reserved, q.occupant i = none ∧ i < q.nextId
  nodup : (q.freeIds ++ q.reserved).Nodup
  task : ∀ i, q.scheduled i = true → q.occupant i = some true
  queued : ∀ i, q.scheduled i = true → i ∈ q.pending

/-- Nodes go one after the other. -/
inductive Retires : Roster → Roster → Prop
  | refl (q : Roster) : Retires q q
  | head {q q' : Roster} {id : Nat} : q.occupant id ≠ none → Retires (q.retire id) q' → Retires q q'

/-- The queue can do without everything but `id` that is not in `rest`. -/
def Leaves (rest : List Nat) : Prop :=
  ∀ i ∈ q.pending, q.scheduled i = true → i ≠ id → i ∈ rest

variable {q} {q1 q2 q3 : Roster} {id : Nat}

theorem Retires.trans (h : Retires q1 q2) (h' : Retires q2 q3) : Retires q1 q3 := by
  induction h with
  | refl => exact h'
  | head hlive _ ih => exact .head hlive (ih h')

@[simp] theorem occupant_schedule : (q.schedule id).occupant = q.occupant := by
  unfold schedule
  split <;> rfl

@[simp] theorem scheduled_schedule : (q.schedule id).scheduled = update q.scheduled id true := by
  unfold schedule
  split
  · rename_i hs
    exact (update_eq_self_iff.2 hs.symm).symm
  · rfl

theorem draining_schedule : (q.schedule id).draining = q.draining := by
  unfold schedule
  split <;> rfl

theorem unschedule_eq_self (hs : q.scheduled id = false) : q.unschedule id q.pending = q := by
  unfold unschedule
  rw [update_eq_self_iff.2 hs.symm]

theorem Ok.alloc (h : q.Ok) : q.alloc.Ok := by
  unfold Roster.alloc Roster.fresh
  cases hfree : q.freeIds with
  | nil =>
    have hreserved : ∀ i ∈ q.reserved, q.occupant i = none ∧ i < q.nextId := fun i hi =>
      h.free i (mem_append_right _ hi)
    refine ⟨fun i hi => lt_succ_of_lt (h.live i hi), fun i hi => ?_, ?_, h.task, h.queued⟩
    · rcases mem_cons.1 hi with rfl | hi
      · exact ⟨by_contra fun hlive => lt_irrefl _ (h.live _ hlive), lt_succ_self _⟩
      · exact ⟨(hreserved i hi).1, lt_succ_of_lt (hreserved i hi).2⟩
    · have hnodup := h.nodup
      rw [hfree] at hnodup
      exact nodup_cons.2 ⟨fun hin => lt_irrefl _ (hreserved _ hin).2, hnodup⟩
  | cons id rest =>
    have hperm : (rest ++ id :: q.reserved).Perm (q.freeIds ++ q.reserved) := by
      rw [hfree]
      exact perm_middle
    exact ⟨h.live, fun i hi => h.free i (hperm.mem_iff.1 hi), hperm.nodup_iff.2 h.nodup, h.task,
      h.queued⟩

theorem Ok.vacant (h : q.Ok) (hid : id ∈ q.reserved) :
    q.occupant id = none ∧ q.scheduled id = false := by
  have hnone := (h.free id (mem_append_right _ hid)).1
  refine ⟨hnone, ?_⟩
  by_contra hs
  have htask := h.task id (by simpa using hs)
  rw [hnone] at htask
  cases htask

theorem Ok.insert (h : q.Ok) (hid : id ∈ q.reserved) (task : Bool) : (q.insert id task).Ok := by
  have hfree : id ∉ q.freeIds := fun hin => disjoint_of_nodup_append h.nodup hin hid
  have herase : q.freeIds ++ q.reserved.erase id = (q.freeIds ++ q.reserved).erase id :=
    (erase_append_right _ hfree).symm
  refine ⟨fun i hi => ?_, fun i hi => ?_, ?_, fun i hi => ?_, h.queued⟩
  · by_cases hi' : i = id
    · rw [hi']
      exact (h.free id (mem_append_right _ hid)).2
    · exact h.live i (by simpa [Roster.insert, hi'] using hi)
  · have hmem : i ∈ (q.freeIds ++ q.reserved).erase id := herase ▸ hi
    obtain ⟨hi', hin⟩ := h.nodup.mem_erase_iff.1 hmem
    exact ⟨by simpa [Roster.insert, hi'] using (h.free i hin).1, (h.free i hin).2⟩
  · have hnodup := h.nodup.erase id
    rw [← herase] at hnodup
    exact hnodup
  · have hi' : i ≠ id := fun hi' => by
      have hoff := (h.vacant hid).2
      exact absurd (hoff.symm.trans (hi' ▸ hi)) false_ne_true
    simpa [Roster.insert, hi'] using h.task i hi

theorem Ok.retire (h : q.Ok) (hlive : q.occupant id ≠ none) : (q.retire id).Ok where
  live i hi := by
    by_cases hid : i = id
    · simp [Roster.retire, hid] at hi
    · exact h.live i (by simpa [Roster.retire, hid] using hi)
  free i hi := by
    rcases mem_cons.1 hi with rfl | hi
    · exact ⟨by simp [Roster.retire], h.live i hlive⟩
    · have hid : i ≠ id := fun hid => hlive (hid ▸ (h.free i hi).1)
      exact ⟨by simpa [Roster.retire, hid] using (h.free i hi).1, (h.free i hi).2⟩
  nodup := nodup_cons.2 ⟨fun hmem => hlive (h.free id hmem).1, h.nodup⟩
  task i hi := by
    have hold : q.scheduled i = true ∧ i ≠ id := by
      by_cases hk : q.occupant id = some true
      · by_cases hid : i = id <;> simp_all [Roster.retire]
      · simp only [Roster.retire, hk] at hi
        exact ⟨hi, fun hid => hk (hid ▸ h.task i hi)⟩
    simpa [Roster.retire, hold.2] using h.task i hold.1
  queued i hi := by
    refine h.queued i ?_
    by_cases hk : q.occupant id = some true
    · by_cases hid : i = id <;> simp_all [Roster.retire]
    · simpa [Roster.retire, hk] using hi

theorem Ok.schedule (h : q.Ok) (htask : q.occupant id = some true) : (q.schedule id).Ok := by
  unfold Roster.schedule
  split
  · exact h
  · refine ⟨h.live, h.free, h.nodup, fun i hi => ?_, fun i hi => ?_⟩
    · by_cases hid : i = id
      · rw [hid]
        exact htask
      · exact h.task i (by simpa [hid] using hi)
    · by_cases hid : i = id
      · simp [hid]
      · exact mem_append_left _ (h.queued i (by simpa [hid] using hi))

theorem Ok.unschedule (h : q.Ok) {rest : List Nat} (hrest : q.Leaves id rest) :
    (q.unschedule id rest).Ok := by
  have hother : ∀ i, (q.unschedule id rest).scheduled i = true → q.scheduled i = true ∧ i ≠ id :=
    fun i hi => by
      by_cases hid : i = id
      · simp [Roster.unschedule, hid] at hi
      · exact ⟨by simpa [Roster.unschedule, hid] using hi, hid⟩
  exact ⟨h.live, h.free, h.nodup, fun i hi => h.task i (hother i hi).1,
    fun i hi => hrest i (h.queued i (hother i hi).1) (hother i hi).1 (hother i hi).2⟩

/-- What a series of disposals leaves. -/
structure Retired (q q' : Roster) : Prop where
  ok : q'.Ok
  draining : q'.draining = q.draining
  occupant : ∀ i, q'.occupant i ≠ none → q'.occupant i = q.occupant i
  scheduled : ∀ i, q'.occupant i ≠ none → q'.scheduled i = q.scheduled i

theorem Retires.retired {q' : Roster} (h : Retires q q') (hok : q.Ok) : Retired q q' := by
  induction h with
  | refl => exact ⟨hok, rfl, fun _ _ => rfl, fun _ _ => rfl⟩
  | @head q q' id hlive _ ih =>
    obtain ⟨hok', hdrain, hocc, hsched⟩ := ih (hok.retire hlive)
    have hne : ∀ i, q'.occupant i ≠ none → i ≠ id := fun i hi hid => by
      have hnone : (q.retire id).occupant i = none := by simp [retire, hid]
      exact hi ((hocc i hi).trans hnone)
    refine ⟨hok', hdrain, fun i hi => ?_, fun i hi => ?_⟩
    · rw [hocc i hi]
      simp [retire, hne i hi]
    · rw [hsched i hi]
      simp only [retire]
      split
      · exact update_of_ne (hne i hi) ..
      · rfl

end Roster

/-! ## What becomes of the tasks -/

/-- What becomes of a task, given by the number of its creation. -/
inductive QueueEntry where
  | scheduled (birth : Nat)
  | popped (birth : Nat)
  /-- Popped by an iteration that ended before it considered the task. -/
  | dropped (birth : Nat)
  /-- Found to need no run. -/
  | unchanged (birth : Nat)
  | started (birth : Nat)
  | disposed (birth : Nat)
  deriving DecidableEq

@[simp] def QueueEntry.birth : QueueEntry → Nat
  | .scheduled b | .popped b | .dropped b | .unchanged b | .started b | .disposed b => b

section Log

/-- An episode of the task is open: it was scheduled, and since then neither popped nor disposed,
and no run of it was started. -/
def awaiting (log : List QueueEntry) (b : Nat) : Bool :=
  since (.scheduled b) [.popped b, .started b, .disposed b] log

variable (log : List QueueEntry)

/-- The task was scheduled and has not been run since. -/
def owed (b : Nat) : Bool :=
  since (.scheduled b) [.started b, .disposed b] log

/-- The task was scheduled and has neither run nor been found unchanged since. -/
def unsettled (b : Nat) : Bool :=
  since (.scheduled b) [.started b, .unchanged b, .disposed b] log

/-- The task was dropped, and has not been scheduled since. -/
def lost (b : Nat) : Bool := since (.dropped b) [.scheduled b] log

variable {log more : List QueueEntry} {b : Nat}

section

variable (e : QueueEntry)

@[simp] theorem awaiting_append : awaiting (log ++ [e]) b = if e = .scheduled b then true
    else if e ∈ [QueueEntry.popped b, .started b, .disposed b] then false else awaiting log b :=
  since_append e

@[simp] theorem owed_append : owed (log ++ [e]) b = if e = .scheduled b then true
    else if e ∈ [QueueEntry.started b, .disposed b] then false else owed log b :=
  since_append e

@[simp] theorem unsettled_append : unsettled (log ++ [e]) b = if e = .scheduled b then true
    else if e ∈ [QueueEntry.started b, .unchanged b, .disposed b] then false else unsettled log b :=
  since_append e

@[simp] theorem lost_append : lost (log ++ [e]) b =
    if e = .dropped b then true else if e ∈ [QueueEntry.scheduled b] then false else lost log b :=
  since_append e

end

theorem lost_dropped (log : List QueueEntry) (x : Nat) :
    lost (log ++ [.popped x, .dropped x]) b = (x == b || lost log b) := by
  rw [append_cons, lost_append, lost_append]
  by_cases hx : x = b <;> simp [hx]

/-- Entries about other tasks. -/
theorem log_frame (log : List QueueEntry) (h : ∀ e ∈ more, e.birth ≠ b) :
    awaiting (log ++ more) b = awaiting log b ∧ owed (log ++ more) b = owed log b ∧
      unsettled (log ++ more) b = unsettled log b ∧ lost (log ++ more) b = lost log b := by
  have hframe : ∀ {o : QueueEntry} {ends : List QueueEntry}, (∀ e ∈ o :: ends, e.birth = b) →
      since o ends (log ++ more) = since o ends log := fun hb =>
    since_append_frame fun e he => ⟨fun ho => h e he (hb e (ho ▸ mem_cons_self)),
      fun hin => h e he (hb e (mem_cons_of_mem _ hin))⟩
  exact ⟨hframe (by simp), hframe (by simp), hframe (by simp), hframe (by simp)⟩

theorem owed_of_awaiting (h : awaiting log b = true) : owed log b = true := since_mono (by simp) h

/-- Each pop took an open episode, and each run was owed if tasks are scheduled as they are
created. -/
structure Exact (prompt : Prop) (log : List QueueEntry) : Prop where
  popped : ∀ before b, before ++ [.popped b] <+: log → awaiting before b = true
  started : prompt → ∀ before b, before ++ [.started b] <+: log → owed before b = true

variable {prompt : Prop} {e : QueueEntry}

theorem Exact.append (h : Exact prompt log) (hpop : ∀ b, e = .popped b → awaiting log b = true)
    (hstart : prompt → ∀ b, e = .started b → owed log b = true) : Exact prompt (log ++ [e]) where
  popped before b hb := by
    rcases prefix_concat_iff.1 hb with hb | hb
    · obtain ⟨rfl, he⟩ := append_inj' hb rfl
      exact hpop b (by simpa using he.symm)
    · exact h.popped before b hb
  started hp before b hb := by
    rcases prefix_concat_iff.1 hb with hb | hb
    · obtain ⟨rfl, he⟩ := append_inj' hb rfl
      exact hstart hp b (by simpa using he.symm)
    · exact h.started hp before b hb

theorem Exact.disposals (h : Exact prompt log)
    (hmore : ∀ e ∈ more, ∃ b, e = .disposed b) : Exact prompt (log ++ more) := by
  induction more using reverseRecOn with
  | nil => rwa [append_nil]
  | append_singleton more e ih =>
    obtain ⟨b, rfl⟩ := hmore e (by simp)
    rw [← append_assoc]
    exact (ih fun x hx => hmore x (mem_append_left _ hx)).append (by simp) fun _ => by simp

end Log

/-- A roster with the task that the drain under way has popped and not yet dealt with: its slot, and
its number. -/
structure TaskRun where
  roster : Roster
  births : Nat
  birth : Nat → Nat
  current : Option (Nat × Nat)
  log : List QueueEntry

namespace TaskRun

variable (r : TaskRun)

def empty : TaskRun where
  roster :=
    { nextId := 0
      freeIds := []
      reserved := []
      occupant := fun _ => none
      scheduled := fun _ => false
      pending := []
      draining := false }
  births := 0
  birth _ := 0
  current := none
  log := []

def created (id : Nat) (q : Roster) (log : List QueueEntry) : TaskRun :=
  { r with
    roster := q
    births := r.births + 1
    birth := Function.update r.birth id r.births
    log := log }

def gone (q : Roster) : List QueueEntry :=
  ((List.range r.roster.nextId).filter fun i =>
    (r.roster.occupant i).isSome && (q.occupant i).isNone).map fun i => .disposed (r.birth i)

/-- What happens to a store: nodes come and go, tasks are scheduled, and a drain pops a task, gives
it up at its budget, finds it unchanged, or starts the task that is in its slot by then. In a
`prompt` store every task is scheduled as it is created. -/
inductive Step (prompt : Prop) : TaskRun → TaskRun → Prop
  | alloc (r : TaskRun) : Step prompt r { r with roster := r.roster.alloc }
  | insert {r : TaskRun} {id : Nat} {task : Bool} : id ∈ r.roster.reserved →
      (prompt → task = false) → Step prompt r (r.created id (r.roster.insert id task) r.log)
  | insertTask {r : TaskRun} {id : Nat} : id ∈ r.roster.reserved →
      Step prompt r (r.created id ((r.roster.insert id true).schedule id)
        (r.log ++ [.scheduled r.births]))
  | schedule {r : TaskRun} {id : Nat} : r.roster.occupant id = some true →
      Step prompt r { r with
        roster := r.roster.schedule id
        log := r.log ++ [.scheduled (r.birth id)] }
  | retire {r : TaskRun} {q : Roster} : r.roster.Retires q →
      Step prompt r { r with roster := q, log := r.log ++ r.gone q }
  | flush (r : TaskRun) : Step prompt r { r with roster := { r.roster with draining := true } }
  | drained {r : TaskRun} : r.current = none →
      (∀ i ∈ r.roster.pending, r.roster.scheduled i = false) →
      Step prompt r { r with roster := { r.roster with pending := [], draining := false } }
  | pop {r : TaskRun} {id : Nat} {rest : List Nat} : r.roster.draining = true → r.current = none →
      r.roster.scheduled id = true → r.roster.Leaves id rest →
      Step prompt r { r with
        roster := r.roster.unschedule id rest
        current := some (id, r.birth id)
        log := r.log ++ [.popped (r.birth id)] }
  | exhaust {r : TaskRun} {id : Nat} {rest : List Nat} : r.roster.draining = true →
      r.current = none → r.roster.scheduled id = true → r.roster.Leaves id rest →
      Step prompt r { r with
        roster := { r.roster.unschedule id rest with draining := false }
        log := r.log ++ [.popped (r.birth id), .dropped (r.birth id)] }
  | abandon {r : TaskRun} {id : Nat} : r.current = some (id, r.birth id) →
      r.roster.occupant id = some true → r.roster.scheduled id = false →
      Step prompt r { r with
        roster := { r.roster with draining := false }
        current := none
        log := r.log ++ [.dropped (r.birth id)] }
  | leave {r : TaskRun} : (∀ id, r.current = some (id, r.birth id) →
        r.roster.occupant id = some true → r.roster.scheduled id = true) →
      Step prompt r { r with roster := { r.roster with draining := false }, current := none }
  | unchanged {r : TaskRun} {id b : Nat} : r.current = some (id, b) →
      Step prompt r { r with current := none, log := r.log ++ [.unchanged b] }
  | start {r : TaskRun} {id b : Nat} {rest : List Nat} : r.current = some (id, b) →
      r.roster.occupant id = some true → r.roster.Leaves id rest →
      Step prompt r { r with
        roster := r.roster.unschedule id rest
        current := none
        log := r.log ++ [.started (r.birth id)] }
  | pass {r : TaskRun} {id b : Nat} : r.current = some (id, b) →
      r.roster.occupant id ≠ some true → Step prompt r { r with current := none }

/-- The flag of a slot says whether its occupant has been scheduled and not dealt with since. -/
structure Fits (prompt : Prop) (i : Nat) : Prop where
  flag : awaiting r.log (r.birth i) = r.roster.scheduled i
  settled : unsettled r.log (r.birth i) = true →
    r.roster.scheduled i = true ∨ lost r.log (r.birth i) = true ∨ r.current = some (i, r.birth i)
  dropped : lost r.log (r.birth i) = true → r.roster.scheduled i = false
  current : prompt → ∀ b, r.current = some (i, b) → owed r.log (r.birth i) = true

structure Inv (prompt : Prop) : Prop where
  ok : r.roster.Ok
  attended : r.roster.draining = false → r.current = none
  born : ∀ i, r.roster.occupant i ≠ none → r.birth i < r.births
  injective : ∀ i j, r.roster.occupant i ≠ none → r.roster.occupant j ≠ none →
    r.birth i = r.birth j → i = j
  task : ∀ i, r.roster.occupant i = some true → r.Fits prompt i
  gone : ∀ b, (∀ i, r.roster.occupant i = some true → r.birth i ≠ b) →
    awaiting r.log b = false ∧ unsettled r.log b = false
  history : Exact prompt r.log

variable {r' : TaskRun} {i : Nat} {prompt : Prop} {e : QueueEntry}

/-- A slot that a step is not about. -/
theorem Fits.frame {r : TaskRun} (h : r.Fits prompt i) (more : List QueueEntry)
    (hlog : r'.log = r.log ++ more) (hmore : ∀ e ∈ more, e.birth ≠ r.birth i)
    (hbirth : r'.birth i = r.birth i) (hs : r'.roster.scheduled i = r.roster.scheduled i)
    (hcur : r.current = some (i, r.birth i) → r'.current = some (i, r.birth i))
    (hcur' : ∀ b, r'.current = some (i, b) → r.current = some (i, b)) : r'.Fits prompt i := by
  obtain ⟨hawaiting, howed, hunsettled, hlost⟩ := log_frame r.log hmore
  constructor
  · rw [hbirth, hlog, hawaiting, hs]
    exact h.flag
  · rw [hbirth, hlog, hunsettled, hlost, hs]
    exact fun hu => (h.settled hu).imp_right (Or.imp_right hcur)
  · rw [hbirth, hlog, hlost, hs]
    exact h.dropped
  · rw [hbirth, hlog, howed]
    exact fun hp b hb => h.current hp b (hcur' b hb)

namespace Inv

theorem empty (prompt : Prop) : TaskRun.empty.Inv prompt where
  ok :=
    { live := fun i hi => absurd rfl hi
      free := fun i hi => absurd hi not_mem_nil
      nodup := nodup_nil
      task := fun i hi => absurd hi false_ne_true
      queued := fun i hi => absurd hi false_ne_true }
  attended _ := rfl
  born i hi := absurd rfl hi
  injective i _ hi := absurd rfl hi
  task i hi := by cases hi
  gone _ _ := ⟨rfl, rfl⟩
  history := ⟨fun before b h => by simp [TaskRun.empty] at h,
    fun _ before b h => by simp [TaskRun.empty] at h⟩

variable {r} {id : Nat}

theorem birth_ne (h : r.Inv prompt) (hid : r.roster.occupant id = some true) (i : Nat)
    (hi : r.roster.occupant i = some true) (hne : i ≠ id) : r.birth id ≠ r.birth i := fun hb =>
  hne (h.injective id i (by simp [hid]) (by simp [hi]) hb).symm

/-- Entries about a task in the store say nothing of those that are not. -/
theorem gone_append (h : r.Inv prompt) (hid : r.roster.occupant id = some true)
    (he : e.birth = r.birth id) (b : Nat)
    (hb : ∀ i, r.roster.occupant i = some true → r.birth i ≠ b) :
    awaiting (r.log ++ [e]) b = false ∧ unsettled (r.log ++ [e]) b = false := by
  have hmore : ∀ x ∈ [e], x.birth ≠ b := fun x hx => by
    rw [mem_singleton.1 hx, he]
    exact hb id hid
  obtain ⟨hawaiting, -, hunsettled, -⟩ := log_frame r.log hmore
  rw [hawaiting, hunsettled]
  exact h.gone b hb

/-! ### New nodes -/

section Created

variable {q : Roster} {log : List QueueEntry} {task : Bool}

theorem old (h : r.Inv prompt) (log : List QueueEntry) (task : Bool)
    (hq : q.occupant = (r.roster.insert id task).occupant) (hid : i ≠ id) :
    q.occupant i = r.roster.occupant i ∧ (r.created id q log).birth i = r.birth i ∧
      (r.roster.occupant i ≠ none → r.birth i < r.births) :=
  ⟨by simp [hq, Roster.insert, hid], by simp [created, hid], h.born i⟩

theorem insert (h : r.Inv prompt) (hid : id ∈ r.roster.reserved) (htask : prompt → task = false) :
    (r.created id (r.roster.insert id task) r.log).Inv prompt := by
  have hnew : (r.created id (r.roster.insert id task) r.log).birth id = r.births := by
    simp [created]
  have hold : ∀ {i}, i ≠ id → (r.roster.insert id task).occupant i ≠ none →
      (r.roster.insert id task).occupant i = r.roster.occupant i ∧
        (r.created id (r.roster.insert id task) r.log).birth i = r.birth i ∧
          r.birth i < r.births := fun hi' hi => by
    obtain ⟨hocc, hb, hlt⟩ := h.old r.log task rfl hi'
    exact ⟨hocc, hb, hlt (hocc ▸ hi)⟩
  obtain ⟨hnone, hoff⟩ := h.ok.vacant hid
  have hgone := h.gone r.births fun i hi => Nat.ne_of_lt (h.born i (by simp [hi]))
  refine ⟨h.ok.insert hid task, h.attended, fun i hi => ?_, fun i j hi hj hij => ?_,
    fun i hi => ?_, fun b hb => ?_, h.history⟩
  · by_cases hi' : i = id
    · simp [created, hi']
    · obtain ⟨-, hb, hlt⟩ := hold hi' hi
      rw [hb]
      exact lt_succ_of_lt hlt
  · by_cases hi' : i = id <;> by_cases hj' : j = id
    · rw [hi', hj']
    · obtain ⟨-, hb, hlt⟩ := hold hj' hj
      rw [hi', hnew, hb] at hij
      omega
    · obtain ⟨-, hb, hlt⟩ := hold hi' hi
      rw [hj', hnew, hb] at hij
      omega
    · obtain ⟨hocc, hb, -⟩ := hold hi' hi
      obtain ⟨hocc', hb', -⟩ := hold hj' hj
      exact h.injective i j (hocc ▸ hi) (hocc' ▸ hj) (by rw [← hb, hij, hb'])
  · by_cases hi' : i = id
    · subst hi'
      have htrue : task = true := by simpa [created, Roster.insert] using hi
      constructor
      · rw [hnew]
        exact hgone.1.trans hoff.symm
      · rw [hnew]
        exact fun hu => absurd (hgone.2.symm.trans hu) false_ne_true
      · exact fun _ => hoff
      · exact fun hp => absurd (htrue.symm.trans (htask hp)) Bool.noConfusion
    · obtain ⟨hocc, hb, -⟩ := hold hi' (ne_of_eq_of_ne hi (some_ne_none _))
      exact (h.task i (hocc ▸ hi)).frame [] (append_nil _).symm (by simp) hb rfl
        (fun hc => hc) fun _ hc => hc
  · refine h.gone b fun i hi hbirth => ?_
    have hi' : i ≠ id := fun hi' => by
      rw [hi', hnone] at hi
      cases hi
    obtain ⟨hocc, hb', -⟩ := h.old r.log task rfl hi'
    exact hb i (hocc.trans hi) (hb'.trans hbirth)

end Created

theorem schedule (h : r.Inv prompt) (htask : r.roster.occupant id = some true) : Inv { r with
      roster := r.roster.schedule id
      log := r.log ++ [.scheduled (r.birth id)] } prompt := by
  refine ⟨h.ok.schedule htask, fun hd => h.attended (Roster.draining_schedule ▸ hd), ?_, ?_, ?_, ?_,
    h.history.append (by simp) fun _ => by simp⟩
  all_goals simp only [Roster.occupant_schedule]
  · exact h.born
  · exact h.injective
  · intro i hi
    by_cases hid : i = id
    · subst hid
      constructor <;> simp
    · exact (h.task i hi).frame [_] rfl (by simpa using h.birth_ne htask i hi hid) rfl
        (by simp [hid]) (fun hc => hc) fun _ hc => hc
  · exact h.gone_append htask rfl

/-- A new task is scheduled at once: it is inserted as into any store, and then scheduled. -/
theorem insertTask (h : r.Inv prompt) (hid : id ∈ r.roster.reserved) :
    (r.created id ((r.roster.insert id true).schedule id)
      (r.log ++ [.scheduled r.births])).Inv prompt := by
  have hloose : r.Inv False := { h with
    task := fun i hi => { h.task i hi with current := False.elim }
    history := ⟨h.history.popped, False.elim⟩ }
  have hinsert : (r.created id (r.roster.insert id true) r.log).Inv False :=
    hloose.insert hid False.elim
  have hnew : (r.created id (r.roster.insert id true) r.log).birth id = r.births := by
    simp [created]
  have hafter := hinsert.schedule
    (show (r.roster.insert id true).occupant id = some true by simp [Roster.insert])
  rw [hnew] at hafter
  refine { hafter with
    task := fun i hi => { hafter.task i hi with current := fun hp b hcur => ?_ }
    history := h.history.append (by simp) fun _ => by simp }
  by_cases hi' : i = id
  · simp [created, hi']
  · have htask : (r.roster.insert id true).occupant i = some true := Roster.occupant_schedule ▸ hi
    obtain ⟨hocc, hb, hlt⟩ := h.old r.log true rfl hi'
    rw [htask] at hocc
    have hne : r.births ≠ r.birth i := ne_of_gt (hlt (by simp [← hocc]))
    simpa [created, hi', hne] using (h.task i hocc.symm).current hp b hcur

/-! ### Disposals -/

section Gone

variable {q : Roster} {o : QueueEntry} {ends : List QueueEntry} {b : Nat}

theorem mem_gone (h : r.Inv prompt) : e ∈ r.gone q ↔
    ∃ i, r.roster.occupant i ≠ none ∧ q.occupant i = none ∧ e = .disposed (r.birth i) := by
  simp only [TaskRun.gone, List.mem_map, mem_filter, mem_range, and_eq_true,
    isSome_iff_ne_none, isNone_iff_eq_none]
  constructor
  · rintro ⟨i, ⟨-, hlive, hdead⟩, rfl⟩
    exact ⟨i, hlive, hdead, rfl⟩
  · rintro ⟨i, hlive, hdead, rfl⟩
    exact ⟨i, ⟨h.ok.live i hlive, hlive, hdead⟩, rfl⟩

theorem eq_disposed_of_mem_gone (he : e ∈ r.gone q) : ∃ b, e = .disposed b := by
  obtain ⟨i, -, rfl⟩ := mem_map.1 he
  exact ⟨_, rfl⟩

/-- The entries of a disposal close the episodes of the nodes that went. -/
theorem since_gone_of_mem (ho : ∀ b', o ≠ .disposed b') (hends : .disposed b ∈ ends)
    (hb : .disposed b ∈ r.gone q) : since o ends (r.log ++ r.gone q) = false := by
  refine since_append_closed (fun e he => ?_) hb hends
  obtain ⟨b', rfl⟩ := eq_disposed_of_mem_gone he
  exact (ho b').symm

/-- What remains is as it was, and has none of the births that went. -/
theorem kept (h : r.Inv prompt) (hret : r.roster.Retired q) (hi : q.occupant i ≠ none) :
    ∀ e ∈ r.gone q, e.birth ≠ r.birth i := by
  rintro e he hb
  obtain ⟨j, hj, hdead, rfl⟩ := h.mem_gone.1 he
  have hij := h.injective i j (by rw [← hret.occupant i hi]; exact hi) hj hb.symm
  exact hi (hij ▸ hdead)

theorem retire (h : r.Inv prompt) (hret : r.roster.Retired q) :
    Inv { r with roster := q, log := r.log ++ r.gone q } prompt := by
  have hlive : ∀ i, q.occupant i ≠ none → r.roster.occupant i ≠ none := fun i hi => by
    rw [← hret.occupant i hi]
    exact hi
  refine ⟨hret.ok, fun hd => h.attended (hret.draining.symm.trans hd),
    fun i hi => h.born i (hlive i hi), fun i j hi hj => h.injective i j (hlive i hi) (hlive j hj),
    fun i hi => ?_, fun b hb => ?_, h.history.disposals fun _ => eq_disposed_of_mem_gone⟩
  · have hi' : q.occupant i ≠ none := by simp [show q.occupant i = some true from hi]
    exact (h.task i ((hret.occupant i hi').symm.trans hi)).frame (r.gone q) rfl (h.kept hret hi')
      rfl (hret.scheduled i hi') (fun hc => hc) fun _ hc => hc
  · by_cases hin : .disposed b ∈ r.gone q
    · exact ⟨since_gone_of_mem (by simp) (by simp) hin, since_gone_of_mem (by simp) (by simp) hin⟩
    · have hmore : ∀ e ∈ r.gone q, e.birth ≠ b := by
        rintro e he rfl
        obtain ⟨b, rfl⟩ := eq_disposed_of_mem_gone he
        exact hin he
      obtain ⟨hawaiting, -, hunsettled, -⟩ := log_frame r.log hmore
      rw [hawaiting, hunsettled]
      refine h.gone b fun i hi hbirth => ?_
      by_cases hdead : q.occupant i = none
      · exact hin (h.mem_gone.2 ⟨i, by simp [hi], hdead, by rw [hbirth]⟩)
      · exact hb i ((hret.occupant i hdead).trans hi) hbirth

end Gone

/-! ### Drains -/

section Drain

variable {b : Nat} {rest : List Nat} (h : r.Inv prompt)
include h

theorem pop (hdrain : r.roster.draining = true) (hcur : r.current = none)
    (hs : r.roster.scheduled id = true) (hrest : r.roster.Leaves id rest) :
    Inv { r with
      roster := r.roster.unschedule id rest
      current := some (id, r.birth id)
      log := r.log ++ [.popped (r.birth id)] } prompt := by
  have hid := h.ok.task id hs
  have hawait : awaiting r.log (r.birth id) = true := (h.task id hid).flag.trans hs
  refine ⟨h.ok.unschedule hrest, fun hd => absurd (hdrain.symm.trans hd) (by simp), h.born,
    h.injective, fun i hi => ?_, h.gone_append hid rfl,
    h.history.append (fun b hb => by rw [← QueueEntry.popped.inj hb]; exact hawait)
      fun _ => by simp⟩
  by_cases hi' : i = id
  · subst hi'
    constructor <;> simp [Roster.unschedule, owed_of_awaiting hawait]
  · exact (h.task i hi).frame [_] rfl (by simpa using h.birth_ne hid i hi hi') rfl
      (by simp [Roster.unschedule, hi']) (by simp [hcur]) (by simp [Ne.symm hi'])

/-- The drain gives the task up that it has just popped. -/
theorem exhaust (hcur : r.current = some (id, r.birth id))
    (hid : r.roster.occupant id = some true) (hs : r.roster.scheduled id = false) :
    Inv { r with
      roster := { r.roster with draining := false }
      current := none
      log := r.log ++ [.dropped (r.birth id)] } prompt := by
  have hok : Roster.Ok { r.roster with draining := false } :=
    ⟨h.ok.live, h.ok.free, h.ok.nodup, h.ok.task, h.ok.queued⟩
  refine ⟨hok, fun _ => rfl, h.born, h.injective, fun i hi => ?_, h.gone_append hid rfl,
    h.history.append (by simp) fun _ => by simp⟩
  by_cases hi' : i = id
  · subst hi'
    constructor <;> simp [hs, (h.task i hi).flag]
  · exact (h.task i hi).frame [_] rfl (by simpa using h.birth_ne hid i hi hi') rfl rfl
      (by simp [hcur, Ne.symm hi']) (by simp)

/-- A run of the occupant of the slot of the popped task starts. -/
theorem start (hcur : r.current = some (id, b))
    (hid : r.roster.occupant id = some true) (hrest : r.roster.Leaves id rest) :
    Inv { r with
      roster := r.roster.unschedule id rest
      current := none
      log := r.log ++ [.started (r.birth id)] } prompt := by
  refine ⟨h.ok.unschedule hrest, fun _ => rfl, h.born, h.injective, fun i hi => ?_,
    h.gone_append hid rfl, h.history.append (by simp) fun hp b' hb => ?_⟩
  · by_cases hi' : i = id
    · subst hi'
      constructor <;> simp [Roster.unschedule]
    · exact (h.task i hi).frame [_] rfl (by simpa using h.birth_ne hid i hi hi') rfl
        (by simp [Roster.unschedule, hi']) (by simp [hcur, Ne.symm hi']) (by simp)
  · rw [← QueueEntry.started.inj hb]
    exact (h.task id hid).current hp b hcur

theorem unchanged (hcur : r.current = some (id, b)) :
    Inv { r with current := none, log := r.log ++ [.unchanged b] } prompt := by
  refine ⟨h.ok, fun _ => rfl, h.born, h.injective, fun i hi => ?_, fun b' hb => ?_,
    h.history.append (by simp) fun _ => by simp⟩
  · by_cases hb : b = r.birth i
    · constructor <;> simp [hb, (h.task i hi).flag]
      exact (h.task i hi).dropped
    · exact (h.task i hi).frame [_] rfl (by simpa using hb) rfl rfl
        (fun hc => by simp [hcur, hb] at hc) (by simp)
  · simp [h.gone b' hb]

/-- The popped task is gone, or in the queue again. -/
theorem pass {draining : Bool}
    (hcur : ∀ id, r.current = some (id, r.birth id) → r.roster.occupant id = some true →
      r.roster.scheduled id = true) :
    Inv { r with roster := { r.roster with draining := draining }, current := none } prompt := by
  refine ⟨⟨h.ok.live, h.ok.free, h.ok.nodup, h.ok.task, h.ok.queued⟩, fun _ => rfl, h.born,
    h.injective, fun i hi => ?_, h.gone, h.history⟩
  have hfits := h.task i hi
  refine ⟨hfits.flag, fun hu => ?_, hfits.dropped, fun _ b hcurrent => by cases hcurrent⟩
  rcases hfits.settled hu with hs | hl | hc
  · exact .inl hs
  · exact .inr (.inl hl)
  · exact .inl (hcur i hc hi)

end Drain

theorem step (h : r.Inv prompt) (hstep : Step prompt r r') : r'.Inv prompt := by
  cases hstep with
  | alloc => exact { h with ok := h.ok.alloc, task := fun i hi => { h.task i hi with } }
  | insert hid htask => exact h.insert hid htask
  | insertTask hid => exact h.insertTask hid
  | schedule htask => exact h.schedule htask
  | retire hret => exact h.retire (hret.retired h.ok)
  | flush =>
    exact ⟨⟨h.ok.live, h.ok.free, h.ok.nodup, h.ok.task, h.ok.queued⟩, (fun hd => by cases hd),
      h.born, h.injective, fun i hi => { h.task i hi with }, h.gone, h.history⟩
  | drained hcur hempty =>
    have hqueued : ∀ i, r.roster.scheduled i = true → i ∈ ([] : List Nat) := fun i hi =>
      absurd ((hempty i (h.ok.queued i hi)).symm.trans hi) false_ne_true
    exact ⟨⟨h.ok.live, h.ok.free, h.ok.nodup, h.ok.task, hqueued⟩, fun _ => hcur, h.born,
      h.injective, fun i hi => { h.task i hi with }, h.gone, h.history⟩
  | pop hdrain hcur hs hrest => exact h.pop hdrain hcur hs hrest
  | exhaust hdrain hcur hs hrest =>
    have hgiven := (h.pop hdrain hcur hs hrest).exhaust rfl (h.ok.task _ hs)
      (by simp [Roster.unschedule])
    simpa [hcur] using hgiven
  | abandon hcur hid hs => exact h.exhaust hcur hid hs
  | leave hcur => exact h.pass hcur
  | unchanged hcur => exact h.unchanged hcur
  | start hcur hid hrest => exact h.start hcur hid hrest
  | pass hcur hid =>
    refine h.pass fun id' hcur' hid' => absurd hid' ?_
    rw [hcur] at hcur'
    obtain ⟨rfl, -⟩ := Prod.mk.inj (some.inj hcur')
    exact hid

theorem steps (h : r.Inv prompt) (hsteps : Relation.ReflTransGen (Step prompt) r r') :
    r'.Inv prompt := by
  induction hsteps with
  | refl => exact h
  | tail _ hstep ih => exact ih.step hstep

end Inv

def Pending (b : Nat) : Prop :=
  ∃ i, r.roster.occupant i = some true ∧ r.birth i = b ∧ r.roster.scheduled i = true ∧
    i ∈ r.roster.pending

variable {r} {prompt : Prop}

/-- Between drains a task that is not settled is in the queue, unless a drain has given it up. -/
theorem Inv.pending_iff (h : r.Inv prompt) (hdrain : r.roster.draining = false) {b : Nat}
    (hb : unsettled r.log b = true) : r.Pending b ↔ lost r.log b = false := by
  constructor
  · rintro ⟨i, hi, rfl, hon, -⟩
    by_contra hlost
    rw [(h.task i hi).dropped (by simpa using hlost)] at hon
    cases hon
  · intro hlost
    obtain ⟨i, hi, rfl⟩ : ∃ i, r.roster.occupant i = some true ∧ r.birth i = b := by
      by_contra hnone
      rw [(h.gone b fun i hi hbirth => hnone ⟨i, hi, hbirth⟩).2] at hb
      cases hb
    rcases (h.task i hi).settled hb with hon | hl | hc
    · exact ⟨i, hi, rfl, hon, h.ok.queued i hon⟩
    · rw [hlost] at hl
      cases hl
    · rw [h.attended hdrain] at hc
      cases hc

/-- Once no flag is set, no episode is open. -/
theorem Inv.closed (h : r.Inv prompt) (hoff : ∀ i ∈ r.roster.pending, r.roster.scheduled i = false)
    (b : Nat) : awaiting r.log b = false := by
  by_cases hb : ∃ i, r.roster.occupant i = some true ∧ r.birth i = b
  · obtain ⟨i, hi, rfl⟩ := hb
    rw [(h.task i hi).flag]
    by_contra hon
    rw [not_eq_false] at hon
    rw [hoff i (h.ok.queued i hon)] at hon
    cases hon
  · exact (h.gone b fun i hi hbirth => hb ⟨i, hi, hbirth⟩).1

end TaskRun

end Lazily.Lib
