import Lazily.Bridge.Hub
import Lazily.Lib.Reach
import Mathlib.Data.List.Chain
import Mathlib.Data.List.Perm.Subperm

/-!
# Failing channels at the hub

A poll drains, bumps epochs and fans out in phases joined by early returns. A failed receive drops
what the poll has drained; a failed send drops what is left to hand on, and the epoch it was stamped
with is spent (`failure_drops_write_and_epoch`). Where neither happens every write reaches every
reader, and the deltas each sink takes form one chain of epochs: `isolated_run`, from what a poll
hands out (`routed_jobs`) and what it keeps of earlier polls (`flow_poll`).
-/

namespace Lazily.Bridge

open Ipc Lib List PollState Function Prod Bool Drained Bridge

def readableBy (hub : BridgeHub) (j : Nat) (op : DeltaOp) : Bool :=
  (grants hub.attachments j).any fun g => op.readable g.2 g.1

/-! ## The deltas of a poll -/

/-- A delta to be made: for writes of one attachment, to another. -/
structure Job where
  source : Nat
  ops : List DeltaOp
  target : Nat

/-- Another attachment may see one of the writes. -/
def wanted (hub : BridgeHub) (w : Nat × List DeltaOp) (j : Nat) : Bool :=
  decide (j ≠ w.1) && w.2.any (readableBy hub j)

/-- The deltas owed for what was drained, in the order they are handed out. -/
def jobs (hub : BridgeHub) (writes : List (Nat × List DeltaOp)) : List Job :=
  writes.flatMap fun w =>
    ((List.range hub.attachments.length).filter (wanted hub w)).map (Job.mk w.1 w.2)

def PollState.hand (env : Transports) (st : PollState) (job : Job) : PollState :=
  st.handDelta env job.source job.ops job.target

variable {hub : BridgeHub} {env : Transports} {st : PollState}
variable {j i : Nat} {job : Job} {past : List Sent} {owed : Nat → List DeltaOp}

section

variable (hgrants : grants st.attachments = grants hub.attachments)
include hgrants

theorem readableBy_eq {att : HubAttachment} (hatt : st.attachments[j]? = some att) (op : DeltaOp) :
    readableBy hub j op = op.readable att.perms att.peer := by
  unfold readableBy
  rw [← hgrants, grants, hatt]
  rfl

omit hgrants in
theorem grants_handDelta (env : Transports) (st : PollState) (source : Nat) (ops : List DeltaOp)
    (j : Nat) : grants (st.handDelta env source ops j).attachments = grants st.attachments := by
  rcases handDelta_cases env source ops st j with heq | ⟨att, hatt, -, heq⟩
  · rw [heq]
  · rw [heq, send_attachments]
    exact grants_set _ hatt

theorem handDelta_unwanted
    {w : Nat × List DeltaOp} (hnot : wanted hub w j = false) : st.handDelta env w.1 w.2 j = st := by
  unfold handDelta
  split
  · rename_i att _ hatt
    split
    · rfl
    · rename_i hne
      have hnone : w.2.filter (·.readable att.perms att.peer) = [] := by
        rw [filter_eq_nil_iff]
        intro op hop hreadable
        rw [← readableBy_eq hgrants hatt] at hreadable
        have hwanted : wanted hub w j = true := by
          simp only [wanted, hne, ne_eq, not_false_eq_true, decide_true, Bool.true_and, any_eq_true]
          exact ⟨op, hop, hreadable⟩
        rw [hnot] at hwanted
        cases hwanted
      simp only [Delta.filterReadable, hnone, isEmpty_nil, if_true]
  · rfl

/-- A wanted delta, when its send goes through. -/
theorem hand_wanted
    (herror : st.error = none) (hwanted : wanted hub (job.source, job.ops) job.target)
    (hsend : env.sendFails st.sent.length = none) :
    ∃ att, st.attachments[job.target]? = some att ∧
      st.hand env job =
        { attachments := st.attachments.set job.target { att with outEpoch := att.outEpoch + 1 }
          sent := st.sent ++ [⟨job.source, job.target, .delta ⟨att.outEpoch, att.outEpoch + 1,
            job.ops.filter (readableBy hub job.target)⟩, true⟩]
          routed := st.routed + 1
          error := none } := by
  simp only [wanted, and_eq_true, decide_eq_true_eq, any_eq_true] at hwanted
  obtain ⟨hne, op, hop, hreadable⟩ := hwanted
  cases hatt : st.attachments[job.target]? with
  | none =>
    rw [readableBy, ← hgrants, grants, hatt] at hreadable
    cases hreadable
  | some att =>
    have hfilter : job.ops.filter (·.readable att.perms att.peer) =
        job.ops.filter (readableBy hub job.target) :=
      filter_congr fun op _ => (readableBy_eq hgrants hatt op).symm
    have hsome : (job.ops.filter (readableBy hub job.target)).isEmpty = false := by
      rw [isEmpty_eq_false_iff]
      exact ne_nil_of_mem (mem_filter.2 ⟨hop, hreadable⟩)
    refine ⟨att, rfl, ?_⟩
    simp only [hand, handDelta, herror, hatt, hne, if_false,
      Delta.filterReadable, hfilter, hsome, false_eq_true, send, hsend]

end

/-- The loops of the fan-out go through the deltas that are wanted. -/
theorem foldl_targets (env : Transports) (w : Nat × List DeltaOp) (targets : List Nat) :
    ∀ st : PollState, grants st.attachments = grants hub.attachments →
      targets.foldl (handDelta env w.1 w.2) st =
        ((targets.filter (wanted hub w)).map (Job.mk w.1 w.2)).foldl (hand env) st ∧
      grants (targets.foldl (handDelta env w.1 w.2) st).attachments = grants hub.attachments := by
  induction targets with
  | nil => exact fun st hgrants => ⟨rfl, hgrants⟩
  | cons j targets ih =>
    intro st hgrants
    have hgrants' := (grants_handDelta env st w.1 w.2 j).trans hgrants
    obtain ⟨heq, hend⟩ := ih _ hgrants'
    refine ⟨?_, hend⟩
    rw [foldl_cons, heq, filter_cons]
    split
    · rfl
    · rename_i hnot
      rw [handDelta_unwanted hgrants (by simpa using hnot)]

theorem foldl_writes (writes : List (Nat × List DeltaOp)) :
    ∀ st : PollState, grants st.attachments = grants hub.attachments → writes.foldl (fun st w =>
        (range hub.attachments.length).foldl (.handDelta env w.1 w.2) st) st =
      (jobs hub writes).foldl (hand env) st := by
  induction writes with
  | nil => exact fun _ _ => rfl
  | cons w writes ih =>
    intro st hgrants
    obtain ⟨heq, hend⟩ := foldl_targets env w (range hub.attachments.length) st hgrants
    rw [foldl_cons, ih _ hend, heq, jobs, jobs, flatMap_cons, foldl_append]

/-! ## What a poll drains -/

/-- The writes attachment `i` yields that its peer may make, one list for each message with any. -/
def writesOf (hub : BridgeHub) (env : Transports) (i : Nat) : List (List DeltaOp) :=
  match hub.attachments[i]? with
  | some att => ((env.inbound i).map (authorizeInbound att.peer att.perms)).filter (!·.isEmpty)
  | none => []

/-- The writes that come in, with the attachments they come from. -/
def arrivals (hub : BridgeHub) (env : Transports) : List (Nat × List DeltaOp) :=
  ((List.range hub.attachments.length).filter (polled hub env)).flatMap fun i =>
    (writesOf hub env i).map (Prod.mk i)

theorem take_spec (i : Nat) (att : HubAttachment) (d : Drained) (message : IpcMessage) :
    (d.take i att message).writes = d.writes ++
      (([message].map (authorizeInbound att.peer att.perms)).filter (!·.isEmpty)).map (mk i) ∧
    (d.take i att message).error = d.error := by
  unfold Drained.take
  split
  · simp [authorizeInbound]
  · simp only [map_cons, map_nil, filter_cons]
    split <;> rename_i hempty <;> simp [hempty]

theorem foldl_take_spec (i : Nat) (att : HubAttachment) (messages : List IpcMessage) :
    ∀ d : Drained, (messages.foldl (take i att) d).writes = d.writes ++
      ((messages.map (authorizeInbound att.peer att.perms)).filter (!·.isEmpty)).map (mk i) ∧
    (messages.foldl (take i att) d).error = d.error := by
  induction messages with
  | nil => exact fun d => ⟨by simp, rfl⟩
  | cons message messages ih =>
    intro d
    obtain ⟨hwrites, herror⟩ := ih (d.take i att message)
    obtain ⟨hwrites', herror'⟩ := take_spec i att d message
    refine ⟨?_, herror.trans herror'⟩
    rw [foldl_cons, hwrites, hwrites', append_assoc, ← map_append,
      ← filter_append, ← map_append, singleton_append]

theorem polled_eq (hub : BridgeHub) (env : Transports) (i : Nat) : polled hub env i = true ↔
    i < hub.attachments.length ∧ ∀ k < i, env.recvFails k = none := by
  simp [polled]

theorem drainFrom_spec (hub : BridgeHub) (env : Transports) :
    ∀ rest i d, rest = hub.attachments.drop i → (∀ k < i, env.recvFails k = none) → d.error = none →
      (drainFrom env i rest d).writes = d.writes ++
        ((range' i rest.length).filter (polled hub env)).flatMap (fun i =>
          (writesOf hub env i).map (mk i)) ∧ ((drainFrom env i rest d).error = none ↔
        ∀ k, i ≤ k → k < hub.attachments.length → env.recvFails k = none)
  | [], i, d, hrest, _, herror => by
    have hlen : hub.attachments.length ≤ i := drop_eq_nil_iff.1 hrest.symm
    refine ⟨by simp [drainFrom], ⟨fun _ k hk hk' => ?_, fun _ => herror⟩⟩
    omega
  | att :: rest, i, d, hrest, hbefore, herror => by
    have hatt : hub.attachments[i]? = some att := by
      rw [← head?_drop, ← hrest, head?_cons]
    have hlen := (List.getElem?_eq_some_iff.1 hatt).1
    have hpolled : polled hub env i = true := (polled_eq hub env i).2 ⟨hlen, hbefore⟩
    have hwritesOf : writesOf hub env i =
        ((env.inbound i).map (authorizeInbound att.peer att.perms)).filter (!·.isEmpty) := by
      rw [writesOf, hatt]
    obtain ⟨htaken, htaken'⟩ := foldl_take_spec i att (env.inbound i) d
    rw [length_cons, range'_succ, filter_cons_of_pos hpolled, flatMap_cons,
      hwritesOf, ← append_assoc, ← htaken]
    unfold drainFrom
    simp only
    cases hfails : env.recvFails i with
    | some error =>
      -- no source after this one is polled
      have hnone : (range' (i + 1) rest.length).filter (polled hub env) = [] := by
        rw [filter_eq_nil_iff]
        intro k hk hpolled
        rw [mem_range'_1] at hk
        rw [((polled_eq hub env k).1 hpolled).2 i hk.1] at hfails
        cases hfails
      refine ⟨by rw [hnone, flatMap_nil, append_nil], ?_⟩
      simp only [reduceCtorEq, false_iff, not_forall]
      exact ⟨i, le_rfl, hlen, by simp [hfails]⟩
    | none =>
      obtain ⟨hwrites, hiff⟩ := drainFrom_spec hub env rest (i + 1)
        ((env.inbound i).foldl (take i att) d)
        (by rw [← tail_drop, ← hrest, tail_cons])
        (fun k hk => by
          rcases Nat.lt_succ_iff_lt_or_eq.1 hk with hk | rfl
          · exact hbefore k hk
          · exact hfails)
        (htaken'.trans herror)
      refine ⟨hwrites, hiff.trans ⟨fun h k hk hk' => ?_, fun h k hk => h k (by omega)⟩⟩
      rcases Nat.eq_or_lt_of_le hk with rfl | hk
      · exact hfails
      · exact h k hk hk'

theorem drain_writes (hub : BridgeHub) (env : Transports) :
    (hub.drain env).writes = arrivals hub env := by
  obtain ⟨h, -⟩ := drainFrom_spec hub env hub.attachments 0 ⟨[], [], none⟩ rfl (by simp) rfl
  rw [← range_eq_range', nil_append] at h
  exact h

theorem drain_error (hub : BridgeHub) (env : Transports) :
    (hub.drain env).error = none ↔ ∀ k < hub.attachments.length, env.recvFails k = none := by
  obtain ⟨-, h⟩ := drainFrom_spec hub env hub.attachments 0 ⟨[], [], none⟩ rfl (by simp) rfl
  simpa [BridgeHub.drain] using h

/-! ## What the deltas carry -/

/-- The operations of the deltas made for attachment `j` from what attachment `i` yielded. -/
def handedTo (sent : List Sent) (i j : Nat) : List DeltaOp :=
  (sent.filter fun s => s.source == i && s.target == j).flatMap fun s =>
    match s.message with
    | .delta delta => delta.ops
    | _ => []

def acceptedBy (sent : List Sent) (j : Nat) : List Delta :=
  (sent.filter fun s => s.target == j && s.accepted).filterMap fun s =>
    match s.message with
    | .delta delta => some delta
    | _ => none

def writesFrom (writes : List (Nat × List DeltaOp)) (i : Nat) : List DeltaOp :=
  (writes.filter (·.1 == i)).flatMap (·.2)

/-- What the jobs hand from one attachment to another. -/
def carried (hub : BridgeHub) (js : List Job) (i j : Nat) : List DeltaOp :=
  (js.filter fun job => job.source == i && job.target == j).flatMap fun job =>
    job.ops.filter (readableBy hub j)

theorem handedTo_append (sent sent' : List Sent) (i j : Nat) :
    handedTo (sent ++ sent') i j = handedTo sent i j ++ handedTo sent' i j := by
  rw [handedTo, filter_append, flatMap_append]
  rfl

theorem acceptedBy_append (sent sent' : List Sent) (j : Nat) :
    acceptedBy (sent ++ sent') j = acceptedBy sent j ++ acceptedBy sent' j := by
  rw [acceptedBy, filter_append, filterMap_append]
  rfl

theorem carried_append (hub : BridgeHub) (js js' : List Job) (i j : Nat) :
    carried hub (js ++ js') i j = carried hub js i j ++ carried hub js' i j := by
  rw [carried, filter_append, flatMap_append]
  rfl

theorem writesFrom_append (writes writes' : List (Nat × List DeltaOp)) (i : Nat) :
    writesFrom (writes ++ writes') i = writesFrom writes i ++ writesFrom writes' i := by
  rw [writesFrom, filter_append, flatMap_append]
  rfl

/-- The jobs for one batch of writes carry to each other attachment what it may see of them. -/
theorem carried_targets (hub : BridgeHub) (w : Nat × List DeltaOp) (hne : j ≠ i) :
    carried hub (((range hub.attachments.length).filter (wanted hub w)).map
      (Job.mk w.1 w.2)) i j = (writesFrom [w] i).filter (readableBy hub j) := by
  rw [carried, filter_map, flatMap_map, filter_filter]
  by_cases hi : w.1 = i
  · have hself : writesFrom [w] i = w.2 := by simp [writesFrom, hi]
    rw [hself]
    cases hwanted : wanted hub w j with
    | true =>
      obtain ⟨op, -, hreadable⟩ : ∃ op ∈ w.2, readableBy hub j op = true := by
        rw [wanted, and_eq_true, any_eq_true] at hwanted
        exact hwanted.2
      have hlen : j < hub.attachments.length := by
        rcases Nat.lt_or_ge j hub.attachments.length with h | h
        · exact h
        · rw [readableBy, grants, getElem?_eq_none h] at hreadable
          cases hreadable
      have honly : (range hub.attachments.length).filter
          (fun k => (w.1 == i && k == j) && wanted hub w k) = [j] := by
        rw [filter_congr (q := (· == j)), filter_beq, nodup_range.count, if_pos (mem_range.2 hlen)]
        · rfl
        · intro k _
          by_cases hk : k = j <;> simp [hk, hi, hwanted]
      simp only [comp_def]
      rw [honly, flatMap_singleton]
    | false =>
      have hnone : (range hub.attachments.length).filter
          (fun k => (w.1 == i && k == j) && wanted hub w k) = [] := by
        rw [filter_eq_nil_iff]
        intro k _ hk
        simp only [and_eq_true, beq_iff_eq] at hk
        rw [hk.1.2, hwanted] at hk
        cases hk.2
      simp only [comp_def]
      rw [hnone, flatMap_nil, eq_comm, filter_eq_nil_iff]
      intro op hop hreadable
      have : wanted hub w j = true := by
        simp only [wanted, hi, ne_eq, hne, not_false_eq_true, decide_true, Bool.true_and,
          any_eq_true]
        exact ⟨op, hop, hreadable⟩
      rw [hwanted] at this
      cases this
  · have hother : writesFrom [w] i = [] := by simp [writesFrom, hi]
    have hnone : (range hub.attachments.length).filter
        (fun k => (w.1 == i && k == j) && wanted hub w k) = [] := by
      simp [hi]
    simp only [comp_def]
    rw [hother, hnone]
    rfl

theorem carried_jobs (hub : BridgeHub) (writes : List (Nat × List DeltaOp)) (hne : j ≠ i) :
    carried hub (jobs hub writes) i j = (writesFrom writes i).filter (readableBy hub j) := by
  induction writes with
  | nil => rfl
  | cons w writes ih =>
    rw [jobs, flatMap_cons, carried_append, carried_targets hub w hne, ← jobs, ih,
      ← filter_append, ← writesFrom_append, singleton_append]

/-! ## Epoch chains -/

def Gapless (deltas : List Delta) : Prop := deltas.IsChain fun d d' => d'.baseEpoch = d.epoch

instance (deltas : List Delta) : Decidable (Gapless deltas) :=
  inferInstanceAs (Decidable (List.IsChain _ _))

/-- The deltas each sink took are gapless, and end at the epoch of its attachment. -/
structure Linked (sent : List Sent) (attachments : List HubAttachment) : Prop where
  gapless : ∀ j, Gapless (acceptedBy sent j)
  last : ∀ j, ∀ d ∈ (acceptedBy sent j).getLast?, attachments[j]?.map (·.outEpoch) = some d.epoch

theorem Linked.accept {sent : List Sent} {attachments : List HubAttachment}
    (hl : Linked sent attachments) {source target : Nat} {att : HubAttachment}
    (hatt : attachments[target]? = some att) (ops : List DeltaOp) :
    Linked (sent ++ [⟨source, target, .delta ⟨att.outEpoch, att.outEpoch + 1, ops⟩, true⟩])
      (attachments.set target { att with outEpoch := att.outEpoch + 1 }) := by
  have hlen := (List.getElem?_eq_some_iff.1 hatt).1
  have htarget : acceptedBy [⟨source, target, .delta ⟨att.outEpoch, att.outEpoch + 1, ops⟩, true⟩]
      target = [⟨att.outEpoch, att.outEpoch + 1, ops⟩] := by
    simp [acceptedBy]
  have hother : ∀ j, target ≠ j → acceptedBy
      [⟨source, target, .delta ⟨att.outEpoch, att.outEpoch + 1, ops⟩, true⟩] j = [] := by
    intro j hj
    simp [acceptedBy, hj]
  constructor
  · intro j
    rw [acceptedBy_append]
    by_cases hj : target = j
    · subst hj
      rw [htarget, Gapless, isChain_append]
      refine ⟨hl.gapless target, isChain_singleton _, fun d hd d' hd' => ?_⟩
      cases hd'
      have hlast := hl.last target d hd
      rw [hatt] at hlast
      exact Option.some.inj hlast
    · rw [hother j hj, append_nil]
      exact hl.gapless j
  · intro j d hd
    rw [acceptedBy_append] at hd
    by_cases hj : target = j
    · subst hj
      rw [htarget, getLast?_concat] at hd
      cases hd
      rw [getElem?_set_self hlen]
      rfl
    · rw [hother j hj, append_nil] at hd
      rw [getElem?_set_ne hj]
      exact hl.last j d hd

/-! ## A poll nothing disturbs -/

/-- With `js` handed out: each went through, and the epochs are in step. -/
structure Routed (hub : BridgeHub) (past : List Sent) (js : List Job) (st : PollState) : Prop where
  grants : Bridge.grants st.attachments = Bridge.grants hub.attachments
  error : st.error = none
  count : st.sent.length = js.length
  handed : ∀ i j, handedTo st.sent i j = carried hub js i j
  linked : Linked (past ++ st.sent) st.attachments

theorem Routed.hand {js : List Job} (hr : Routed hub past js st)
    (hwanted : wanted hub (job.source, job.ops) job.target)
    (hsend : env.sendFails js.length = none) : Routed hub past (js ++ [job]) (st.hand env job) := by
  rw [← hr.count] at hsend
  obtain ⟨att, hatt, heq⟩ := hand_wanted hr.grants hr.error hwanted hsend
  rw [heq]
  refine ⟨(grants_set _ hatt).trans hr.grants, rfl, by simp [hr.count], fun i j => ?_, ?_⟩
  · rw [handedTo_append, hr.handed, carried_append]
    congr 1
    by_cases hj : job.source = i ∧ job.target = j
    · obtain ⟨rfl, rfl⟩ := hj
      simp [handedTo, carried]
    · have hnot : (job.source == i && job.target == j) = false := by
        rw [← not_eq_true, and_eq_true, beq_iff_eq, beq_iff_eq]
        exact hj
      simp only [handedTo, carried, filter_cons, hnot, false_eq_true, if_false,
        filter_nil, flatMap_nil]
  · rw [← append_assoc]
    exact hr.linked.accept hatt _

theorem routed_jobs (hl : Linked past hub.attachments) (js : List Job)
    (hwanted : ∀ job ∈ js, wanted hub (job.source, job.ops) job.target)
    (hsend : ∀ k < js.length, env.sendFails k = none) :
    Routed hub past js (js.foldl (hand env) ⟨hub.attachments, [], 0, none⟩) := by
  induction js using reverseRecOn with
  | nil => exact ⟨rfl, rfl, rfl, fun _ _ => rfl, by simpa using hl⟩
  | append_singleton js job ih =>
    rw [foldl_concat]
    rw [length_append] at hsend
    refine (ih (fun job' hjob => hwanted job' (mem_append_left _ hjob))
      fun k hk => hsend k (by omega)).hand (hwanted job (by simp)) (hsend _ (by simp))

theorem wanted_of_mem_jobs {writes : List (Nat × List DeltaOp)} (h : job ∈ jobs hub writes) :
    wanted hub (job.source, job.ops) job.target := by
  obtain ⟨w, -, hjob⟩ := mem_flatMap.1 h
  obtain ⟨j, hj, rfl⟩ := mem_map.1 hjob
  exact (mem_filter.1 hj).2

/-- What the attachments have been handed is what they may see of what is owed, and the epochs are
in step. -/
structure Flow (hub : BridgeHub) (owed : Nat → List DeltaOp) (sent : List Sent)
    (attachments : List HubAttachment) : Prop where
  grants : Bridge.grants attachments = Bridge.grants hub.attachments
  handed : ∀ i j, j ≠ i → handedTo sent i j = (owed i).filter (readableBy hub j)
  linked : Linked sent attachments

/-- A message other than a delta changes nothing of it, whether the sink takes it or not. -/
theorem Flow.handSync
    (hf : Flow hub owed (past ++ st.sent) st.attachments) (source : Nat) (sync : CrdtSync)
    (j : Nat) : Flow hub owed (past ++ (st.handSync env source sync j).sent)
      (st.handSync env source sync j).attachments := by
  rcases handSync_cases env source sync st j with heq | ⟨att, -, -, heq⟩
  · rw [heq]
    exact hf
  · rw [heq, send_sent, send_attachments, ← append_assoc]
    have hnone : ∀ i k, handedTo [⟨source, j, .crdtSync (sync.filterReadable att.perms att.peer),
        (env.sendFails st.sent.length).isNone⟩] i k = [] := by
      intro i k
      simp only [handedTo, filter_cons]
      split <;> rfl
    have hnone' : ∀ k, acceptedBy [⟨source, j, .crdtSync (sync.filterReadable att.perms att.peer),
        (env.sendFails st.sent.length).isNone⟩] k = [] := by
      intro k
      simp only [acceptedBy, filter_cons]
      split <;> rfl
    refine ⟨hf.grants, fun i k hne => ?_, ⟨fun k => ?_, fun k => ?_⟩⟩
    · rw [handedTo_append, hnone, append_nil]
      exact hf.handed i k hne
    · rw [acceptedBy_append, hnone', append_nil]
      exact hf.linked.gapless k
    · rw [acceptedBy_append, hnone', append_nil]
      exact hf.linked.last k

/-- No delta of the poll is lost: where a receive fails no other attachment may see what was drained
before, and no send of a delta fails. Sends of sync frames may. -/
def Undisturbed (hub : BridgeHub) (env : Transports) : Prop :=
  if ∀ k < hub.attachments.length, env.recvFails k = none then
    ∀ k < (jobs hub (arrivals hub env)).length, env.sendFails k = none
  else jobs hub (arrivals hub env) = []

instance (hub : BridgeHub) (env : Transports) : Decidable (Undisturbed hub env) :=
  inferInstanceAs (Decidable (ite _ _ _))

theorem flow_poll (hf : Flow hub owed past hub.attachments) (hok : Undisturbed hub env) :
    Flow hub (fun i => owed i ++ writesFrom (arrivals hub env) i) (past ++ (hub.poll env).2.1)
      (hub.poll env).1.attachments := by
  unfold Undisturbed at hok
  unfold BridgeHub.poll
  simp only
  split at hok
  · rename_i hrecv
    rw [(drain_error hub env).2 hrecv]
    have hrouted := routed_jobs hf.linked _ (fun _ hjob => wanted_of_mem_jobs hjob) hok
    rw [← foldl_writes _ _ rfl, ← drain_writes] at hrouted
    -- the deltas first, then the sync frames, which change nothing
    refine foldl_handed (I := fun st => Flow hub _ (past ++ st.sent) st.attachments)
      (fun s : Nat × CrdtSync => .handSync env s.1 s.2) _ _ _
      (fun s _ j _ st hst => hst.handSync s.1 s.2 j) ⟨hrouted.grants, fun i j hne => ?_,
        hrouted.linked⟩
    rw [handedTo_append, hf.handed i j hne, hrouted.handed, drain_writes, carried_jobs hub _ hne,
      filter_append]
  · rename_i hrecv
    have hfails : (hub.drain env).error ≠ none := fun h => hrecv ((drain_error hub env).1 h)
    obtain ⟨error, herror⟩ := Option.ne_none_iff_exists'.1 hfails
    rw [herror]
    simp only [append_nil]
    refine ⟨hf.grants, fun i j hne => ?_, hf.linked⟩
    rw [hf.handed i j hne, filter_append, ← carried_jobs hub _ hne, hok]
    exact (append_nil _).symm

/-! ## Runs -/

/-- A run of polls. Observation only: what was drained, what was handed to sinks, and whether the
last poll returned a count. -/
structure RouteHistory where
  hub : BridgeHub
  drained : Nat → List DeltaOp
  sent : List Sent
  ok : Bool

namespace RouteHistory

def start (attachments : List HubAttachment) : RouteHistory :=
  ⟨⟨attachments⟩, fun _ => [], [], true⟩

def step (h : RouteHistory) (env : Transports) : RouteHistory :=
  let polled := h.hub.poll env
  ⟨polled.1, fun i => h.drained i ++ writesFrom (arrivals h.hub env) i, h.sent ++ polled.2.1,
    polled.2.2.isOk⟩

def run (h : RouteHistory) (envs : List Transports) : RouteHistory := envs.foldl step h

/-- After a poll that returned a count every write drained has been handed to every attachment that
may read it, other than its own, and that no send to has failed. -/
def HandedOn (h : RouteHistory) : Prop :=
  h.ok = true → ∀ i j, j ≠ i → (∀ s ∈ h.sent, s.target = j → s.accepted = true) →
    ((h.drained i).filter (readableBy h.hub j)).Subperm (handedTo h.sent i j)

def Chained (h : RouteHistory) : Prop := ∀ j, Gapless (acceptedBy h.sent j)

theorem flow_step {h : RouteHistory} (hf : Flow h.hub h.drained h.sent h.hub.attachments)
    {env : Transports} (hok : Undisturbed h.hub env) :
    Flow (h.step env).hub (h.step env).drained (h.step env).sent (h.step env).hub.attachments := by
  have hnext := flow_poll hf hok
  refine ⟨rfl, fun i j hne => ?_, hnext.linked⟩
  have hreadable : readableBy (h.step env).hub j = readableBy h.hub j := by
    unfold readableBy
    rw [← hnext.grants]
    rfl
  rw [hreadable]
  exact hnext.handed i j hne

/-- **Error isolation**, in every run where no failure hits a delta: every write is handed on, and
the epochs each sink sees are gapless. -/
theorem isolated_run (attachments : List HubAttachment) (envs : List Transports)
    (hok : Allowed step (fun h => Undisturbed h.hub) (start attachments) envs) :
    ((start attachments).run envs).HandedOn ∧ ((start attachments).run envs).Chained := by
  have hstart : Flow (start attachments).hub (start attachments).drained (start attachments).sent
      (start attachments).hub.attachments :=
    ⟨rfl, fun _ _ _ => rfl, ⟨fun _ => isChain_nil, fun _ d hd => by cases hd⟩⟩
  have hflow := hok.invariant
    (I := fun h => Flow h.hub h.drained h.sent h.hub.attachments) hstart
    fun _ _ hf he => flow_step hf he
  refine ⟨fun _ i j hne _ => ?_, hflow.linked.gapless⟩
  rw [run, hflow.handed i j hne]

end RouteHistory

/-- A receive fails with nothing drained. Then a write passes, and sending a sync frame to the first
of two readers fails; the poll after that returns a count, and both writes have been handed on. -/
theorem isolated_run_sync_fails :
    let write (b : Byte) : DeltaOp := .cellSet 1 (.inline [b])
    let sync : CrdtSync := ⟨[], [⟨1, none, ⟨7, 0, 1⟩, .inline [42]⟩]⟩
    let envs : List Transports :=
      [{ yields [] with recvFails := fun i => if i = 0 then some "closed" else none },
        { yields [.delta ⟨0, 1, [write 7]⟩, .crdtSync sync] with
          sendFails := fun k => if k = 2 then some "closed" else none },
        yields [.delta ⟨1, 2, [write 8]⟩]]
    let h := (RouteHistory.start [grant 1 [1] [1], grant 2 [1] [], grant 3 [1] []]).run envs
    h.ok = true ∧ h.drained 0 = [write 7, write 8] ∧ h.sent =
        [⟨0, 1, .delta ⟨0, 1, [write 7]⟩, true⟩, ⟨0, 2, .delta ⟨0, 1, [write 7]⟩, true⟩,
          ⟨0, 1, .crdtSync sync, false⟩, ⟨0, 1, .delta ⟨1, 2, [write 8]⟩, true⟩,
          ⟨0, 2, .delta ⟨1, 2, [write 8]⟩, true⟩] ∧
      h.HandedOn ∧ h.Chained := by
  intro write sync envs h
  exact ⟨by decide +kernel, by decide +kernel, by decide +kernel,
    RouteHistory.isolated_run _ _ (by decide +kernel)⟩

/-- A write drained before the receive from attachment 1 fails is gone: the next poll returns a
count, and has handed nothing on. And a failed send spends its epoch: the sink takes the deltas
`0 → 1` and `2 → 3`. -/
theorem failure_drops_write_and_epoch :
    let write : DeltaOp := .cellSet 1 (.inline [7])
    let writes := yields [.delta ⟨0, 1, [write]⟩]
    let start := RouteHistory.start [grant 1 [1] [1], grant 2 [1] []]
    let lost := start.run
      [{ writes with recvFails := fun i => if i = 1 then some "closed" else none }, yields []]
    let gap := start.run
      [writes, { writes with sendFails := fun k => if k = 0 then some "closed" else none }, writes]
    (lost.ok = true ∧ lost.drained 0 = [write] ∧ lost.sent = [] ∧ ¬lost.HandedOn) ∧
      acceptedBy gap.sent 1 = [⟨0, 1, [write]⟩, ⟨2, 3, [write]⟩] ∧ ¬gap.Chained := by
  intro write writes start lost gap
  have hok : lost.ok = true := by decide +kernel
  have hdrained : lost.drained 0 = [write] := by decide +kernel
  have hsent : lost.sent = [] := by decide +kernel
  have haccepted : acceptedBy gap.sent 1 = [⟨0, 1, [write]⟩, ⟨2, 3, [write]⟩] := by decide +kernel
  refine ⟨⟨hok, hdrained, hsent, fun hhanded => ?_⟩, haccepted, fun hchained => ?_⟩
  · have hsub := hhanded hok 0 1 (by decide) (by rw [hsent]; simp)
    have hreadable : [write].filter (readableBy lost.hub 1) = [write] := by decide +kernel
    rw [hdrained, hreadable, hsent] at hsub
    exact absurd hsub.length_le (by decide)
  · have hgapless := hchained 1
    rw [haccepted] at hgapless
    revert hgapless
    decide

end Lazily.Bridge
