import Lazily.Durable.LatestProjection
import Lazily.Lib.Reach

/-!
# The newest desire is never lost

`newest_desire_kept`: in every run the accepted revision of the highest epoch of a key is pending,
in flight with its value, or durable. `Tracks` is the invariant of one entry against what the
callers saw of its key; each transition of an entry keeps it.
-/

namespace Lazily.Durable

open Lib LatestDurableProjectionCore List Nat
open scoped SortedSet

variable {K V : Type}

def LatestDurableEnvelope.revision (envelope : LatestDurableEnvelope K V) :
    LatestDurableRevision V :=
  ⟨envelope.epoch, envelope.value⟩

namespace Entry

/-- The revision is the one at hand, or older. -/
def Upto (a current : LatestDurableRevision V) : Prop := a = current ∨ a.epoch < current.epoch

/-- The invariant of an entry: what it retains was accepted, in ascending order durable, in flight,
desired; every accepted revision is durable or not newer than a retained one. -/
structure Tracks (accepted : List (LatestDurableRevision V))
    (outstanding : List (LatestDurableEnvelope K V)) (acked : List Nat) (e : Entry K V) : Prop where
  desiredAccepted : ∀ d, e.desired = some d → d ∈ accepted
  inflightAccepted : ∀ f, e.inflight = some f → f.revision ∈ accepted
  below : ∀ d f, e.desired = some d → e.inflight = some f → f.epoch < d.epoch
  desiredFresh : ∀ d t, e.desired = some d → e.durableThrough = some t → t < d.epoch
  inflightFresh : ∀ f t, e.inflight = some f → e.durableThrough = some t → t < f.epoch
  kept : ∀ a ∈ accepted, (∃ t, e.durableThrough = some t ∧ a.epoch ≤ t) ∨
    (∃ d, e.desired = some d ∧ Upto a d) ∨ ∃ f, e.inflight = some f ∧ Upto a f.revision
  outstandingEq : outstanding = e.inflight.toList
  durableEq : e.durableThrough = acked.max?

variable {accepted : List (LatestDurableRevision V)}
  {outstanding : List (LatestDurableEnvelope K V)} {acked : List Nat} {e : Entry K V}

theorem tracks_default : Tracks (K := K) (V := V) [] [] [] .default where
  desiredAccepted d h := by cases h
  inflightAccepted f h := by cases h
  below d f h := by cases h
  desiredFresh d t h := by cases h
  inflightFresh f t h := by cases h
  kept a h := by cases h
  outstandingEq := rfl
  durableEq := rfl

namespace Tracks

variable (h : Tracks accepted outstanding acked e)
include h

/-- A desire newer than everything retained and durable. -/
theorem upsert {revision : LatestDurableRevision V}
    (hnewest : ∀ n, e.newest = some n → n.epoch < revision.epoch)
    (hdurable : ∀ t, e.durableThrough = some t → t < revision.epoch) :
    Tracks (accepted ++ [revision]) outstanding acked { e with desired := some revision } := by
  have hdesired : ∀ d, e.desired = some d → d.epoch < revision.epoch := by
    intro d hd
    cases hf : e.inflight with
    | none => exact hnewest d (by simp [newest, hd, hf])
    | some f =>
      refine hnewest d ?_
      simp [newest, hd, hf, h.below d f hd hf]
  have hinflight : ∀ f, e.inflight = some f → f.epoch < revision.epoch := by
    intro f hf
    cases hd : e.desired with
    | none => exact hnewest f.revision (by simp [newest, hd, hf, LatestDurableEnvelope.revision])
    | some d => exact (h.below d f hd hf).trans (hdesired d hd)
  refine ⟨?_, fun f hf => mem_append_left _ (h.inflightAccepted f hf), ?_, ?_, h.inflightFresh,
    fun a ha => ?_, h.outstandingEq, h.durableEq⟩
  · rintro d ⟨⟩
    exact mem_append_right _ (mem_singleton.2 rfl)
  · rintro d f ⟨⟩ hf
    exact hinflight f hf
  · rintro d t ⟨⟩ ht
    exact hdurable t ht
  · rcases mem_append.1 ha with ha | ha
    · rcases h.kept a ha with hdur | ⟨d, hd, rfl | hlt⟩ | hfl
      · exact .inl hdur
      · exact .inr (.inl ⟨revision, rfl, .inr (hdesired a hd)⟩)
      · exact .inr (.inl ⟨revision, rfl, .inr (hlt.trans (hdesired d hd))⟩)
      · exact .inr (.inr hfl)
    · exact .inr (.inl ⟨revision, rfl, .inl (mem_singleton.1 ha)⟩)

theorem claim {d : LatestDurableRevision V}
    (hd : e.desired = some d) (hfree : e.inflight = none) (generation : Nat) (key : K) :
    let envelope : LatestDurableEnvelope K V := ⟨generation, key, d.epoch, d.value⟩
    Tracks accepted (outstanding ++ [envelope]) acked
      { e with desired := none, inflight := some envelope } := by
  intro envelope
  refine ⟨by simp, ?_, by simp, by simp, ?_, fun a ha => ?_, ?_, h.durableEq⟩
  · rintro f ⟨⟩
    exact h.desiredAccepted d hd
  · rintro f t ⟨⟩ ht
    exact h.desiredFresh d t hd ht
  · rcases h.kept a ha with hdur | ⟨d', hd', hup⟩ | ⟨f, hf, -⟩
    · exact .inl hdur
    · rw [hd] at hd'
      cases hd'
      exact .inr (.inr ⟨envelope, rfl, hup⟩)
    · rw [hfree] at hf
      cases hf
  · rw [h.outstandingEq, hfree]
    rfl

variable {f : LatestDurableEnvelope K V} {key : K}

theorem settled (hf : e.inflight = some f) : outstanding.filter (·.epoch ≠ f.epoch) = [] := by
  rw [h.outstandingEq, hf]
  simp

theorem ack (hf : e.inflight = some f) :
    Tracks accepted (outstanding.filter (·.epoch ≠ f.epoch)) (f.epoch :: acked)
      { e with inflight := none
               durableThrough := some (e.durableThrough.elim f.epoch (max · f.epoch)) } := by
  have hmax : e.durableThrough.elim f.epoch (max · f.epoch) = f.epoch := by
    cases ht : e.durableThrough with
    | none => rfl
    | some t => exact max_eq_right (le_of_lt (h.inflightFresh f t hf ht))
  rw [hmax]
  refine ⟨h.desiredAccepted, by simp, by simp, ?_, by simp, fun a ha => ?_, ?_, ?_⟩
  · rintro d t hd ⟨⟩
    exact h.below d f hd hf
  · rcases h.kept a ha with ⟨t, ht, hle⟩ | hdes | ⟨f', hf', hup⟩
    · exact .inl ⟨f.epoch, rfl, hle.trans (le_of_lt (h.inflightFresh f t hf ht))⟩
    · exact .inr (.inl hdes)
    · rw [hf] at hf'
      cases hf'
      refine .inl ⟨f.epoch, rfl, ?_⟩
      rcases hup with rfl | hlt
      · exact le_refl _
      · exact le_of_lt hlt
  · rw [h.settled hf]
    rfl
  · rw [max?_cons, ← h.durableEq]
    cases ht : e.durableThrough with
    | none => rfl
    | some t => exact congrArg some (max_eq_left (le_of_lt (h.inflightFresh f t hf ht))).symm

/-- What is in flight is desired again, or a newer desire stands. -/
theorem release (hf : e.inflight = some f) : Tracks accepted [] acked (e.release f) := by
  cases hd : e.desired with
  | none =>
    have heq : e.release f = { e with inflight := none, desired := some f.revision } := by
      simp [Entry.release, supersedes, hd, LatestDurableEnvelope.revision]
    rw [heq]
    refine ⟨?_, by simp, by simp, ?_, by simp, fun a ha => ?_, rfl, h.durableEq⟩
    · rintro d ⟨⟩
      exact h.inflightAccepted f hf
    · rintro d t ⟨⟩ ht
      exact h.inflightFresh f t hf ht
    · rcases h.kept a ha with hdur | ⟨d, hd', -⟩ | ⟨f', hf', hup⟩
      · exact .inl hdur
      · rw [hd] at hd'
        cases hd'
      · rw [hf] at hf'
        cases hf'
        exact .inr (.inl ⟨f.revision, rfl, hup⟩)
  | some d =>
    have hlt := h.below d f hd hf
    have heq : e.release f = { e with inflight := none } := by
      simp [Entry.release, supersedes, hd, hlt]
    rw [heq]
    refine ⟨h.desiredAccepted, by simp, by simp, h.desiredFresh, by simp, fun a ha => ?_, rfl,
      h.durableEq⟩
    rcases h.kept a ha with hdur | hdes | ⟨f', hf', hup⟩
    · exact .inl hdur
    · exact .inr (.inl hdes)
    · rw [hf] at hf'
      cases hf'
      refine .inr (.inl ⟨d, hd, .inr ?_⟩)
      rcases hup with rfl | hlt'
      · exact hlt
      · exact hlt'.trans hlt

theorem reconnected : Tracks accepted [] acked e.reconnected := by
  unfold Entry.reconnected
  cases hf : e.inflight with
  | none => exact { h with outstandingEq := by rw [hf]; rfl }
  | some f => exact h.release hf

end Tracks

end Entry

/-! ## The transitions -/

namespace LatestDurableProjectionCore

variable [LinearOrder K] (c : LatestDurableProjectionCore K V) {key : K}

theorem entry_setEntry (key k : K) (e : Entry K V) :
    (c.setEntry key e).entry k = if key = k then e else c.entry k := by
  unfold entry setEntry
  rw [SortedMap.get_insert]
  split <;> rfl

theorem entry_of_get {e : Entry K V} (h : c.keys[key]? = some e) : c.entry key = e := by
  rw [entry, h]
  rfl

theorem upsertDesired_cases [BEq V] (key : K) (epoch : Nat) (value : V) :
    ((c.upsertDesired key epoch value).1 = c ∧ (c.upsertDesired key epoch value).2.2 ≠ .accepted) ∨
    ((c.upsertDesired key epoch value).1 =
        c.setEntry key { c.entry key with desired := some ⟨epoch, value⟩ } ∧
      (c.upsertDesired key epoch value).2.2 = .accepted ∧
      (∀ n, (c.entry key).newest = some n → n.epoch < epoch) ∧
      ∀ t, (c.entry key).durableThrough = some t → t < epoch) := by
  unfold upsertDesired
  simp only
  cases hn : (c.entry key).newest with
  | none =>
    cases ht : (c.entry key).durableThrough with
    | none => exact .inr ⟨rfl, rfl, by simp, by simp⟩
    | some t =>
      by_cases hle : epoch ≤ t
      · exact .inl (by simp [hle])
      · exact .inr ⟨by simp [hle], by simp [hle], by simp, by simpa using hle⟩
  | some n =>
    by_cases hnew : n.epoch < epoch
    · have hlt : ¬epoch < n.epoch := by omega
      have hne : epoch ≠ n.epoch := by omega
      cases ht : (c.entry key).durableThrough with
      | none => exact .inr ⟨by simp [hlt, hne], by simp [hlt, hne], by simpa using hnew, by simp⟩
      | some t =>
        by_cases hle : epoch ≤ t
        · exact .inl (by simp [hle])
        · exact .inr ⟨by simp [hle, hlt, hne], by simp [hle, hlt, hne], by simpa using hnew,
            by simpa using hle⟩
    · refine .inl ?_
      have hold : epoch < n.epoch ∨ epoch = n.epoch := by omega
      rcases hold with hlt | rfl
      · cases (c.entry key).durableThrough with
        | none => simp [hlt]
        | some t => by_cases hle : epoch ≤ t <;> simp [hle, hlt]
      · cases (c.entry key).durableThrough with
        | none => by_cases hv : value == n.value <;> simp [hv]
        | some t =>
          by_cases hle : n.epoch ≤ t <;> by_cases hv : value == n.value <;> simp [hle, hv]

theorem claim_cases (key : K) (generation : Nat) :
    ((c.claim key generation).1 = c ∧ ∀ f, (c.claim key generation).2.2 ≠ .claimed f) ∨
    ∃ d, (c.entry key).desired = some d ∧ (c.entry key).inflight = none ∧
      let envelope : LatestDurableEnvelope K V := ⟨generation, key, d.epoch, d.value⟩
      (c.claim key generation).1 = c.setEntry key
          { c.entry key with desired := none, inflight := some envelope } ∧
        (c.claim key generation).2.2 = .claimed envelope := by
  unfold claim
  split
  · exact .inl ⟨rfl, by simp⟩
  · cases hk : c.keys[key]? with
    | none => exact .inl ⟨rfl, by simp⟩
    | some e =>
      have he := c.entry_of_get hk
      simp only
      split
      · exact .inl ⟨rfl, by simp⟩
      · rename_i hfree
        cases hd : e.desired with
        | none => exact .inl ⟨rfl, by simp⟩
        | some d =>
          refine .inr ⟨d, by rw [he, hd], ?_, by rw [he], rfl⟩
          rw [he]
          simpa using hfree

theorem inflight_of_concerns {generation epoch : Nat}
    (h : ProjectionHistory.concerns c key generation epoch = true) :
    generation = c.generation ∧
      ∃ e f, c.keys[key]? = some e ∧ c.entry key = e ∧ e.inflight = some f ∧ f.epoch = epoch := by
  simp only [ProjectionHistory.concerns, entry, Bool.and_eq_true, decide_eq_true_eq] at h
  cases hk : c.keys[key]? with
  | none => simp [hk, Entry.default] at h
  | some e =>
    cases hf : e.inflight with
    | none => simp [hk, hf] at h
    | some f => exact ⟨h.1, e, f, rfl, c.entry_of_get hk, hf, by simpa [hk, hf] using h.2⟩

theorem ackApplied_cases (key : K) (generation epoch : Nat) :
    (ProjectionHistory.concerns c key generation epoch = false ∧
      (c.ackApplied key generation epoch).1 = c) ∨
    (ProjectionHistory.concerns c key generation epoch = true ∧
      ∃ f, (c.entry key).inflight = some f ∧ f.epoch = epoch ∧
        (c.ackApplied key generation epoch).1 = c.setEntry key { c.entry key with
          inflight := none
          durableThrough := some ((c.entry key).durableThrough.elim epoch (max · epoch)) }) := by
  cases hin : ProjectionHistory.concerns c key generation epoch with
  | true =>
    obtain ⟨rfl, e, f, hk, he, hf, rfl⟩ := c.inflight_of_concerns hin
    exact .inr ⟨rfl, f, he ▸ hf, rfl, by simp [ackApplied, hk, he, hf]⟩
  | false =>
    refine .inl ⟨rfl, ?_⟩
    unfold ackApplied
    split
    · rfl
    · rename_i hg
      cases hk : c.keys[key]? with
      | none => rfl
      | some e =>
        simp only [ProjectionHistory.concerns, not_not.1 hg, c.entry_of_get hk] at hin
        cases hf : e.inflight <;> simp_all

theorem failRetryable_cases (key : K) (generation epoch : Nat) :
    (ProjectionHistory.concerns c key generation epoch = false ∧
      (c.failRetryable key generation epoch).1 = c) ∨
    (ProjectionHistory.concerns c key generation epoch = true ∧
      ∃ f, (c.entry key).inflight = some f ∧ f.epoch = epoch ∧
        (c.failRetryable key generation epoch).1 = c.setEntry key ((c.entry key).release f)) := by
  cases hin : ProjectionHistory.concerns c key generation epoch with
  | true =>
    obtain ⟨rfl, e, f, hk, he, hf, rfl⟩ := c.inflight_of_concerns hin
    exact .inr ⟨rfl, f, he ▸ hf, rfl, by simp [failRetryable, hk, he, hf]⟩
  | false =>
    refine .inl ⟨rfl, ?_⟩
    unfold failRetryable
    split
    · rfl
    · rename_i hg
      cases hk : c.keys[key]? with
      | none => rfl
      | some e =>
        simp only [ProjectionHistory.concerns, not_not.1 hg, c.entry_of_get hk] at hin
        cases hf : e.inflight <;> simp_all

theorem reconnect_cases (newGeneration : Nat) :
    (¬ c.generation < newGeneration ∧ (c.reconnect newGeneration).1 = c) ∨
    (c.generation < newGeneration ∧
      ∀ key, (c.reconnect newGeneration).1.entry key = (c.entry key).reconnected) := by
  unfold reconnect
  split
  · exact .inl ⟨by omega, rfl⟩
  · split
    · exact .inl ⟨by omega, rfl⟩
    · refine .inr ⟨by omega, fun key => ?_⟩
      simp only [entry, Std.ExtTreeMap.getElem?_map]
      cases c.keys[key]? <;> rfl

end LatestDurableProjectionCore

/-! ## Runs -/

namespace ProjectionHistory

open Entry

variable [LinearOrder K] {h : ProjectionHistory K V} {key : K}

/-- Every entry tracks what was seen of its key. -/
def Inv (h : ProjectionHistory K V) : Prop :=
  ∀ key, Tracks (h.accepted key) (h.outstanding key) (h.acked key) (h.core.entry key)

theorem inv_start (generation : Nat) : (start generation : ProjectionHistory K V).Inv := by
  intro key
  have hentry : (start generation : ProjectionHistory K V).core.entry key = .default := by
    simp [start, new, entry]
  rw [hentry]
  exact tracks_default

/-- A step that writes one entry keeps the invariant if that entry tracks its key. -/
theorem Inv.write (hi : h.Inv) (key : K) {h' : ProjectionHistory K V} {e : Entry K V}
    (hcore : h'.core = h.core.setEntry key e)
    (haccepted : ∀ k, k ≠ key → h'.accepted k = h.accepted k)
    (houtstanding : ∀ k, k ≠ key → h'.outstanding k = h.outstanding k)
    (hacked : ∀ k, k ≠ key → h'.acked k = h.acked k)
    (htracks : Tracks (h'.accepted key) (h'.outstanding key) (h'.acked key) e) : h'.Inv := by
  intro k
  rw [hcore, entry_setEntry]
  split
  · rename_i heq
    exact heq ▸ htracks
  · rename_i hne
    rw [haccepted k (Ne.symm hne), houtstanding k (Ne.symm hne), hacked k (Ne.symm hne)]
    exact hi k

/-- What is claimed of a state: the accepted revision of the highest epoch is desired, in flight or
durable; at most one envelope is outstanding, the one in flight, below any desire; the sink is
durable through the highest epoch that was acknowledged in flight. -/
structure Kept (h : ProjectionHistory K V) : Prop where
  newest : ∀ key, ∀ a ∈ h.accepted key, (∀ b ∈ h.accepted key, b.epoch ≤ a.epoch) →
    (h.core.entry key).desired = some a ∨
      (∃ f, (h.core.entry key).inflight = some f ∧ f.revision = a) ∨
        ∃ t, (h.core.entry key).durableThrough = some t ∧ a.epoch ≤ t
  single : ∀ key, (h.outstanding key).length ≤ 1 ∧
    h.outstanding key = (h.core.entry key).inflight.toList
  below : ∀ key d f, (h.core.entry key).desired = some d → (h.core.entry key).inflight = some f →
    f.epoch < d.epoch
  durable : ∀ key, (h.core.entry key).durableThrough = (h.acked key).max?

theorem Inv.kept (hi : h.Inv) : h.Kept where
  newest key a ha hmax := by
    rcases (hi key).kept a ha with hdur | ⟨d, hd, rfl | hlt⟩ | ⟨f, hf, rfl | hlt⟩
    · exact .inr (.inr hdur)
    · exact .inl hd
    · exact absurd (hmax d ((hi key).desiredAccepted d hd)) (by omega)
    · exact .inr (.inl ⟨f, hf, rfl⟩)
    · exact absurd (hmax _ ((hi key).inflightAccepted f hf)) (by omega)
  single key := by
    refine ⟨?_, (hi key).outstandingEq⟩
    rw [(hi key).outstandingEq]
    cases (h.core.entry key).inflight <;> simp
  below key d f := (hi key).below d f
  durable key := (hi key).durableEq

variable [BEq V]

theorem Inv.step (hi : h.Inv) (op : ProjectionOp K V) : (h.step op).Inv := by
  cases op with
  | upsertDesired key epoch value =>
    rcases h.core.upsertDesired_cases key epoch value with
      ⟨hc, hout⟩ | ⟨hc, hout, hnewest, hdurable⟩
    · intro k
      simp only [ProjectionHistory.step, hc, if_neg hout]
      exact hi k
    · refine hi.write key hc ?_ (fun _ _ => rfl) (fun _ _ => rfl) ?_
      · intro k hk
        simp [ProjectionHistory.step, hout, hk]
      · simpa [ProjectionHistory.step, hout] using (hi key).upsert hnewest hdurable
  | claim key generation =>
    rcases h.core.claim_cases key generation with ⟨hc, hout⟩ | ⟨d, hd, hfree, hc, hout⟩
    · intro k
      have hsame : (h.step (.claim key generation)).outstanding = h.outstanding := by
        simp only [ProjectionHistory.step]
      rw [hsame]
      simp only [ProjectionHistory.step, hc]
      exact hi k
    · refine hi.write key hc (fun _ _ => rfl) ?_ (fun _ _ => rfl) ?_
      · intro k hk
        simp [ProjectionHistory.step, hout, hk]
      · simpa [ProjectionHistory.step, hout] using (hi key).claim hd hfree generation key
  | ackApplied key generation epoch =>
    rcases h.core.ackApplied_cases key generation epoch with ⟨hin, hc⟩ | ⟨hin, f, hf, rfl, hc⟩
    · intro k
      simpa [ProjectionHistory.step, hin, hc] using hi k
    · simp only [ProjectionHistory.step, hin, if_pos]
      refine hi.write key hc (fun _ _ => rfl) (fun _ hk => ?_) (fun _ hk => ?_) ?_
      · simp [settle, hk]
      · simp [hk]
      · simpa [settle] using (hi key).ack hf
  | failRetryable key generation epoch =>
    rcases h.core.failRetryable_cases key generation epoch with ⟨hin, hc⟩ | ⟨hin, f, hf, rfl, hc⟩
    · intro k
      simpa [ProjectionHistory.step, hin, hc] using hi k
    · simp only [ProjectionHistory.step, hin, if_pos]
      refine hi.write key hc (fun _ _ => rfl) (fun _ hk => ?_) (fun _ _ => rfl) ?_
      · simp [settle, hk]
      · have htracks : Tracks (h.accepted key) ((h.outstanding key).filter (·.epoch ≠ f.epoch))
            (h.acked key) ((h.core.entry key).release f) := by
          rw [(hi key).settled hf]
          exact (hi key).release hf
        simpa [settle] using htracks
  | reconnect generation =>
    rcases h.core.reconnect_cases generation with ⟨hin, hc⟩ | ⟨hin, hentry⟩
    · intro k
      simpa [ProjectionHistory.step, hin, hc] using hi k
    · intro k
      simp only [ProjectionHistory.step, hin, if_pos, hentry]
      exact (hi k).reconnected

theorem inv_run (generation : Nat) (ops : List (ProjectionOp K V)) :
    ((start generation).run ops).Inv :=
  foldl_invariant (inv_start generation) fun _ op hi => hi.step op

/-- The call carries a generation the sink no longer has. -/
def Stale (h : ProjectionHistory K V) : ProjectionOp K V → Prop
  | .upsertDesired _ _ _ => False
  | .claim _ generation => generation ≠ h.core.generation
  | .ackApplied _ generation _ => generation ≠ h.core.generation
  | .failRetryable _ generation _ => generation ≠ h.core.generation
  | .reconnect generation => generation < h.core.generation

theorem step_of_stale {op : ProjectionOp K V} (hs : h.Stale op) : h.step op = h := by
  cases op with
  | upsertDesired key epoch value => exact hs.elim
  | claim key generation | ackApplied key generation epoch | failRetryable key generation epoch =>
    simp only [Stale] at hs
    simp [step, claim, ackApplied, failRetryable, concerns, hs]
  | reconnect generation =>
    simp only [Stale] at hs
    simp [step, reconnect, hs, Nat.not_lt_of_gt hs]

/-- An epoch is only ever added to those acknowledged. -/
theorem mem_acked_step {t : Nat} (ht : t ∈ h.acked key) (op : ProjectionOp K V) :
    t ∈ (h.step op).acked key := by
  cases op with
  | upsertDesired _ _ _ | claim _ _ | reconnect _ => exact ht
  | failRetryable _ _ _ =>
    simp only [step]
    split <;> exact ht
  | ackApplied key' generation epoch =>
    simp only [step]
    split
    · by_cases hk : key = key'
      · subst hk
        simpa using .inr ht
      · simpa [hk] using ht
    · exact ht

theorem Inv.durable_mono (hi : h.Inv) (op : ProjectionOp K V) {t : Nat}
    (ht : (h.core.entry key).durableThrough = some t) :
    ∃ t', ((h.step op).core.entry key).durableThrough = some t' ∧ t ≤ t' := by
  rw [(hi key).durableEq, max?_eq_some_iff] at ht
  have hmem := mem_acked_step ht.1 op
  rw [((hi.step op) key).durableEq]
  cases hmax : ((h.step op).acked key).max? with
  | none =>
    rw [max?_eq_none_iff] at hmax
    rw [hmax] at hmem
    cases hmem
  | some t' => exact ⟨t', rfl, (max?_eq_some_iff.1 hmax).2 t hmem⟩

end ProjectionHistory

open ProjectionHistory in
/-- **The newest desire is never lost.** In every run, from any generation, and with every step: the
sink stays durable through what it was durable through, and a call with a stale generation changes
nothing. -/
theorem newest_desire_kept [LinearOrder K] [BEq V] (generation : Nat)
    (ops : List (ProjectionOp K V)) :
    let h := (start generation : ProjectionHistory K V).run ops
    h.Kept ∧ ∀ op,
      (∀ key t, (h.core.entry key).durableThrough = some t →
        ∃ t', ((h.step op).core.entry key).durableThrough = some t' ∧ t ≤ t') ∧
      (h.Stale op → h.step op = h) := by
  intro h
  have hi : h.Inv := inv_run generation ops
  exact ⟨hi.kept, fun op => ⟨fun _ _ => hi.durable_mono op, step_of_stale⟩⟩

end Lazily.Durable
