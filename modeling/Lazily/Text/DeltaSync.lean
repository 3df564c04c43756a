import Lazily.Text.Network

/-!
# Deltas and whole states

`delta_is_merge`: a delta against any vector a replica has had, computed of any state of another,
makes of the replica what merging that state makes of it. Once the edits have stopped, two replicas
that have received such a delta of every replica with content are the same.
-/

namespace Lazily.Text

open Lib TextCrdt List TextNet
open Crdt (OpId)
open scoped SortedSet

namespace TextNet

variable {net : TextNet} {a b : Nat} {f : Fact}

theorem Inv.applyDelta_elems (hi : net.Inv) {source old : TextCrdt} (hsource : net.Had source)
    (hold : old ∈ net.past b) {ops : List TextOp}
    (hperm : ops.Perm (source.deltaSince old.versionVector)) :
    ((net.replicas b).applyDelta ops).1.elems = ((net.replicas b).merge source).1.elems := by
  obtain ⟨content, hall⟩ := hi.content
  have hdelta := hi.carries_deltaSince hsource hold
  have hops : Carries (net.replicas b) source ops := by
    refine ⟨fun op hin => hdelta.only op (hperm.mem_iff.1 hin), fun f hf => ?_⟩
    rcases hdelta.all f hf with hf | ⟨op, hin, hf⟩
    · exact .inl hf
    · exact .inr ⟨op, hperm.mem_iff.2 hin, hf⟩
  rw [applyDelta_fst]
  refine elems_eq_of_covers fun f => ?_
  have hb := hall _ (hi.had b)
  rw [hops.covers_iff hb (hall _ hsource)]
  exact ((carries_toOps _ source).covers_iff hb (hall _ hsource)).symm

/-! ## After the edits -/

/-- Sends, deliveries and losses. -/
def Exchange : TextEvent → Prop
  | .edit _ _ | .fork _ _ => False
  | .sendState _ | .sendDelta _ _ _ | .deliver _ _ | .lose _ => True

/-- In the run `es` from `net`, `b` receives a delta of a state that `a` has in it. -/
def Receives (net : TextNet) (es : List TextEvent) (b a : Nat) : Prop :=
  ∃ pre mid index vector, pre ++ [.deliver b index] <+: es ∧ mid <+: pre ∧
    (net.run pre).parcels[index]? = some (.delta b ((net.run mid).replicas a) vector)

/-- `b` has received of every replica with content. -/
def UpToDate (net : TextNet) (es : List TextEvent) (b : Nat) : Prop :=
  ∀ c, (net.replicas c).elems ≠ ∅ → c = b ∨ net.Receives es b c

variable {t : TextCrdt} {p : Nat}

theorem mem_past_step (e : TextEvent) (h : t ∈ net.past p) : t ∈ (net.step e).past p := by
  cases e with
  | edit q e => exact mem_past_move.2 (.inl h)
  | fork p q =>
    simp only [step]
    split
    · exact mem_past_move.2 (.inl h)
    · exact h
  | sendState a => exact h
  | sendDelta a b index =>
    simp only [step]
    split <;> exact h
  | deliver b index =>
    simp only [step]
    split
    · exact mem_past_move.2 (.inl h)
    · exact h
  | lose index => exact h

theorem mem_past_run (es : List TextEvent) (h : t ∈ net.past p) : t ∈ (net.run es).past p :=
  foldl_invariant (I := fun net : TextNet => t ∈ net.past p) h fun _ e h => mem_past_step e h

section

variable (hi : net.Inv)
include hi

theorem Inv.covers_run (es : List TextEvent) (h : (net.replicas b).Covers f) :
    ((net.run es).replicas b).Covers f :=
  (hi.run es).grown b _ (mem_past_run es (hi.current b)) f h

variable {parcel : Parcel}

omit hi in
theorem Sent.had (h : net.Sent parcel) : net.Had parcel.source := by
  cases parcel with
  | state source => exact h
  | delta addressee source vector => exact h.1

/-- What a parcel leads to covers what the replica and the state in it cover, no more. -/
theorem Inv.receive_covers (hsent : net.Sent parcel)
    (h : (TextNet.receive b (net.replicas b) parcel).Covers f) :
    (net.replicas b).Covers f ∨ parcel.source.Covers f := by
  obtain ⟨content, hall⟩ := hi.content
  have hb := hall _ (hi.had b)
  cases parcel with
  | state source => exact ((carries_toOps _ source).covers_iff hb (hall _ hsent)).1 h
  | delta addressee source vector =>
    obtain ⟨hsource, old, hold, rfl⟩ := hsent
    simp only [TextNet.receive] at h
    split at h
    · rename_i heq
      subst heq
      rw [applyDelta_fst] at h
      exact ((hi.carries_deltaSince hsource hold).covers_iff hb (hall _ hsource)).1 h
    · exact .inl h

theorem Inv.covers_receive_delta {source : TextCrdt} {vector : TextVersionVector}
    (hsent : net.Sent (.delta b source vector)) (h : source.Covers f) :
    (TextNet.receive b (net.replicas b) (.delta b source vector)).Covers f := by
  obtain ⟨content, hall⟩ := hi.content
  obtain ⟨hsource, old, hold, rfl⟩ := hsent
  simp only [TextNet.receive, if_true]
  rw [applyDelta_fst]
  have hcarries := hi.carries_deltaSince hsource hold
  exact (hcarries.covers_iff (hall _ (hi.had b)) (hall _ hsource)).2 (.inr h)

/-- An exchange adds to no state what no state had. -/
theorem Inv.exchange_step {e : TextEvent} (he : Exchange e) (ht : (net.step e).Had t)
    (h : t.Covers f) : ∃ s, net.Had s ∧ s.Covers f := by
  cases e with
  | edit p e => exact he.elim
  | fork p q => exact he.elim
  | sendState a => exact ⟨t, ht, h⟩
  | sendDelta a b index =>
    simp only [TextNet.step] at ht
    split at ht <;> exact ⟨t, ht, h⟩
  | deliver b index =>
    simp only [TextNet.step] at ht
    split at ht
    · rename_i parcel hparcel
      have hsent := hi.parcels parcel (mem_of_getElem? hparcel)
      rcases had_move.1 ht with ht | rfl
      · exact ⟨t, ht, h⟩
      · rcases hi.receive_covers hsent h with h | h
        · exact ⟨_, hi.had b, h⟩
        · exact ⟨_, hsent.had, h⟩
    · exact ⟨t, ht, h⟩
  | lose index => exact ⟨t, ht, h⟩

variable {es : List TextEvent}

theorem Inv.exchange_run (hes : ∀ e ∈ es, Exchange e)
    (ht : (net.run es).Had t) (h : t.Covers f) : ∃ s, net.Had s ∧ s.Covers f := by
  induction es generalizing net with
  | nil => exact ⟨t, ht, h⟩
  | cons e es ih =>
    rw [forall_mem_cons] at hes
    obtain ⟨s, hs, hf⟩ := ih (hi.step e) hes.2 ht
    exact hi.exchange_step hes.1 hs hf

/-- A replica that is up to date covers exactly what the replicas covered together. -/
theorem Inv.upToDate_covers_iff (hes : ∀ e ∈ es, Exchange e) (hb : net.UpToDate es b) :
    ((net.run es).replicas b).Covers f ↔ ∃ c, (net.replicas c).Covers f := by
  constructor
  · intro h
    obtain ⟨s, ⟨c, hs⟩, hf⟩ := hi.exchange_run hes ((hi.run es).had b) h
    exact ⟨c, hi.grown c s hs f hf⟩
  · rintro ⟨c, hc⟩
    have hne : (net.replicas c).elems ≠ ∅ := by
      intro hempty
      obtain ⟨e, he, -⟩ := hc
      rw [hempty] at he
      simp at he
    rcases hb c hne with rfl | ⟨pre, mid, index, vector, ⟨post, rfl⟩, hmid, hparcel⟩
    · exact hi.covers_run es hc
    · have hpre := hi.run pre
      have hsent := hpre.parcels _ (mem_of_getElem? hparcel)
      -- received at the delivery, kept to the end of the run
      have hgot := hpre.covers_receive_delta hsent (hi.covers_run mid hc)
      have hstep : ((net.run (pre ++ [.deliver b index])).replicas b).Covers f := by
        rw [TextNet.run, foldl_concat]
        simp only [TextNet.step]
        rw [TextNet.run] at hparcel
        rw [hparcel]
        dsimp only
        rwa [move_self]
      have hrest := (hi.run (pre ++ [.deliver b index])).covers_run post hstep
      rwa [TextNet.run, TextNet.run, ← foldl_append] at hrest

end

/-- **Deltas are merges.** In every network, of the replica `b`, a vector of any state it has had
and any state of a replica: applying the delta, in any order of its ops, and merging the state leave
the same elements and text. After an exchange without edits, replicas that are up to date are the
same. -/
theorem delta_is_merge (es : List TextEvent) :
    let net := start.run es
    (∀ b, ∀ old ∈ net.past b, ∀ source, net.Had source → ∀ ops : List TextOp,
      ops.Perm (source.deltaSince old.versionVector) →
      ((net.replicas b).applyDelta ops).1.elems = ((net.replicas b).merge source).1.elems ∧
      ((net.replicas b).applyDelta ops).1.text = ((net.replicas b).merge source).1.text) ∧
    ∀ es' : List TextEvent, (∀ e ∈ es', Exchange e) → ∀ a b, net.UpToDate es' a →
      net.UpToDate es' b → ((net.run es').replicas a).elems = ((net.run es').replicas b).elems ∧
        ((net.run es').replicas a).text = ((net.run es').replicas b).text := by
  intro net
  have hi : net.Inv := inv_start.run es
  refine ⟨fun b old hold source hsource ops hperm => ?_, fun es' hes a b ha hb => ?_⟩
  · have helems := hi.applyDelta_elems hsource hold hperm
    exact ⟨helems, text_congr helems⟩
  · have helems := elems_eq_of_covers fun f =>
      (hi.upToDate_covers_iff hes ha).trans (hi.upToDate_covers_iff (f := f) hes hb).symm
    exact ⟨helems, text_congr helems⟩

end TextNet

/-! ## Merging is a join

A buffer after a merge covers what either buffer covered. So merging states that replicas have had
is commutative, associative and idempotent on the elements, and any way of merging some states comes
to the same elements (`MergeTree`). The text depends on less: on which characters are there and
which of them are deleted.
-/

namespace TextCrdt

variable {content : OpId → Char × Option OpId} {t u : TextCrdt} {f : Fact} (ht : t.Agrees content)
include ht

/-- The same characters are there, and the same of them are deleted, under whatever ids. -/
def SameCharacters (t u : TextCrdt) : Prop :=
  ∀ id : OpId, t.elems[id]?.map (·.deleted.isSome) = u.elems[id]?.map (·.deleted.isSome)

variable (hu : u.Agrees content)
include hu

theorem Agrees.merge : (t.merge u).1.Agrees content :=
  ht.absorbAll ((carries_toOps t u).agrees hu)

theorem merge_covers_iff : (t.merge u).1.Covers f ↔ t.Covers f ∨ u.Covers f :=
  (carries_toOps t u).covers_iff ht hu

/-- Such buffers differ in the ids of deletions only. -/
theorem SameCharacters.get (h : SameCharacters t u)
    (id : OpId) : t.elems[id]? = none ∧ u.elems[id]? = none ∨
      ∃ e e', t.elems[id]? = some e ∧ u.elems[id]? = some e' ∧ e.ch = e'.ch ∧
        e.origin = e'.origin ∧ e.deleted.isNone = e'.deleted.isNone := by
  have hid := h id
  cases he : t.elems[id]? with
  | none =>
    rw [he] at hid
    exact .inl ⟨rfl, Option.map_eq_none_iff.1 hid.symm⟩
  | some e =>
    obtain ⟨e', he', hdeleted⟩ := Option.map_eq_some_iff.1 (hid.symm.trans (by rw [he]; rfl))
    have hsame := Prod.mk.inj ((ht id e he).trans (hu id e' he').symm)
    refine .inr ⟨e, e', rfl, he', hsame.1, hsame.2, ?_⟩
    rw [← Option.not_isSome, ← Option.not_isSome, hdeleted]

theorem text_eq_of_sameCharacters (h : SameCharacters t u) : t.text = u.text := by
  have hget := h.get ht hu
  have hids : t.ids = u.ids := ids_congr fun id => by
    rw [SortedMap.mem_iff_exists, SortedMap.mem_iff_exists]
    rcases hget id with ⟨he, he'⟩ | ⟨e, e', he, he', -⟩
    · rw [he, he']
    · rw [he, he']
      simp
  have horigin : t.originOf = u.originOf := by
    funext id
    rcases hget id with ⟨he, he'⟩ | ⟨e, e', he, he', -, horigin, -⟩
    · rw [originOf, originOf, he, he']
    · rw [originOf, originOf, he, he', Option.bind_some, Option.bind_some, horigin]
  have hlive : t.isLive = u.isLive := by
    funext id
    rcases hget id with ⟨he, he'⟩ | ⟨e, e', he, he', -, -, hdeleted⟩
    · rw [isLive, isLive, he, he']
    · rw [isLive, isLive, he, he', Option.any_some, Option.any_some, hdeleted]
  have hch : ∀ id : OpId, t.elems[id]?.map (·.ch) = u.elems[id]?.map (·.ch) := by
    intro id
    rcases hget id with ⟨he, he'⟩ | ⟨e, e', he, he', hch, -⟩
    · rw [he, he']
    · rw [he, he', Option.map_some, Option.map_some, hch]
  unfold text orderedIds
  simp only [hids, horigin, hlive, hch]

end TextCrdt

/-- A way of merging states. -/
inductive MergeTree where
  | state (t : TextCrdt)
  | merge (a b : MergeTree)

namespace MergeTree

def result : MergeTree → TextCrdt
  | .state t => t
  | .merge a b => (a.result.merge b.result).1

def states : MergeTree → List TextCrdt
  | .state t => [t]
  | .merge a b => a.states ++ b.states

variable {content : OpId → Char × Option OpId} {f : Fact}

/-- The result covers what the states cover. -/
theorem covers_iff (a : MergeTree) (h : ∀ t ∈ a.states, t.Agrees content) :
    a.result.Agrees content ∧ (a.result.Covers f ↔ ∃ t ∈ a.states, t.Covers f) := by
  induction a with
  | state t => exact ⟨h t (mem_singleton.2 rfl), by simp [result, states]⟩
  | merge a b iha ihb =>
    rw [states, forall_mem_append] at h
    obtain ⟨ha, hcoversa⟩ := iha h.1
    obtain ⟨hb, hcoversb⟩ := ihb h.2
    refine ⟨ha.merge hb, ?_⟩
    rw [result, merge_covers_iff ha hb, hcoversa, hcoversb, states]
    simp only [mem_append, or_and_right, exists_or]

end MergeTree

namespace TextNet

/-- In every run of replicas with their own ids: on the states they have had, merging is
commutative, associative and idempotent; states with the same characters and the same of them
deleted show the same text; and ways of merging the same states, in whatever order and grouping and
however often each, come to the same elements and text. -/
theorem merges_converge (es : List TextEvent) :
    (∀ t u, (start.run es).Had t → (start.run es).Had u →
      (t.merge u).1.elems = (u.merge t).1.elems) ∧
    (∀ t u v, (start.run es).Had t → (start.run es).Had u → (start.run es).Had v →
      ((t.merge u).1.merge v).1.elems = (t.merge (u.merge v).1).1.elems) ∧
    (∀ t, (start.run es).Had t → (t.merge t).1.elems = t.elems) ∧
    (∀ t u, (start.run es).Had t → (start.run es).Had u → t.SameCharacters u → t.text = u.text) ∧
    ∀ a b : MergeTree, (∀ t ∈ a.states, (start.run es).Had t) → (∀ t, t ∈ a.states ↔ t ∈ b.states) →
      a.result.elems = b.result.elems ∧ a.result.text = b.result.text := by
  obtain ⟨content, hall⟩ := (inv_start.run es).content
  refine ⟨fun t u ht hu => ?_, fun t u v ht hu hv => ?_, fun t ht => ?_, fun t u ht hu h => ?_,
    fun a b ha hab => ?_⟩
  · refine elems_eq_of_covers fun f => ?_
    rw [merge_covers_iff (hall t ht) (hall u hu), merge_covers_iff (hall u hu) (hall t ht), or_comm]
  · refine elems_eq_of_covers fun f => ?_
    rw [merge_covers_iff ((hall t ht).merge (hall u hu)) (hall v hv),
      merge_covers_iff (hall t ht) (hall u hu),
      merge_covers_iff (hall t ht) ((hall u hu).merge (hall v hv)),
      merge_covers_iff (hall u hu) (hall v hv), or_assoc]
  · refine elems_eq_of_covers fun f => ?_
    rw [merge_covers_iff (hall t ht) (hall t ht), or_self]
  · exact text_eq_of_sameCharacters (hall t ht) (hall u hu) h
  · have hcovers : ∀ (c : MergeTree) (_ : ∀ t ∈ c.states, (start.run es).Had t) (f : Fact),
        c.result.Covers f ↔ ∃ t ∈ c.states, t.Covers f := fun c hc f =>
      (c.covers_iff fun t ht => hall t (hc t ht)).2
    have helems : a.result.elems = b.result.elems := by
      refine elems_eq_of_covers fun f => ?_
      rw [hcovers a ha, hcovers b fun t ht => ha t ((hab t).2 ht)]
      simp only [hab]
    exact ⟨helems, text_congr helems⟩

/-- **Characters and tombstones stay.** An element a replica has keeps its character and its place,
and once it is deleted it is deleted for good, by that deletion or an earlier one. -/
theorem elements_stay (es es' : List TextEvent) (b : Nat) :
    let net := start.run es
    ∀ (id : OpId) (e : Elem), (net.replicas b).elems[id]? = some e → ∃ e' : Elem,
      ((net.run es').replicas b).elems[id]? = some e' ∧ e'.ch = e.ch ∧ e'.origin = e.origin ∧
        ∀ d, e.deleted = some d → ∃ d' ≤ d, e'.deleted = some d' := by
  intro net id e he
  have hkeeps : ∀ f, (net.replicas b).Covers f → ((net.run es').replicas b).Covers f :=
    fun f => (inv_start.run es).covers_run es'
  obtain ⟨e', he', -, hch, horigin⟩ := hkeeps (.insert id e.ch e.origin) ⟨e, he, rfl, rfl, rfl⟩
  refine ⟨e', he', hch, horigin, fun d hd => ?_⟩
  obtain ⟨e'', he'', -, d', hd', hle⟩ := hkeeps (.delete id d) ⟨e, he, rfl, d, hd, le_rfl⟩
  cases he'.symm.trans he''
  exact ⟨d', hle, hd'⟩

end TextNet

end Lazily.Text
