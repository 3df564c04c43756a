import Lazily.Lib.Forest
import Lazily.Text.Network

/-!
# When collecting tombstones is safe

Replicas of a fixed membership edit, exchange states and deltas, report positions to their planes
and collect. What a replica has received is the join of its states (`known`), collections or not.

The frontier of a plane says how far each member has got, not what it has received. Where everything
a replica collects has been deleted at every member, is deleted in every parcel on its way, and has
nothing typed after it that the collecting replica has not received, the collected characters are
dead everywhere (`Collects`, kept by `collects_step`): every replica shows what it has received,
`collection_shows`.
-/

namespace Lazily.Text

open Lib TextCrdt List SortedMap TextNet Std.ExtTreeMap
open Crdt (OpId CrdtPlane)
open scoped SortedSet

/-! ## What edits hang from -/

namespace TextCrdt

variable {t t' t'' : TextCrdt}

/-- New elements hang from live ones or from new ones. -/
def Hangs (t t' : TextCrdt) : Prop :=
  ∀ (y : OpId) e o, t'.elems[y]? = some e → t.elems[y]? = none → e.origin = some o →
    t.isLive o = true ∨ t.IsNew o

variable {o x : OpId}

theorem isLive_iff : t.isLive o = true ↔ ∃ e, t.elems[o]? = some e ∧ e.deleted = none := by
  unfold isLive
  cases t.elems[o]? <;> simp

theorem isLive_false_iff : t.isLive x = false ↔
    ∀ e, t.elems[x]? = some e → ∃ d, e.deleted = some d := by
  unfold isLive
  cases t.elems[x]? with
  | none => simp
  | some e =>
    simp only [Option.any_some, Option.some.injEq, forall_eq']
    cases e.deleted <;> simp

theorem Covers.not_live {d : OpId} (h : t.Covers (.delete x d)) : t.isLive x = false := by
  obtain ⟨e, he, -, d', hd', -⟩ := h
  refine isLive_false_iff.2 fun e' he' => ⟨d', ?_⟩
  cases he.symm.trans he'
  exact hd'

theorem Grows.origin (h : Grows t t') {e e' : Elem} (he : t.elems[x]? = some e)
    (he' : t'.elems[x]? = some e') : e'.origin = e.origin := by
  obtain ⟨e'', he'', -, -, hsame⟩ := h.keeps (.insert x e.ch e.origin) ⟨e, he, rfl, rfl, rfl⟩
  cases he'.symm.trans he''
  exact hsame

/-- An element that an edit leaves live was live or is new. -/
theorem Grows.live (h : Grows t t') (hlive : t'.isLive o = true) :
    t.isLive o = true ∨ t.IsNew o := by
  obtain ⟨e, he, -⟩ := isLive_iff.1 hlive
  rcases h.only (.insert o e.ch e.origin) ⟨e, he, rfl, rfl, rfl⟩ with ⟨e', he', -⟩ | ⟨hnew, -⟩
  · left
    refine isLive_iff.2 ⟨e', he', ?_⟩
    by_contra hdeleted
    obtain ⟨d, hd⟩ := Option.ne_none_iff_exists'.1 hdeleted
    have hcov := h.keeps (.delete o d) ⟨e', he', rfl, d, hd, le_rfl⟩
    rw [hcov.not_live] at hlive
    cases hlive
  · exact .inr hnew

theorem Hangs.refl (t : TextCrdt) : Hangs t t := by
  intro y e o he hnone
  rw [hnone] at he
  cases he

theorem Hangs.trans (h : Hangs t t') (hg : Grows t t') (h' : Hangs t' t'') (hg' : Grows t' t'') :
    Hangs t t'' := by
  intro y e o he hnone horigin
  cases hmid : t'.elems[y]? with
  | none =>
    rcases h' y e o he hmid horigin with hlive | hnew
    · exact hg.live hlive
    · exact .inr (hg.isNew hnew)
  | some e' => exact h y e' o hmid hnone ((hg'.origin hmid he).symm.trans horigin)

variable {origin : Option OpId}

theorem hangs_insertAfter (t : TextCrdt) (ch : Char)
    (horigin : ∀ o, origin = some o → t.isLive o = true) : Hangs t (t.insertAfter origin ch) := by
  intro y e o he hnone ho
  have he := get_insert.symm.trans he
  split at he
  · cases he
    exact .inl (horigin o ho)
  · cases hnone.symm.trans he

theorem isLive_of_visible {i : Nat} (h : (t.orderedIds false)[i]? = some o) :
    t.isLive o = true := by
  have hin := (mem_filter.1 (mem_of_getElem? h)).2
  simpa using hin

theorem visible_origin {index : Nat}
    (h : (if index = 0 then none else (t.orderedIds false)[index - 1]?) = some o) :
    t.isLive o = true := by
  split at h
  · cases h
  · exact isLive_of_visible h

theorem hangs_insertChain (ht : t.Clocked) (s : List Char)
    (horigin : ∀ o, origin = some o → t.isLive o = true) : Hangs t (t.insertChain origin s) := by
  induction s generalizing t origin with
  | nil => exact .refl t
  | cons ch s ih =>
    have hgrows := grows_insertAfter ht origin ch
    have hclocked := hgrows.clocked ht
    refine (hangs_insertAfter t ch horigin).trans hgrows (ih hclocked ?_)
      (grows_insertChain hclocked s _)
    rintro o ho
    cases ho
    exact isLive_iff.2 ⟨⟨ch, origin, none⟩, get_insert.trans (if_pos rfl), rfl⟩

theorem hangs_insertEach (ht : t.Clocked) (index : Nat) (s : List Char) :
    Hangs t (t.insertEach index s) := by
  induction s generalizing t index with
  | nil => exact .refl t
  | cons ch s ih =>
    have hgrows := grows_insert ht index ch
    have hclocked := hgrows.clocked ht
    exact (hangs_insertAfter t ch fun o => visible_origin).trans hgrows (ih hclocked _)
      (grows_insertEach hclocked s _)

theorem hangs_tombstone (t : TextCrdt) (id del : OpId) : Hangs t (t.nextId.1.tombstone id del) := by
  intro y e o he hnone
  unfold tombstone at he
  split at he
  · rename_i old hold
    split at he
    · have he := get_insert.symm.trans he
      split at he
      · rename_i hid
        subst hid
        cases hnone.symm.trans hold
      · cases hnone.symm.trans he
    · cases hnone.symm.trans he
  · cases hnone.symm.trans he

theorem hangs_deleteIds (t : TextCrdt) (ids : List OpId) : Hangs t (t.deleteIds ids) := by
  induction ids generalizing t with
  | nil => exact .refl t
  | cons id ids ih =>
    exact (hangs_tombstone t id _).trans (grows_tombstone t id) (ih _) (grows_deleteIds _ ids)

theorem hangs_edit (ht : t.Clocked) (e : TextEdit) : Hangs t (t.edit e) := by
  cases e with
  | insert index ch => exact hangs_insertAfter t ch fun o => visible_origin
  | insertStr index s =>
    simp only [edit, insertStr]
    split
    · exact hangs_insertEach ht index s
    · exact hangs_insertChain ht s fun o => visible_origin
  | delete index => exact hangs_deleteIds t _
  | deleteRange index len => exact hangs_deleteIds t _
  | replaceAll order s =>
    have hgrows := grows_deleteIds t order
    have hclocked := hgrows.clocked ht
    refine (hangs_deleteIds t order).trans hgrows (hangs_insertChain hclocked s ?_)
      (grows_insertChain hclocked s none)
    rintro o ho
    cases ho

/-! ## What a collection removes -/

/-- The element and everything that hangs from it are stable tombstones. -/
def Doomed (t : TextCrdt) (isStable : OpId → Bool) (x : OpId) : Prop :=
  ∀ y, Under t.originOf y x → ∃ e, t.elems[y]? = some e ∧ e.deleted.any isStable = true

/-- Elements are removed with everything that hangs from them. -/
structure Collected (isStable : OpId → Bool) (t t' : TextCrdt) : Prop where
  peer : t'.peer = t.peer
  counter : t'.counter = t.counter
  sub : ∀ (x : OpId) e, t'.elems[x]? = some e → t.elems[x]? = some e
  stable : ∀ (x : OpId) e, t.elems[x]? = some e → t'.elems[x]? = none →
    e.deleted.any isStable = true
  under : ∀ x y : OpId, t.elems[x]?.isSome → t'.elems[x]? = none → t.originOf y = some x →
    t'.elems[y]? = none

variable {isStable : OpId → Bool}

theorem originOf_eq_some {y : OpId} :
    t.originOf y = some x ↔ ∃ e, t.elems[y]? = some e ∧ e.origin = some x := by
  unfold originOf
  rw [Option.bind_eq_some_iff]

theorem Collected.refl (t : TextCrdt) : Collected isStable t t := by
  refine ⟨rfl, rfl, fun _ _ => id, fun x e he hnone => ?_, fun x y hx hnone => ?_⟩
  · cases he.symm.trans hnone
  · rw [hnone] at hx
    cases hx

theorem collected_gcLoop (fuel : Nat) (t : TextCrdt) (removed : Nat) :
    Collected isStable t (gcLoop isStable fuel t removed).1 := by
  induction fuel generalizing t removed with
  | zero => exact .refl t
  | succ fuel ih =>
    rw [gcLoop]
    split
    · exact .refl t
    · obtain ⟨hpeer, hcounter, hsub, hstable, hunder⟩ :=
        ih (t.removeAll (t.collectable isStable)) (removed + (t.collectable isStable).length)
      set t1 := t.removeAll (t.collectable isStable) with ht1
      set t' := (gcLoop isStable fuel t1 (removed + (t.collectable isStable).length)).1
      have hget : ∀ x : OpId, t1.elems[x]? = if x ∈ t.collectable isStable then none
          else t.elems[x]? := fun x => removeAll_get _
      have hsub1 : ∀ (x : OpId) e, t1.elems[x]? = some e → t.elems[x]? = some e := by
        intro x e he
        rw [hget] at he
        split at he
        · cases he
        · exact he
      refine ⟨hpeer, hcounter, fun x e he => hsub1 x e (hsub x e he), fun x e he hnone => ?_,
        fun x y hx hnone hy => ?_⟩
      · by_cases hin : x ∈ t.collectable isStable
        · obtain ⟨⟨e', he', hstable⟩, -⟩ := mem_collectable.1 hin
          cases he.symm.trans he'
          exact hstable
        · exact hstable x e (by rw [hget, if_neg hin, he]) hnone
      · by_cases hin : x ∈ t.collectable isStable
        -- nothing had this element as its origin
        · obtain ⟨e, he, horigin⟩ := originOf_eq_some.1 hy
          have hfree := (mem_collectable.1 hin).2
          rw [isReferenced_iff.2 ⟨y, e, he, horigin⟩] at hfree
          cases hfree
        · cases hy1 : t1.elems[y]? with
          | none =>
            cases hy' : t'.elems[y]? with
            | none => rfl
            | some e => cases hy1.symm.trans (hsub y e hy')
          | some e =>
            refine hunder x y (by rw [hget, if_neg hin]; exact hx) hnone ?_
            obtain ⟨e', he', horigin⟩ := originOf_eq_some.1 hy
            have heq := Option.some.inj ((hsub1 y e hy1).symm.trans he')
            exact originOf_eq_some.2 ⟨e, hy1, heq ▸ horigin⟩

theorem Collected.doomed (h : Collected isStable t t') (hx : t.elems[x]?.isSome)
    (hnone : t'.elems[x]? = none) : t.Doomed isStable x := by
  intro y hy
  -- from the element down to `y`: everything on the way is removed
  have hremoved : t.elems[y]?.isSome ∧ t'.elems[y]? = none := by
    induction hy using Relation.ReflTransGen.head_induction_on with
    | refl => exact ⟨hx, hnone⟩
    | head hchild _ ih =>
      refine ⟨?_, h.under _ _ ih.1 ih.2 hchild⟩
      obtain ⟨e, he, -⟩ := originOf_eq_some.1 hchild
      rw [he]
      rfl
  obtain ⟨e, he⟩ := Option.isSome_iff_exists.1 hremoved.1
  exact ⟨e, he, h.stable y e he hremoved.2⟩

theorem collected_gcText (plane : CrdtPlane) (t : TextCrdt) :
    Collected (isOpCollectable plane) t (gcText plane t).1 := by
  unfold gcText isOpCollectable
  cases plane.opStabilityFrontier with
  | none => exact .refl t
  | some frontier => exact collected_gcLoop _ t 0

end TextCrdt

/-! ## Replicas that collect -/

inductive CollectEvent where
  | text (e : TextEvent)
  | observeOp (p : Nat) (op : OpId)
  | gcText (p : Nat)

/-- Members edit and receive; there are no forks. -/
def TextEvent.within (members : List Nat) : TextEvent → Bool
  | .edit p _ => members.contains p
  | .fork _ _ => false
  | .deliver b _ => members.contains b
  | .sendState _ | .sendDelta _ _ _ | .lose _ => true

structure CollectNet where
  net : TextNet
  planes : Nat → CrdtPlane

namespace TextNet

variable {net : TextNet} {members : List Nat} {dead : OpId → Prop} {p : Nat} {t : TextCrdt}
  {x : OpId}

/-- A replica has received a fact, and may have collected it since. -/
def Received (net : TextNet) (p : Nat) (f : Fact) : Prop := ∃ s ∈ net.past p, s.Covers f

def known (net : TextNet) (p : Nat) : TextCrdt :=
  (net.past p).foldl (fun k s => k.absorbAll s.toOps) (.new p)

/-- Nothing depends on the character any more: every member has received a deletion of it, the
parcels on their way hold it deleted if at all, and what any state has typed after it `p` has
received. -/
structure Settled (members : List Nat) (net : TextNet) (p : Nat) (x : OpId) : Prop where
  deleted : ∀ q ∈ members, ∃ d, net.Received q (.delete x d)
  parcels : ∀ parcel ∈ net.parcels, parcel.source.isLive x = false
  after : ∀ s, net.Had s → ∀ (y : OpId) e, s.elems[y]? = some e → e.origin = some x →
    net.Received p (.insert y e.ch e.origin)

/-- The parcels are of states that were had. -/
structure Sound (net : TextNet) : Prop extends Sane net where
  sent : ∀ parcel ∈ net.parcels, net.Had parcel.source

/-- The characters `dead` are gone for good; of the others every replica has what it received. -/
structure Collects (members : List Nat) (dead : OpId → Prop) (net : TextNet) : Prop
    extends Sound net where
  outside : ∀ p, p ∉ members → ∀ s ∈ net.past p, s.elems = ∅
  deleted : ∀ x, dead x → ∀ q ∈ members, ∃ d, net.Received q (.delete x d)
  replicas : ∀ x, dead x → ∀ p, (net.replicas p).isLive x = false
  parcels : ∀ x, dead x → ∀ parcel ∈ net.parcels, parcel.source.isLive x = false
  closed : ∀ t, net.Had t → ∀ y x, t.originOf y = some x → dead x → dead y
  kept : ∀ p f, net.Received p f → ¬dead f.id → (net.replicas p).Covers f

theorem sound_start : start.Sound := ⟨sane_start, fun parcel hin => by cases hin⟩

theorem collects_start (members : List Nat) : Collects members (fun _ => False) start := by
  have hnone : ∀ p, ∀ s ∈ start.past p, s.elems = ∅ := by
    intro p s hin
    rw [mem_singleton.1 hin]
    rfl
  refine ⟨sound_start, fun p _ => hnone p, fun _ => False.elim,
    fun _ => False.elim, fun _ => False.elim, fun _ _ _ _ _ => id, fun p f hf => ?_⟩
  obtain ⟨s, hin, e, he, -⟩ := hf
  rw [hnone p s hin] at he
  simp at he

/-- A member comes to a state with what it had that is not dead; the dead are not live in it. -/
structure Shifts (members : List Nat) (dead : OpId → Prop) (net : TextNet) (p : Nat)
    (t : TextCrdt) : Prop extends Comes net p t where
  member : p ∈ members
  keeps : ∀ f, (net.replicas p).Covers f → ¬dead f.id → t.Covers f
  live : ∀ x, dead x → t.isLive x = false
  closed : ∀ y x, t.originOf y = some x → dead x → dead y

theorem received_move {q : Nat} {f : Fact} :
    (net.move p t).Received q f ↔ net.Received q f ∨ q = p ∧ t.Covers f := by
  simp only [Received, mem_past_move]
  constructor
  · rintro ⟨s, hin | ⟨rfl, rfl⟩, hf⟩
    · exact .inl ⟨s, hin, hf⟩
    · exact .inr ⟨rfl, hf⟩
  · rintro (⟨s, hin, hf⟩ | ⟨rfl, hf⟩)
    · exact ⟨s, .inl hin, hf⟩
    · exact ⟨t, .inr ⟨rfl, rfl⟩, hf⟩

theorem Sound.move (hs : net.Sound) (hc : net.Comes p t) : (net.move p t).Sound :=
  ⟨hs.toSane.move hc, fun parcel hin => had_move.2 (.inl (hs.sent parcel hin))⟩

section

variable (hc : Collects members dead net)
include hc

theorem Collects.move (hs : Shifts members dead net p t) :
    Collects members dead (net.move p t) where
  toSound := hc.toSound.move hs.toComes
  outside q hq s hin := by
    rcases mem_past_move.1 hin with hin | ⟨rfl, -⟩
    · exact hc.outside q hq s hin
    · exact absurd hs.member hq
  deleted x hx q hq := by
    obtain ⟨d, hd⟩ := hc.deleted x hx q hq
    exact ⟨d, received_move.2 (.inl hd)⟩
  replicas x hx q := by
    by_cases hq : q = p
    · rw [hq, move_self]
      exact hs.live x hx
    · rw [move_other hq]
      exact hc.replicas x hx q
  parcels := hc.parcels
  closed s hhad y x hy hx := by
    rcases had_move.1 hhad with hhad | rfl
    · exact hc.closed s hhad y x hy hx
    · exact hs.closed y x hy hx
  kept q f hf hdead := by
    by_cases hq : q = p
    · rw [hq, move_self]
      rcases received_move.1 hf with hf | ⟨-, hf⟩
      · exact hs.keeps f (hc.kept p f (hq ▸ hf) hdead) hdead
      · exact hf
    · rw [move_other hq]
      rcases received_move.1 hf with hf | ⟨heq, -⟩
      · exact hc.kept q f hf hdead
      · exact absurd heq hq

/-! ## The steps -/

/-- A dead character was minted before. -/
theorem Collects.not_new (hp : p ∈ members) (hx : dead x) : ¬(net.replicas p).IsNew x := by
  intro hnew
  obtain ⟨d, s, hin, e, he, -⟩ := hc.deleted x hx p hp
  have hle := hc.not_held_new ⟨p, hin⟩ (g := .insert x e.ch e.origin) ⟨e, he, rfl, rfl, rfl⟩
    (hnew.1.trans (hc.peer p))
  exact absurd hnew.2 (not_lt.2 hle)

theorem Collects.shifts_edit (hp : p ∈ members) (e : TextEdit) :
    Shifts members dead net p ((net.replicas p).edit e) := by
  have hgrows := grows_edit (hc.clocked p) e
  have hdead : ∀ x, dead x → ¬((net.replicas p).isLive x = true ∨ (net.replicas p).IsNew x) := by
    rintro x hx (hlive | hnew)
    · rw [hc.replicas x hx p] at hlive
      cases hlive
    · exact hc.not_new hp hx hnew
  refine ⟨hc.comes_edit p e, hp, fun f hf _ => hgrows.keeps f hf, fun x hx => ?_,
    fun y x hy hx => ?_⟩
  · rw [Bool.eq_false_iff]
    exact fun hlive => hdead x hx (hgrows.live hlive)
  · obtain ⟨e', he', horigin⟩ := originOf_eq_some.1 hy
    cases hold : (net.replicas p).elems[y]? with
    | none =>
      exact absurd (hangs_edit (hc.clocked p) e y e' x he' hold horigin) (hdead x hx)
    | some old =>
      refine hc.closed _ (hc.had p) y x (originOf_eq_some.2 ⟨old, hold, ?_⟩) hx
      exact (hgrows.origin hold he').symm.trans horigin

theorem Collects.shifts_absorbAll (hp : p ∈ members) {source : TextCrdt} (hsource : net.Had source)
    (hlive : ∀ x, dead x → source.isLive x = false) {ops : List TextOp}
    (hops : ∀ op ∈ ops, op ∈ source.toOps) :
    Shifts members dead net p ((net.replicas p).absorbAll ops) := by
  obtain ⟨content, hall⟩ := hc.content
  have hagrees : ∀ op ∈ ops, (op.ch, op.origin) = content op.id := fun op hin =>
    hall _ hsource op.id op.elem (mem_toOps.1 (hops op hin))
  have hcovers := fun f => covers_absorbAll (f := f) (hall _ (hc.had p)) hagrees
  have hheld : ∀ f : Fact, ((net.replicas p).absorbAll ops).Holds f →
      (net.replicas p).Holds f ∨ ∃ op ∈ ops, op.Holds f := fun f => holds_absorbAll
  refine ⟨hc.comes_absorbAll hsource hops, hp, fun f hf _ => (hcovers f).2 (.inl hf),
    fun x hx => ?_, fun y x hy hx => ?_⟩
  -- a deletion of it is covered afterwards
  · by_contra hne
    obtain ⟨e, he, -⟩ := isLive_iff.1 (Bool.not_eq_false _ ▸ hne)
    have hdel : ∃ d, ((net.replicas p).absorbAll ops).Covers (.delete x d) := by
      rcases hheld (.insert x e.ch e.origin) ⟨e, he, rfl, rfl, rfl⟩ with
        ⟨e', he', -⟩ | ⟨op, hin, hop⟩
      · obtain ⟨d, hd⟩ := isLive_false_iff.1 (hc.replicas x hx p) e' he'
        exact ⟨d, (hcovers _).2 (.inl ⟨e', he', rfl, d, hd, le_rfl⟩)⟩
      · have helem := mem_toOps.1 (hops op hin)
        rw [hop.id_eq] at helem
        obtain ⟨d, hd⟩ := isLive_false_iff.1 (hlive x hx) op.elem helem
        exact ⟨d, (hcovers _).2 (.inr ⟨op, hin, hop.id_eq, d, hd, le_rfl⟩)⟩
    exact hne hdel.choose_spec.not_live
  · obtain ⟨e, he, horigin⟩ := originOf_eq_some.1 hy
    rcases hheld (.insert y e.ch e.origin) ⟨e, he, rfl, rfl, rfl⟩ with
      ⟨e', he', -, -, hsame⟩ | ⟨op, hin, hop⟩
    · refine hc.closed _ (hc.had p) y x (originOf_eq_some.2 ⟨e', he', ?_⟩) hx
      exact hsame.trans horigin
    · have helem := mem_toOps.1 (hops op hin)
      rw [hop.id_eq] at helem
      refine hc.closed _ hsource y x (originOf_eq_some.2 ⟨op.elem, helem, ?_⟩) hx
      exact hop.2.2.trans horigin

omit hc in
/-- A replica receives operations of the sender's state. -/
theorem receive_eq_absorbAll (p : Nat) (t : TextCrdt) (parcel : Parcel) :
    ∃ ops, (∀ op ∈ ops, op ∈ parcel.source.toOps) ∧ receive p t parcel = t.absorbAll ops := by
  cases parcel with
  | state source => exact ⟨source.toOps, fun _ => id, rfl⟩
  | delta addressee source vector =>
    simp only [receive]
    split
    · exact ⟨_, fun op hop => (mem_filter.1 hop).1, applyDelta_fst ..⟩
    · exact ⟨[], by simp, rfl⟩

variable {parcels : List Parcel} {parcel : Parcel} {e : TextEvent}

omit hc in
theorem Sound.withParcels (hs : net.Sound) (hsent : ∀ parcel ∈ parcels, net.Had parcel.source) :
    Sound { net with parcels := parcels } :=
  ⟨⟨hs.peer, hs.current, hs.clocked, hs.content, hs.minted⟩, hsent⟩

omit hc in
theorem Sound.send (hs : net.Sound) (hsource : parcel.source = net.replicas p) :
    Sound { net with parcels := net.parcels ++ [parcel] } := by
  refine hs.withParcels fun other hin => ?_
  rcases mem_append.1 hin with hin | hin
  · exact hs.sent other hin
  · rw [mem_singleton.1 hin, hsource]
    exact hs.had p

omit hc in
theorem Sound.text (hs : net.Sound) (he : e.within members = true) : (net.step e).Sound := by
  cases e with
  | edit p e => exact hs.move (hs.comes_edit p e)
  | fork p q => cases he
  | sendState a => exact hs.send rfl
  | sendDelta a b index =>
    simp only [step]
    split
    · exact hs.send rfl
    · exact hs
  | deliver b index =>
    simp only [step]
    split
    · rename_i parcel hparcel
      obtain ⟨ops, hops, heq⟩ := receive_eq_absorbAll b (net.replicas b) parcel
      rw [heq]
      exact hs.move (hs.comes_absorbAll (hs.sent _ (mem_of_getElem? hparcel)) hops)
    · exact hs
  | lose index =>
    exact hs.withParcels fun parcel hin => hs.sent parcel (mem_of_mem_eraseIdx hin)

theorem Collects.withParcels (hsent : ∀ parcel ∈ parcels, net.Had parcel.source)
    (hlive : ∀ x, dead x → ∀ parcel ∈ parcels, parcel.source.isLive x = false) :
    Collects members dead { net with parcels := parcels } :=
  ⟨hc.toSound.withParcels hsent, hc.outside, hc.deleted, hc.replicas, hlive, hc.closed, hc.kept⟩

theorem Collects.send (hsource : parcel.source = net.replicas p) :
    Collects members dead { net with parcels := net.parcels ++ [parcel] } := by
  refine hc.withParcels (hc.toSound.send hsource).sent fun x hx other hin => ?_
  rcases mem_append.1 hin with hin | hin
  · exact hc.parcels x hx other hin
  · rw [mem_singleton.1 hin, hsource]
    exact hc.replicas x hx p

theorem Collects.text (he : e.within members = true) : Collects members dead (net.step e) := by
  cases e with
  | edit p e => exact hc.move (hc.shifts_edit (contains_iff_mem.1 he) e)
  | fork p q => cases he
  | sendState a => exact hc.send rfl
  | sendDelta a b index =>
    simp only [step]
    split
    · exact hc.send rfl
    · exact hc
  | deliver b index =>
    simp only [step]
    split
    · rename_i parcel hparcel
      have hin := mem_of_getElem? hparcel
      obtain ⟨ops, hops, heq⟩ := receive_eq_absorbAll b (net.replicas b) parcel
      rw [heq]
      exact hc.move (hc.shifts_absorbAll (contains_iff_mem.1 he) (hc.sent parcel hin)
        (fun x hx => hc.parcels x hx parcel hin) hops)
    · exact hc
  | lose index =>
    exact hc.withParcels (fun parcel hin => hc.sent parcel (mem_of_mem_eraseIdx hin))
      fun x hx parcel hin => hc.parcels x hx parcel (mem_of_mem_eraseIdx hin)

/-- Characters nothing depends on may count as dead. -/
theorem Collects.doom (gone : OpId → Prop) (hsettled : ∀ x, gone x → Settled members net p x)
    (hunder : ∀ x y, gone x → (net.replicas p).originOf y = some x → gone y) :
    Collects members (fun x => dead x ∨ gone x) net where
  toSound := hc.toSound
  outside := hc.outside
  deleted x hx q hq := hx.elim (fun hx => hc.deleted x hx q hq) fun hx =>
    (hsettled x hx).deleted q hq
  replicas x hx q := by
    by_cases hdead : dead x
    · exact hc.replicas x hdead q
    by_cases hq : q ∈ members
    · obtain ⟨d, hd⟩ := (hsettled x (hx.resolve_left hdead)).deleted q hq
      exact (hc.kept q _ hd hdead).not_live
    · simp [isLive, hc.outside q hq _ (hc.current q)]
  parcels x hx parcel hin := hx.elim (fun hx => hc.parcels x hx parcel hin) fun hx =>
    (hsettled x hx).parcels parcel hin
  closed s hhad y x hy hx := by
    rcases hx with hx | hx
    · exact .inl (hc.closed s hhad y x hy hx)
    · by_cases hdead : dead y
      · exact .inl hdead
      -- the replica that collects still holds it, with the same origin
      · obtain ⟨e, he, horigin⟩ := originOf_eq_some.1 hy
        obtain ⟨e', he', -, -, hsame⟩ :=
          hc.kept p _ ((hsettled x hx).after s hhad y e he horigin) hdead
        refine .inr (hunder x y hx (originOf_eq_some.2 ⟨e', he', ?_⟩))
        exact hsame.trans horigin
  kept q f hf hdead := hc.kept q f hf fun h => hdead (.inl h)

variable {isStable : OpId → Bool} (hcoll : TextCrdt.Collected isStable (net.replicas p) t)
include hcoll

omit hc in
/-- A collection leaves what was there. -/
theorem Sane.comes_collected (hs : net.Sane) : net.Comes p t := by
  refine ⟨?_, ?_, fun f hf => ?_, ?_, fun f hf => ?_⟩
  · rw [hcoll.peer, hs.peer p]
  · rw [hcoll.counter]
  · obtain ⟨e, he, hf⟩ := hf
    rw [hcoll.counter]
    exact hs.clocked p f ⟨e, hcoll.sub _ e he, hf⟩
  · obtain ⟨content, hall⟩ := hs.content
    exact ⟨content, fun id e he => hall _ (hs.had p) id e (hcoll.sub id e he), hall⟩
  · obtain ⟨e, he, hf⟩ := hf
    exact .inl ⟨_, hs.had p, e, hcoll.sub _ e he, hf⟩

theorem Collects.gc (hp : p ∈ members)
    (hsettled : ∀ x, (net.replicas p).Doomed isStable x → Settled members net p x) :
    ∃ dead, Collects members dead (net.move p t) := by
  have hc' := hc.doom (fun x => (net.replicas p).elems[x]?.isSome ∧ t.elems[x]? = none)
    (fun x hx => hsettled x (hcoll.doomed hx.1 hx.2)) fun x y hx hy => ?_
  · refine ⟨_, hc'.move ⟨hc.comes_collected hcoll, hp, fun f hf hdead => ?_,
      fun x hx => isLive_false_iff.2 fun e he => ?_, fun y x hy hx => ?_⟩⟩
    · obtain ⟨e, he, hf⟩ := hf
      cases hleft : t.elems[f.id]? with
      | none =>
        refine absurd (.inr ⟨?_, hleft⟩) hdead
        rw [he]
        rfl
      | some e' =>
        have heq := Option.some.inj (he.symm.trans (hcoll.sub _ e' hleft))
        exact ⟨e', hleft, heq ▸ hf⟩
    · exact isLive_false_iff.1 (hc'.replicas x hx p) e (hcoll.sub x e he)
    · obtain ⟨e, he, horigin⟩ := originOf_eq_some.1 hy
      refine hc'.closed _ (hc.had p) y x (originOf_eq_some.2 ⟨e, ?_, horigin⟩) hx
      exact hcoll.sub y e he
  · obtain ⟨e, he, -⟩ := originOf_eq_some.1 hy
    refine ⟨?_, hcoll.under x y hx.1 hx.2 hy⟩
    rw [he]
    rfl

end

/-! ## What a replica shows -/

theorem covers_known (hs : net.Sane) (p : Nat) (f : Fact) :
    (net.known p).Covers f ↔ net.Received p f := by
  obtain ⟨content, hall⟩ := hs.content
  have hfold : ∀ (l : List TextCrdt) (k : TextCrdt), k.Agrees content →
      (∀ s ∈ l, s.Agrees content) →
      ((l.foldl (fun k s => k.absorbAll s.toOps) k).Covers f ↔
        k.Covers f ∨ ∃ s ∈ l, s.Covers f) := by
    intro l
    induction l with
    | nil => simp
    | cons s l ih =>
      intro k hk hl
      rw [forall_mem_cons] at hl
      have hops := (carries_toOps k s).agrees hl.1
      rw [foldl_cons, ih _ (hk.absorbAll hops) hl.2,
        (carries_toOps k s).covers_iff hk hl.1, or_assoc]
      simp only [mem_cons, exists_eq_or_imp]
  have hnew : (new p).Agrees content := fun id e he => by simp [new] at he
  rw [known, hfold _ _ hnew fun s hin => hall s ⟨p, hin⟩]
  refine ⟨fun h => h.resolve_left ?_, .inr⟩
  rintro ⟨e, he, -⟩
  simp [new] at he

end TextNet

/-- Buffers that differ in dead characters only show the same. -/
theorem TextCrdt.shows_eq {t k : TextCrdt} (dead : OpId → Prop)
    (hsame : ∀ x : OpId, ¬dead x → t.elems[x]? = k.elems[x]?)
    (ht : ∀ x, dead x → t.isLive x = false) (hk : ∀ x, dead x → k.isLive x = false)
    (htc : ∀ y x, t.originOf y = some x → dead x → dead y)
    (hkc : ∀ y x, k.originOf y = some x → dead x → dead y) :
    t.orderedIds false = k.orderedIds false ∧ t.text = k.text := by
  classical
  let keep : OpId → Bool := fun x => decide (¬dead x)
  have hkeep : ∀ x, keep x = true ↔ ¬dead x := fun x => decide_eq_true_iff
  have hlive : t.isLive = k.isLive := by
    funext x
    by_cases hx : dead x
    · rw [ht x hx, hk x hx]
    · unfold isLive
      rw [hsame x hx]
  have hpreorder : ∀ u : TextCrdt, (∀ y x, u.originOf y = some x → dead x → dead y) →
      (preorder u.ids u.originOf).filter keep = preorder (u.ids.filter keep) u.originOf := by
    intro u hu
    refine (preorder_filter ?_ fun y _ x hy hkeepy => ?_).symm
    · exact nodup_reverse.2 nodup_keys
    · exact (hkeep x).2 fun hx => (hkeep y).1 hkeepy (hu y x hy hx)
  have hids : t.ids.filter keep = k.ids.filter keep := by
    rw [ids, ids, filter_reverse, filter_reverse, keys_filter_eq]
    intro x hx
    rw [mem_iff_exists, mem_iff_exists, hsame x ((hkeep x).1 hx)]
  have horigin : preorder (t.ids.filter keep) t.originOf =
      preorder (t.ids.filter keep) k.originOf := by
    refine preorder_congr fun x hx => ?_
    unfold originOf
    rw [hsame x ((hkeep x).1 (mem_filter.1 hx).2)]
  -- live characters are not dead, so both orders show those of the part they share
  have hvisible : ∀ u : TextCrdt, (∀ x, dead x → u.isLive x = false) →
      u.orderedIds false = ((preorder u.ids u.originOf).filter keep).filter u.isLive := by
    intro u hu
    rw [filter_filter]
    refine filter_congr fun x _ => ?_
    by_cases hx : dead x
    · simp [hu x hx]
    · simp [(hkeep x).2 hx]
  have hordered : t.orderedIds false = k.orderedIds false := by
    rw [hvisible t ht, hvisible k hk, hpreorder t htc, hpreorder k hkc, horigin, hids, hlive]
  refine ⟨hordered, ?_⟩
  unfold text
  rw [hordered]
  refine filterMap_congr fun x hx => ?_
  rw [hsame x fun hdead => ?_]
  have hshown := (mem_filter.1 hx).2
  rw [Bool.false_or, hk x hdead] at hshown
  cases hshown

theorem TextNet.Collects.shows {net : TextNet} {members : List Nat} {dead : OpId → Prop}
    (hc : TextNet.Collects members dead net) (p : Nat) :
    (net.replicas p).orderedIds false = (net.known p).orderedIds false ∧
      (net.replicas p).text = (net.known p).text := by
  have hknown := covers_known hc.toSane p
  refine shows_eq dead (fun x hx => ?_) (fun x hx => hc.replicas x hx p)
    (fun x hx => ?_) (hc.closed _ (hc.had p))
    fun y x hy hx => ?_
  · refine get_eq_of_covers fun f hf => ?_
    rw [hknown]
    exact ⟨fun h => ⟨_, hc.current p, h⟩, fun h => hc.kept p f h (hf ▸ hx)⟩
  · by_cases hp : p ∈ members
    · obtain ⟨d, hd⟩ := hc.deleted x hx p hp
      exact ((hknown _).2 hd).not_live
    · refine isLive_false_iff.2 fun e he => ?_
      obtain ⟨s, hin, e', he', -⟩ := (hknown (.insert x e.ch e.origin)).1 ⟨e, he, rfl, rfl, rfl⟩
      rw [hc.outside p hp s hin] at he'
      simp at he'
  · obtain ⟨e, he, horigin⟩ := originOf_eq_some.1 hy
    obtain ⟨s, hin, e', he', -, -, hsame⟩ :=
      (hknown (.insert y e.ch e.origin)).1 ⟨e, he, rfl, rfl, rfl⟩
    refine hc.closed s ⟨p, hin⟩ y x (originOf_eq_some.2 ⟨e', he', ?_⟩) hx
    exact hsame.trans horigin

/-! ## Runs -/

namespace CollectNet

variable {members : List Nat} {s : CollectNet} {es : List CollectEvent}

def start (members : List Nat) : CollectNet :=
  ⟨.start, fun p => members.foldl CrdtPlane.addPeer (.new p)⟩

def step (members : List Nat) (s : CollectNet) : CollectEvent → CollectNet
  | .text e => if e.within members then { s with net := s.net.step e } else s
  | .observeOp p op =>
    { s with planes := Function.update s.planes p ((s.planes p).observeOp op) }
  | .gcText p =>
    if members.contains p then
      { s with net := s.net.move p (gcText (s.planes p) (s.net.replicas p)).1 }
    else s

def run (members : List Nat) (s : CollectNet) (es : List CollectEvent) : CollectNet :=
  es.foldl (step members) s

/-- The condition on an event: nothing depends on what a collection removes. -/
def Safe (members : List Nat) (s : CollectNet) : CollectEvent → Prop
  | .gcText p => ∀ x, (s.net.replicas p).Doomed (isOpCollectable (s.planes p)) x →
      TextNet.Settled members s.net p x
  | .text _ | .observeOp _ _ => True

/-- Every replica shows what it has received, and replicas that have received the same show the
same. -/
structure Shows (s : CollectNet) : Prop where
  ids : ∀ p, (s.net.replicas p).orderedIds false = (s.net.known p).orderedIds false
  text : ∀ p, (s.net.replicas p).text = (s.net.known p).text
  agree : ∀ a b, (∀ f, s.net.Received a f ↔ s.net.Received b f) →
    (s.net.replicas a).text = (s.net.replicas b).text

theorem sound_run (members : List Nat) (es : List CollectEvent) :
    ((start members).run members es).net.Sound := by
  refine foldl_invariant (I := fun s : CollectNet => s.net.Sound) sound_start fun s e hs => ?_
  cases e with
  | text e =>
    simp only [step]
    split
    · rename_i hwithin
      exact hs.text hwithin
    · exact hs
  | observeOp p op => exact hs
  | gcText p =>
    simp only [step]
    split
    · exact hs.move (hs.comes_collected (collected_gcText _ _))
    · exact hs

theorem collects_step {dead : OpId → Prop} (hc : TextNet.Collects members dead s.net)
    {e : CollectEvent} (he : s.Safe members e) :
    ∃ dead, TextNet.Collects members dead (s.step members e).net := by
  cases e with
  | text e =>
    simp only [step]
    split
    · rename_i hwithin
      exact ⟨dead, hc.text hwithin⟩
    · exact ⟨dead, hc⟩
  | observeOp p op => exact ⟨dead, hc⟩
  | gcText p =>
    simp only [step]
    split
    · rename_i hp
      exact hc.gc (collected_gcText _ _) (contains_iff_mem.1 hp) he
    · exact ⟨dead, hc⟩

theorem collects_run (hsafe : Allowed (step members) (Safe members) (start members) es) :
    ∃ dead, TextNet.Collects members dead ((start members).run members es).net :=
  hsafe.invariant (I := fun s => ∃ dead, TextNet.Collects members dead s.net)
    ⟨_, collects_start members⟩ fun _ _ ⟨_, hc⟩ he => collects_step hc he

/-- **Collecting tombstones**, in every run where nothing depends on what is collected. -/
theorem collection_shows (members : List Nat) (es : List CollectEvent)
    (hsafe : Allowed (step members) (Safe members) (start members) es) :
    ((start members).run members es).Shows := by
  obtain ⟨dead, hc⟩ := collects_run hsafe
  refine ⟨fun p => (hc.shows p).1, fun p => (hc.shows p).2, fun a b hsame => ?_⟩
  rw [(hc.shows a).2, (hc.shows b).2]
  refine text_congr (elems_eq_of_covers fun f => ?_)
  rw [covers_known hc.toSane, covers_known hc.toSane, hsame f]

/-- Member 1 collects a character whose deletion member 2 has received. -/
theorem collection_shows_settled :
    let es : List CollectEvent :=
      [.text (.edit 1 (.insertStr 0 ['a', 'b'])), .text (.sendState 1), .text (.deliver 2 0),
        .text (.lose 0), .text (.edit 1 (.delete 1)), .text (.sendState 1), .text (.deliver 2 0),
        .observeOp 1 ⟨3, 1⟩, .observeOp 1 ⟨3, 2⟩]
    let s := (start [1, 2]).run [1, 2] es
    (gcText (s.planes 1) (s.net.replicas 1)).2 = 1 ∧
      ((start [1, 2]).run [1, 2] (es ++ [.gcText 1])).Shows := by
  intro es s
  have hes : Allowed (step [1, 2]) (Safe [1, 2]) (start [1, 2]) es :=
    ⟨trivial, trivial, trivial, trivial, trivial, trivial, trivial, trivial, trivial, trivial⟩
  obtain ⟨dead, hc⟩ := collects_run hes
  have hsettled : TextNet.Settled [1, 2] s.net 1 ⟨2, 1⟩ := by
    refine ⟨fun q hq => ⟨⟨3, 1⟩, _, hc.current q, ?_⟩, by decide +kernel, ?_⟩
    · have hdeleted : ∀ q ∈ [1, 2], ∃ e ∈ ((s.net.replicas q).elems[(⟨2, 1⟩ : OpId)]?),
          e.deleted = some ⟨3, 1⟩ := by decide +kernel
      obtain ⟨e, he, hd⟩ := hdeleted q hq
      exact ⟨e, he, rfl, _, hd, le_rfl⟩
    -- nothing was ever typed after the character
    · rintro t ⟨q, hin⟩ y e he horigin
      have hnone : ∀ q ∈ [1, 2], ∀ t ∈ s.net.past q, ∀ o ∈ t.toOps, o.origin ≠ some ⟨2, 1⟩ := by
        decide +kernel
      by_cases hq : q ∈ [1, 2]
      · exact absurd horigin (hnone q hq t hin ⟨y, e.ch, e.origin, e.deleted⟩ (mem_toOps.2 he))
      · rw [hc.outside q hq t hin] at he
        simp at he
  have hgc : s.Safe [1, 2] (.gcText 1) := by
    intro x hx
    obtain ⟨e, he, hstable⟩ := hx x (.refl x)
    have honly : ∀ o ∈ (s.net.replicas 1).toOps, o.deleted.isSome → o.id = ⟨2, 1⟩ := by
      decide +kernel
    have hdoomed : x = ⟨2, 1⟩ := honly ⟨x, e.ch, e.origin, e.deleted⟩ (mem_toOps.2 he)
      (Option.isSome_of_any hstable)
    rw [hdoomed]
    exact hsettled
  refine ⟨by decide +kernel, collection_shows [1, 2] (es ++ [.gcText 1]) ?_⟩
  exact ⟨trivial, trivial, trivial, trivial, trivial, trivial, trivial, trivial, trivial, hgc,
    trivial⟩

/-- Member 1 deletes a character that member 2 types after before it learns of the deletion. Their
positions are level, so member 1 collects the character. When both have received everything, member
1 shows it again and member 2 does not. -/
theorem collected_character_reappears :
    let es : List CollectEvent :=
      [.text (.edit 1 (.insertStr 0 ['a', 'b'])), .text (.sendState 1), .text (.deliver 2 0),
        .text (.edit 1 (.delete 1)), .text (.sendState 1), .text (.edit 2 (.insert 2 'c')),
        .text (.sendState 2), .observeOp 1 ⟨3, 1⟩, .observeOp 1 ⟨3, 2⟩, .gcText 1,
        .text (.deliver 1 2), .text (.deliver 2 1)]
    let s := (start [1, 2]).run [1, 2] es
    (∀ f, s.net.Received 1 f ↔ s.net.Received 2 f) ∧
      (s.net.replicas 1).text = ['a', 'b', 'c'] ∧ (s.net.replicas 2).text = ['a', 'c'] ∧
      ¬s.Shows := by
  intro es s
  have hsane := (sound_run [1, 2] es).toSane
  have hknown : (s.net.known 1).elems = (s.net.known 2).elems :=
    toList_inj.1 (by decide +kernel)
  have hsame : ∀ f, s.net.Received 1 f ↔ s.net.Received 2 f := by
    intro f
    rw [← covers_known hsane, ← covers_known hsane]
    unfold TextCrdt.Covers
    rw [hknown]
  have h₁ : (s.net.replicas 1).text = ['a', 'b', 'c'] := by decide +kernel
  have h₂ : (s.net.replicas 2).text = ['a', 'c'] := by decide +kernel
  refine ⟨hsame, h₁, h₂, fun hshows => ?_⟩
  have heq := hshows.agree 1 2 hsame
  rw [h₁, h₂] at heq
  cases heq

end CollectNet

end Lazily.Text
