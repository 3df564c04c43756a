import Lazily.Lib.Reach
import Lazily.Text.Coverage

/-!
# Text replicas

Replicas with their own peer ids edit, fork, send their state or a delta to another replica, and
take in what was sent, in any order, late, repeatedly or never. A delta is computed against a vector
the addressee has had. `past` keeps every state a replica has had.

`Inv`: what one state holds and another has seen, the other covers. So a delta loses nothing
(`Inv.receive`), in every run (`Inv.run`).
-/

namespace Lazily.Text

open Lib TextCrdt List Function
open Crdt (OpId)
open scoped SortedSet

inductive TextEdit where
  | insert (index : Nat) (ch : Char)
  | insertStr (index : Nat) (s : List Char)
  | delete (index : Nat)
  | deleteRange (index len : Nat)
  | replaceAll (order : List OpId) (s : List Char)

def TextCrdt.edit (t : TextCrdt) : TextEdit → TextCrdt
  | .insert index ch => t.insert index ch
  | .insertStr index s => t.insertStr index s
  | .delete index => t.delete index
  | .deleteRange index len => t.deleteRange index len
  | .replaceAll order s => t.replaceAll order s

theorem TextCrdt.grows_edit {t : TextCrdt} (ht : t.Clocked) (e : TextEdit) :
    TextCrdt.Grows t (t.edit e) := by
  cases e with
  | insert index ch => exact grows_insert ht index ch
  | insertStr index s => exact grows_insertStr ht s index
  | delete index => exact grows_deleteIds t _
  | deleteRange index len => exact grows_deleteIds t _
  | replaceAll order s => exact grows_replaceAll ht s order

/-- What is on its way: the state of a replica, or what that state has over a vector of the
addressee. -/
inductive Parcel where
  | state (source : TextCrdt)
  | delta (addressee : Nat) (source : TextCrdt) (vector : TextVersionVector)

def Parcel.source : Parcel → TextCrdt
  | .state source => source
  | .delta _ source _ => source

inductive TextEvent where
  | edit (p : Nat) (e : TextEdit)
  | fork (p q : Nat)
  | sendState (a : Nat)
  | sendDelta (a b index : Nat)
  | deliver (b index : Nat)
  | lose (index : Nat)

structure TextNet where
  replicas : Nat → TextCrdt
  past : Nat → List TextCrdt
  parcels : List Parcel

namespace TextNet

def start : TextNet := ⟨.new, fun p => [.new p], []⟩

variable (net : TextNet)

def move (p : Nat) (t : TextCrdt) : TextNet :=
  { net with
    replicas := Function.update net.replicas p t
    past := Function.update net.past p (net.past p ++ [t]) }

/-- What a replica makes of a parcel; a delta for another one is not for it. -/
def receive (b : Nat) (t : TextCrdt) : Parcel → TextCrdt
  | .state source => (t.merge source).1
  | .delta addressee source vector =>
    if addressee = b then (t.applyDelta (source.deltaSince vector)).1 else t

def step : TextEvent → TextNet
  | .edit p e => net.move p ((net.replicas p).edit e)
  -- a fork is made for a peer that has done nothing yet
  | .fork p q =>
    if (net.replicas q).elems = ∅ ∧ (net.replicas q).counter = 0 then
      net.move q ((net.replicas p).fork q)
    else net
  | .sendState a => { net with parcels := net.parcels ++ [.state (net.replicas a)] }
  | .sendDelta a b index =>
    match (net.past b)[index]? with
    | some old =>
      { net with parcels := net.parcels ++ [.delta b (net.replicas a) old.versionVector] }
    | none => net
  | .deliver b index =>
    match net.parcels[index]? with
    | some parcel => net.move b (receive b (net.replicas b) parcel)
    | none => net
  | .lose index => { net with parcels := net.parcels.eraseIdx index }

def run (es : List TextEvent) : TextNet := es.foldl step net

/-! ## The invariant -/

variable {net : TextNet} {p b : Nat} {t : TextCrdt} {f : Fact}

def Had (net : TextNet) (t : TextCrdt) : Prop := ∃ p, t ∈ net.past p

/-- A parcel holds a state that was had and, for a delta, a vector the addressee has had. -/
def Sent (net : TextNet) : Parcel → Prop
  | .state source => net.Had source
  | .delta addressee source vector =>
    net.Had source ∧ ∃ old ∈ net.past addressee, vector = old.versionVector

/-- Replicas have their own ids, their counters are past what is there under these, and a character
is the same in every state. -/
structure Sane (net : TextNet) : Prop where
  peer : ∀ p, (net.replicas p).peer = p
  current : ∀ p, net.replicas p ∈ net.past p
  clocked : ∀ p, (net.replicas p).Clocked
  content : ∃ content, ∀ t, net.Had t → t.Agrees content
  minted : ∀ t, net.Had t → ∀ f, t.Holds f → 0 < f.opId.counter ∧
    f.opId.counter ≤ (net.replicas f.opId.peer).counter

structure Inv (net : TextNet) : Prop extends Sane net where
  own : ∀ t, net.Had t → ∀ f, t.Holds f → (net.replicas f.opId.peer).Covers f
  closed : ∀ t s, net.Had t → net.Had s → ∀ f, t.Holds f →
    s.versionVector.seen f.opId = true → s.Covers f
  grown : ∀ p, ∀ t ∈ net.past p, ∀ f, t.Covers f → (net.replicas p).Covers f
  parcels : ∀ parcel ∈ net.parcels, net.Sent parcel

theorem sane_start : start.Sane := by
  have hnone : ∀ t, start.Had t → ∀ id : OpId, t.elems[id]? = none := by
    rintro t ⟨p, hin⟩ id
    rw [mem_singleton.1 hin]
    simp [new]
  refine ⟨fun _ => rfl, fun p => mem_singleton.2 rfl, fun p f hf => ?_,
    ⟨fun _ => default, fun t ht id e he => ?_⟩, fun t ht f hf => ?_⟩
  · obtain ⟨e, he, -⟩ := hf
    cases (hnone _ ⟨p, mem_singleton.2 rfl⟩ f.id).symm.trans he
  · cases (hnone t ht id).symm.trans he
  · obtain ⟨e, he, -⟩ := hf
    cases (hnone t ht f.id).symm.trans he

theorem inv_start : start.Inv := by
  have hnone : ∀ t, start.Had t → ∀ f, ¬t.Covers f := by
    rintro t ⟨p, hin⟩ f ⟨e, he, -⟩
    rw [mem_singleton.1 hin] at he
    simp [new] at he
  refine ⟨sane_start, fun t ht f hf => ?_, fun t s ht _ f hf => ?_, fun p t hin f hf => ?_,
    fun parcel hin => by cases hin⟩
  · exact absurd hf.covers (hnone t ht f)
  · exact absurd hf.covers (hnone t ht f)
  · exact absurd hf (hnone t ⟨p, hin⟩ f)

theorem Sane.had (hs : net.Sane) (p : Nat) : net.Had (net.replicas p) := ⟨p, hs.current p⟩

/-! ## Moves -/

theorem move_self : (net.move p t).replicas p = t := update_self ..

variable {q : Nat} {s source r : TextCrdt} {ops : List TextOp} {content : OpId → Char × Option OpId}
    {parcel : Parcel}

theorem move_other (hq : q ≠ p) : (net.move p t).replicas q = net.replicas q :=
  update_of_ne hq ..

theorem mem_past_move : s ∈ (net.move p t).past q ↔ s ∈ net.past q ∨ q = p ∧ s = t := by
  change s ∈ update net.past p (net.past p ++ [t]) q ↔ _
  by_cases hq : q = p
  · subst hq
    simp
  · simp [hq]

theorem had_move : (net.move p t).Had s ↔ net.Had s ∨ s = t := by
  simp only [Had, mem_past_move]
  constructor
  · rintro ⟨q, hin | ⟨-, rfl⟩⟩
    · exact .inl ⟨q, hin⟩
    · exact .inr rfl
  · rintro (⟨q, hin⟩ | rfl)
    · exact ⟨q, .inl hin⟩
    · exact ⟨p, .inr ⟨rfl, rfl⟩⟩

theorem Sent.move (h : net.Sent parcel) : (net.move p t).Sent parcel := by
  cases parcel with
  | state source => exact had_move.2 (.inl h)
  | delta addressee source vector =>
    obtain ⟨hsource, old, hold, hv⟩ := h
    exact ⟨had_move.2 (.inl hsource), old, mem_past_move.2 (.inl hold), hv⟩

/-- What a replica may come to: what it holds some state held, or is its own and new. -/
structure Comes (net : TextNet) (p : Nat) (t : TextCrdt) : Prop where
  peer : t.peer = p
  counter : (net.replicas p).counter ≤ t.counter
  clocked : t.Clocked
  content : ∃ content, t.Agrees content ∧ ∀ s, net.Had s → s.Agrees content
  only : ∀ f, t.Holds f → (∃ s, net.Had s ∧ s.Holds f) ∨
    (net.replicas p).IsNew f.opId ∧ f.opId.counter ≤ t.counter

section

variable (hs : net.Sane)
include hs

theorem Sane.held_move (hc : net.Comes p t) (hhad : (net.move p t).Had s)
    (hf : s.Holds f) : (∃ s', net.Had s' ∧ s'.Holds f) ∨
      (s = t ∧ f.opId.peer = p) ∧ (net.replicas p).IsNew f.opId ∧ f.opId.counter ≤ t.counter := by
  rcases had_move.1 hhad with hhad | rfl
  · exact .inl ⟨s, hhad, hf⟩
  · rcases hc.only f hf with hold | hnew
    · exact .inl hold
    · exact .inr ⟨⟨rfl, hnew.1.1.trans (hs.peer p)⟩, hnew⟩

/-- An op that is new to its replica has been held by nobody. -/
theorem Sane.not_held_new (hhad : net.Had s) {g : Fact} (hg : s.Holds g)
    (hpeer : g.opId.peer = p) : g.opId.counter ≤ (net.replicas p).counter := by
  have hbound := (hs.minted s hhad g hg).2
  rwa [hpeer] at hbound

theorem Sane.move (hc : net.Comes p t) : (net.move p t).Sane := by
  have hcounter : ∀ q, (net.replicas q).counter ≤ ((net.move p t).replicas q).counter := by
    intro q
    by_cases hq : q = p
    · rw [hq, move_self]
      exact hc.counter
    · rw [move_other hq]
  refine ⟨fun q => ?_, fun q => ?_, fun q => ?_, ?_, fun s hhad f hf => ?_⟩
  · by_cases hq : q = p
    · rw [hq, move_self, hc.peer]
    · rw [move_other hq, hs.peer q]
  · by_cases hq : q = p
    · rw [hq, move_self]
      exact mem_past_move.2 (.inr ⟨rfl, rfl⟩)
    · rw [move_other hq]
      exact mem_past_move.2 (.inl (hs.current q))
  · by_cases hq : q = p
    · rw [hq, move_self]
      exact hc.clocked
    · rw [move_other hq]
      exact hs.clocked q
  · obtain ⟨content, ht, hall⟩ := hc.content
    refine ⟨content, fun s hhad => ?_⟩
    rcases had_move.1 hhad with hhad | rfl
    · exact hall s hhad
    · exact ht
  · rcases hs.held_move hc hhad hf with ⟨s', hhad', hf'⟩ | ⟨⟨-, hpeer⟩, hnew, hle⟩
    · obtain ⟨hpos, hle⟩ := hs.minted s' hhad' f hf'
      exact ⟨hpos, hle.trans (hcounter _)⟩
    · rw [hpeer, move_self]
      exact ⟨Nat.zero_lt_of_lt hnew.2, hle⟩

theorem Sane.comes_edit (p : Nat) (e : TextEdit) : net.Comes p ((net.replicas p).edit e) := by
  have hgrows := grows_edit (hs.clocked p) e
  refine ⟨hgrows.peer.trans (hs.peer p), hgrows.counter, hgrows.clocked (hs.clocked p), ?_,
    fun f hf => ?_⟩
  · obtain ⟨content, hall⟩ := hs.content
    obtain ⟨content', ht, hold⟩ := hgrows.agrees content (hall _ (hs.had p))
    refine ⟨content', ht, fun s hhad id e he => ?_⟩
    rw [hold id fun hnew => ?_]
    · exact hall s hhad id e he
    -- a character that is there was minted before
    · have hle := hs.not_held_new hhad (g := .insert id e.ch e.origin) ⟨e, he, rfl, rfl, rfl⟩
        (hnew.1.trans (hs.peer p))
      exact absurd hnew.2 (not_lt.2 hle)
  · rcases hgrows.only f hf with hf | hnew
    · exact .inl ⟨_, hs.had p, hf⟩
    · exact .inr hnew

theorem Sane.comes_absorbAll (hsource : net.Had source)
    (hops : ∀ op ∈ ops, op ∈ source.toOps) : net.Comes b ((net.replicas b).absorbAll ops) := by
  obtain ⟨content, hall⟩ := hs.content
  have hagrees : ∀ op ∈ ops, (op.ch, op.origin) = content op.id := fun op hin =>
    hall _ hsource op.id op.elem (mem_toOps.1 (hops op hin))
  obtain ⟨hcounter, hcounters⟩ := (net.replicas b).counter_absorbAll ops
  refine ⟨?_, hcounter, fun f hf => ?_, ⟨content, (hall _ (hs.had b)).absorbAll hagrees, hall⟩,
    fun f hf => .inl ?_⟩
  · rw [absorbAll_peer, hs.peer b]
  · rcases holds_absorbAll hf with hf | ⟨op, hin, hf⟩
    · exact (hs.clocked b f hf).trans hcounter
    · exact hcounters op hin f hf
  · rcases holds_absorbAll hf with hf | ⟨op, hin, hf⟩
    · exact ⟨_, hs.had b, hf⟩
    · exact ⟨_, hsource, exists_toOps_holds.1 ⟨op, hops op hin, hf⟩⟩

end

/-- It loses nothing besides, and covers what it has seen. -/
structure Moves (net : TextNet) (p : Nat) (t : TextCrdt) : Prop extends Comes net p t where
  keeps : ∀ f, (net.replicas p).Covers f → t.Covers f
  closed : ∀ s, net.Had s → ∀ f, s.Holds f → t.versionVector.seen f.opId = true → t.Covers f

variable (hi : net.Inv)
include hi

theorem Inv.move (hm : net.Moves p t) : (net.move p t).Inv := by
  have hkeeps : ∀ q f, (net.replicas q).Covers f → ((net.move p t).replicas q).Covers f := by
    intro q f hf
    by_cases hq : q = p
    · rw [hq, move_self]
      exact hm.keeps f (hq ▸ hf)
    · rw [move_other hq]
      exact hf
  have hheld := fun {s f} => hi.held_move hm.toComes (s := s) (f := f)
  refine ⟨hi.toSane.move hm.toComes, fun s hs f hf => ?_, fun s s' hs hs' f hf hseen => ?_,
    fun q s hin f hf => ?_, fun parcel hin => (hi.parcels parcel hin).move⟩
  · rcases hheld hs hf with ⟨s', hs', hf'⟩ | ⟨⟨rfl, hpeer⟩, -⟩
    · exact hkeeps _ f (hi.own s' hs' f hf')
    · rw [hpeer, move_self]
      exact hf.covers
  · rcases hheld hs hf with ⟨r, hr, hfr⟩ | ⟨⟨rfl, hpeer⟩, hnew, -⟩
    · rcases had_move.1 hs' with hs' | rfl
      · exact hi.closed r s' hr hs' f hfr hseen
      · exact hm.closed r hr f hfr hseen
    -- a new op has been seen by nobody else
    · rcases had_move.1 hs' with hs' | rfl
      · rcases seen_iff.1 hseen with hzero | ⟨g, hg, hsame, hle⟩
        · exact absurd hnew.2 (by omega)
        · have hbound := hi.not_held_new hs' hg (hsame.trans hpeer)
          exact absurd hnew.2 (not_lt.2 (hle.trans hbound))
      · exact hf.covers
  · rcases mem_past_move.1 hin with hin | ⟨rfl, rfl⟩
    · exact hkeeps q f (hi.grown q s hin f hf)
    · rw [move_self]
      exact hf

/-! ## The steps -/

/-- A state covers what it has seen through a fact it holds. -/
theorem Inv.covers_of_seen (hs : net.Had s) (hr : net.Had r)
    {g : Fact} (hf : s.Holds f) (hg : r.Holds g) (hpeer : g.opId.peer = f.opId.peer)
    (hle : f.opId.counter ≤ g.opId.counter) : r.Covers f :=
  hi.closed s r hs hr f hf (seen_iff.2 (.inr ⟨g, hg, hpeer, hle⟩))

theorem Inv.seen_fact (hs : net.Had s) (hf : s.Holds f)
    (hseen : r.versionVector.seen f.opId = true) :
    ∃ g, r.Holds g ∧ g.opId.peer = f.opId.peer ∧ f.opId.counter ≤ g.opId.counter := by
  rcases seen_iff.1 hseen with hzero | hg
  · exact absurd (hi.minted s hs f hf).1 (by omega)
  · exact hg

theorem Inv.moves_edit (p : Nat) (e : TextEdit) : net.Moves p ((net.replicas p).edit e) := by
  have hgrows := grows_edit (hi.clocked p) e
  refine ⟨hi.comes_edit p e, hgrows.keeps, fun s hs f hf hseen => ?_⟩
  obtain ⟨g, hg, hpeer, hle⟩ := hi.seen_fact hs hf hseen
  refine hgrows.keeps f ?_
  rcases hgrows.only g hg with hg | ⟨hnew, -⟩
  · exact hi.covers_of_seen hs (hi.had p) hf hg hpeer hle
  · have hown := hi.own s hs f hf
    rwa [← hpeer, hnew.1, hi.peer p] at hown

theorem Inv.moves_fork (p : Nat) (hempty : (net.replicas q).elems = ∅)
    (hzero : (net.replicas q).counter = 0) : net.Moves q ((net.replicas p).fork q) := by
  refine ⟨⟨rfl, hzero ▸ Nat.zero_le _, hi.clocked p, ?_, fun f hf => ?_⟩, fun f hf => ?_,
    fun s hs f hf hseen => ?_⟩
  · obtain ⟨content, hall⟩ := hi.content
    have hagrees := hall _ (hi.had p)
    exact ⟨content, hagrees, hall⟩
  · exact .inl ⟨_, hi.had p, hf⟩
  · obtain ⟨e, he, -⟩ := hf
    rw [hempty] at he
    simp at he
  · obtain ⟨g, hg, hpeer, hle⟩ := hi.seen_fact hs hf hseen
    have hcovers := hi.covers_of_seen hs (hi.had p) hf hg hpeer hle
    exact hcovers

/-- Ops of a state, with all of it that the replica lacks. -/
structure Carries (t source : TextCrdt) (ops : List TextOp) : Prop where
  only : ∀ op ∈ ops, op ∈ source.toOps
  all : ∀ f, source.Covers f → t.Covers f ∨ ∃ op ∈ ops, op.Covers f

omit hi in
theorem Carries.agrees (h : Carries t source ops) (hsource : source.Agrees content) :
    ∀ op ∈ ops, (op.ch, op.origin) = content op.id := fun op hin =>
  hsource op.id op.elem (mem_toOps.1 (h.only op hin))

omit hi in
/-- Such ops make of the replica what the whole state makes of it. -/
theorem Carries.covers_iff (h : Carries t source ops)
    (ht : t.Agrees content) (hsource : source.Agrees content) :
    (t.absorbAll ops).Covers f ↔ t.Covers f ∨ source.Covers f := by
  rw [covers_absorbAll ht (h.agrees hsource)]
  constructor
  · rintro (hf | ⟨op, hin, hf⟩)
    · exact .inl hf
    · exact .inr (exists_toOps_covers.1 ⟨op, h.only op hin, hf⟩)
  · rintro (hf | hf)
    · exact .inl hf
    · exact h.all f hf

omit hi in
theorem carries_toOps (t source : TextCrdt) : Carries t source source.toOps :=
  ⟨fun _ => id, fun _ hf => .inr (exists_toOps_covers.2 hf)⟩

theorem Inv.moves_absorbAll (hsource : net.Had source)
    (hc : Carries (net.replicas b) source ops) : net.Moves b ((net.replicas b).absorbAll ops) := by
  obtain ⟨content, hall⟩ := hi.content
  have hcovers := fun f => hc.covers_iff (f := f) (hall _ (hi.had b)) (hall _ hsource)
  refine ⟨hi.comes_absorbAll hsource hc.only, fun f hf => (hcovers f).2 (.inl hf),
    fun s hs f hf hseen => ?_⟩
  obtain ⟨g, hg, hpeer, hle⟩ := hi.seen_fact hs hf hseen
  rw [hcovers]
  rcases holds_absorbAll hg with hg | ⟨op, hin, hg⟩
  · exact .inl (hi.covers_of_seen hs (hi.had b) hf hg hpeer hle)
  · have hg := exists_toOps_holds.1 ⟨op, hc.only op hin, hg⟩
    exact .inr (hi.covers_of_seen hs hsource hf hg hpeer hle)

/-- A delta against a vector the replica has had carries all it lacks. -/
theorem Inv.carries_deltaSince {old : TextCrdt} (hsource : net.Had source)
    (hold : old ∈ net.past b) :
    Carries (net.replicas b) source (source.deltaSince old.versionVector) := by
  refine ⟨fun op hin => (mem_filter.1 hin).1, fun f hf => ?_⟩
  obtain ⟨op, hin, hop⟩ := exists_toOps_covers.2 hf
  by_cases hdelta : op ∈ source.deltaSince old.versionVector
  · exact .inr ⟨op, hdelta, hop⟩
  -- what is left out the vector has seen
  · have hseen : ∀ g, op.Holds g → (net.replicas b).Covers g := by
      intro g hg
      have hheld : source.Holds g := exists_toOps_holds.1 ⟨op, hin, hg⟩
      refine hi.grown b old hold g (hi.closed source old hsource ⟨b, hold⟩ g hheld ?_)
      by_contra hnot
      refine hdelta (mem_filter.2 ⟨hin, ?_⟩)
      rw [Bool.not_eq_true] at hnot
      cases g with
      | insert id ch origin =>
        obtain ⟨rfl, -, -⟩ := hg
        have hnot : old.versionVector.seen op.id = false := hnot
        simp [hnot]
      | delete id del =>
        have hnot : old.versionVector.seen del = false := hnot
        simp [hg.2, hnot]
    left
    rcases hop.holds with hheld | ⟨id, d, del, rfl, hle, hheld⟩
    · exact hseen f hheld
    · obtain ⟨e, he, hid, d', hd', hle'⟩ := hseen _ hheld
      exact ⟨e, he, hid, d', hd', hle'.trans hle⟩

theorem Inv.receive (hsent : net.Sent parcel) :
    net.Moves b (receive b (net.replicas b) parcel) := by
  cases parcel with
  | state source => exact hi.moves_absorbAll hsent (carries_toOps _ _)
  | delta addressee source vector =>
    obtain ⟨hsource, old, hold, rfl⟩ := hsent
    simp only [TextNet.receive]
    split
    · rename_i heq
      subst heq
      rw [applyDelta_fst]
      exact hi.moves_absorbAll hsource (hi.carries_deltaSince hsource hold)
    · have hnone : Carries (net.replicas b) (net.replicas b) [] := ⟨by simp, fun _ => .inl⟩
      exact hi.moves_absorbAll (hi.had b) hnone

theorem Inv.step (e : TextEvent) : (net.step e).Inv := by
  cases e with
  | edit p e => exact hi.move (hi.moves_edit p e)
  | fork p q =>
    simp only [TextNet.step]
    split
    · rename_i hfresh
      exact hi.move (hi.moves_fork p hfresh.1 hfresh.2)
    · exact hi
  | sendState a =>
    refine ⟨⟨hi.peer, hi.current, hi.clocked, hi.content, hi.minted⟩, hi.own, hi.closed, hi.grown,
      fun parcel hin => ?_⟩
    rcases mem_append.1 hin with hin | hin
    · exact hi.parcels parcel hin
    · rw [mem_singleton.1 hin]
      exact hi.had a
  | sendDelta a b index =>
    simp only [TextNet.step]
    split
    · rename_i old hold
      refine ⟨⟨hi.peer, hi.current, hi.clocked, hi.content, hi.minted⟩, hi.own, hi.closed,
        hi.grown, fun parcel hin => ?_⟩
      rcases mem_append.1 hin with hin | hin
      · exact hi.parcels parcel hin
      · rw [mem_singleton.1 hin]
        exact ⟨hi.had a, old, mem_of_getElem? hold, rfl⟩
    · exact hi
  | deliver b index =>
    simp only [TextNet.step]
    split
    · rename_i parcel hparcel
      exact hi.move (hi.receive (hi.parcels parcel (mem_of_getElem? hparcel)))
    · exact hi
  | lose index =>
    exact ⟨⟨hi.peer, hi.current, hi.clocked, hi.content, hi.minted⟩, hi.own, hi.closed, hi.grown,
      fun parcel hin => hi.parcels parcel (mem_of_mem_eraseIdx hin)⟩

theorem Inv.run (es : List TextEvent) : (net.run es).Inv :=
  foldl_invariant hi fun _ e hi => hi.step e

end TextNet

end Lazily.Text
