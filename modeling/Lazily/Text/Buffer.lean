import Lazily.Lib.Preorder
import Lazily.Lib.SortedMap
import Lazily.Crdt.Plane

/-!
# The text buffer (`text_crdt.rs`)

A character has an id and a left origin, the character it was typed after. The text is the preorder
of the origin tree with the newest child first; deletes are tombstones. Replicas exchange whole
states or, against a version vector, the ops the vector has not seen.

The elements are a map that iterates by id. Where the order in which the code's hash map iterates
can be seen, it is an argument (`replaceAll`).
-/

namespace Lazily.Text

open Lib List SortedMap Std.ExtTreeMap
open Crdt (OpId CrdtPlane)
open scoped SortedSet

/-! ## Elements -/

/-- One character; `deleted` is the id of the deletion. -/
structure Elem where
  ch : Char
  origin : Option OpId
  deleted : Option OpId
  deriving DecidableEq, Repr

structure TextOp where
  id : OpId
  ch : Char
  origin : Option OpId
  deleted : Option OpId
  deriving DecidableEq, Repr

def TextOp.elem (op : TextOp) : Elem := ⟨op.ch, op.origin, op.deleted⟩

/-- The greatest counter seen of each peer. -/
abbrev TextVersionVector := SortedMap Nat Nat

namespace TextVersionVector

/-- Raise the entry of the op's peer to its counter. -/
def bump (vv : TextVersionVector) (id : OpId) : TextVersionVector :=
  vv.insert id.peer (max (vv[id.peer]?.getD 0) id.counter)

def seen (vv : TextVersionVector) (id : OpId) : Bool := id.counter ≤ vv[id.peer]?.getD 0

end TextVersionVector

/-- Tombstones stay; of two deletions the one with the smaller id does. -/
def mergeDeleted : Option OpId → Option OpId → Option OpId
  | some a, some b => some (min a b)
  | a, b => a.or b

structure TextCrdt where
  elems : SortedMap OpId Elem
  peer : Nat
  counter : Nat

namespace TextCrdt

def new (peer : Nat) : TextCrdt := ⟨∅, peer, 0⟩

def fork (t : TextCrdt) (peer : Nat) : TextCrdt := { t with peer := peer }

def nextId (t : TextCrdt) : TextCrdt × OpId :=
  ({ t with counter := t.counter + 1 }, ⟨t.counter + 1, t.peer⟩)

/-! ## The order -/

def originOf (t : TextCrdt) (id : OpId) : Option OpId := t.elems[id]?.bind (·.origin)

def isLive (t : TextCrdt) (id : OpId) : Bool := t.elems[id]?.any (·.deleted.isNone)

def ids (t : TextCrdt) : List OpId := t.elems.keys.reverse

/-- The ids in the order of the origin tree, siblings newest first. -/
def orderedIds (t : TextCrdt) (includeDeleted : Bool) : List OpId :=
  (preorder t.ids t.originOf).filter fun id => includeDeleted || t.isLive id

def text (t : TextCrdt) : List Char :=
  (t.orderedIds false).filterMap fun id => t.elems[id]?.map (·.ch)

def len (t : TextCrdt) : Nat := (t.elems.vals.filter (·.deleted.isNone)).length

/-! ## Edits -/

def insertAfter (t : TextCrdt) (origin : Option OpId) (ch : Char) : TextCrdt :=
  let (t', id) := t.nextId
  { t' with elems := t'.elems.insert id ⟨ch, origin, none⟩ }

/-- Insert at a visible index; past the end the origin is the document start. -/
def insert (t : TextCrdt) (index : Nat) (ch : Char) : TextCrdt :=
  t.insertAfter (if index = 0 then none else (t.orderedIds false)[index - 1]?) ch

/-- Insert characters, each after the one before. -/
def insertChain (t : TextCrdt) (origin : Option OpId) : List Char → TextCrdt
  | [] => t
  | ch :: s => insertChain (t.insertAfter origin ch) (some t.nextId.2) s

/-- Insert each character at its own index. -/
def insertEach (t : TextCrdt) (index : Nat) : List Char → TextCrdt
  | [] => t
  | ch :: s => insertEach (t.insert index ch) (index + 1) s

def insertStr (t : TextCrdt) (index : Nat) (s : List Char) : TextCrdt :=
  let visible := t.orderedIds false
  if visible.length < index then t.insertEach index s
  else t.insertChain (if index = 0 then none else visible[index - 1]?) s

def appendRootChain (t : TextCrdt) (s : List Char) : TextCrdt := t.insertChain none s

def fromStr (peer : Nat) (s : List Char) : TextCrdt := (new peer).appendRootChain s

def tombstone (t : TextCrdt) (id del : OpId) : TextCrdt :=
  match t.elems[id]? with
  | some e =>
    if e.deleted = none then { t with elems := t.elems.insert id { e with deleted := some del } }
    else t
  | none => t

/-- Tombstone ids in turn, minting an id for each deletion. -/
def deleteIds (t : TextCrdt) : List OpId → TextCrdt
  | [] => t
  | id :: ids => deleteIds (t.nextId.1.tombstone id t.nextId.2) ids

def deleteRange (t : TextCrdt) (index len : Nat) : TextCrdt :=
  let visible := t.orderedIds false
  let stop := min (index + len) visible.length
  t.deleteIds ((visible.drop index).take (stop - index))

def delete (t : TextCrdt) (index : Nat) : TextCrdt := t.deleteRange index 1

/-- Replace the whole buffer; `order` are the live ids as the hash map yields them. -/
def replaceAll (t : TextCrdt) (order : List OpId) (s : List Char) : TextCrdt :=
  (t.deleteIds order).appendRootChain s

/-! ## Exchange -/

def toOp (id : OpId) (e : Elem) : TextOp := ⟨id, e.ch, e.origin, e.deleted⟩

/-- Take in one element: the body of the loops of `merge` and `apply_delta_unprojected`. -/
def absorb (t : TextCrdt) (op : TextOp) : TextCrdt :=
  { t with
    counter := max (max t.counter op.id.counter) (op.deleted.elim 0 (·.counter))
    elems :=
      match t.elems[op.id]? with
      | some e => t.elems.insert op.id { e with deleted := mergeDeleted e.deleted op.deleted }
      | none => t.elems.insert op.id op.elem }

def absorbAll (t : TextCrdt) (ops : List TextOp) : TextCrdt := ops.foldl absorb t

def toOps (t : TextCrdt) : List TextOp := t.elems.toList.map fun e => toOp e.1 e.2

def merge (t other : TextCrdt) : TextCrdt × Bool :=
  let t' := t.absorbAll other.toOps
  (t', t'.text != t.text)

def versionVector (t : TextCrdt) : TextVersionVector :=
  t.toOps.foldl (fun vv op => op.deleted.elim (vv.bump op.id) (vv.bump op.id).bump) ∅

/-- The ops a vector has not seen, by their insertion or by their deletion. -/
def deltaSince (t : TextCrdt) (theirVv : TextVersionVector) : List TextOp :=
  t.toOps.filter fun op => !theirVv.seen op.id || op.deleted.any (!theirVv.seen ·)

/-- Whether taking in an op changes the elements. -/
def absorbs (t : TextCrdt) (op : TextOp) : Bool :=
  match t.elems[op.id]? with
  | some e => mergeDeleted e.deleted op.deleted != e.deleted
  | none => true

/-- Apply a delta; whether the elements or the counter changed. -/
def applyDeltaUnprojected (t : TextCrdt) (ops : List TextOp) : TextCrdt × Bool :=
  let r := ops.foldl (fun acc op => (acc.1.absorb op, acc.2 || acc.1.absorbs op)) (t, false)
  (r.1, r.2 || r.1.counter != t.counter)

/-- Apply a delta; whether the visible text changed. -/
def applyDelta (t : TextCrdt) (ops : List TextOp) : TextCrdt × Bool :=
  let t' := (t.applyDeltaUnprojected ops).1
  (t', t'.text != t.text)

end TextCrdt

/-!
## Collecting tombstones (`gc_with`, `gc_text`)

A pass removes the stable tombstones that no element has as its origin; passes repeat until one
removes nothing. `gc_text` takes for stable what is at or below the op frontier of the plane.
-/

namespace TextCrdt

variable {t : TextCrdt} {isStable : OpId → Bool} {id : OpId}

def isReferenced (t : TextCrdt) (id : OpId) : Bool := t.elems.vals.any (·.origin = some id)

/-- What one pass removes. -/
def collectable (t : TextCrdt) (isStable : OpId → Bool) : List OpId :=
  (t.elems.toList.filter fun e => e.2.deleted.any isStable && !t.isReferenced e.1).map Prod.fst

def removeAll (t : TextCrdt) (ids : List OpId) : TextCrdt :=
  { t with elems := ids.foldl (fun elems id => elems.erase id) t.elems }

/-- Passes until one finds nothing; with the number of elements removed. -/
def gcLoop (isStable : OpId → Bool) : Nat → TextCrdt → Nat → TextCrdt × Nat
  | 0, t, removed => (t, removed)
  | fuel + 1, t, removed =>
    let ids := t.collectable isStable
    if ids = [] then (t, removed)
    else gcLoop isStable fuel (t.removeAll ids) (removed + ids.length)

/-- Every pass but the last removes an element, so there are no more passes than elements. -/
def gcWith (t : TextCrdt) (isStable : OpId → Bool) : TextCrdt × Nat :=
  gcLoop isStable t.elems.size t 0

theorem mem_collectable : id ∈ t.collectable isStable ↔
    (∃ e, t.elems[id]? = some e ∧ e.deleted.any isStable = true) ∧ t.isReferenced id = false := by
  unfold collectable
  rw [mem_map]
  constructor
  · rintro ⟨⟨i, e⟩, hin, rfl⟩
    obtain ⟨hin, hboth⟩ := mem_filter.1 hin
    rw [Bool.and_eq_true, Bool.not_eq_true'] at hboth
    exact ⟨⟨e, mem_toList_iff_getElem?_eq_some.1 hin, hboth.1⟩, hboth.2⟩
  · rintro ⟨⟨e, he, hdeleted⟩, hfree⟩
    refine ⟨(id, e), mem_filter.2 ⟨?_, ?_⟩, rfl⟩
    · exact mem_toList_iff_getElem?_eq_some.2 he
    · rw [hdeleted, hfree]
      rfl

theorem isReferenced_iff :
    t.isReferenced id = true ↔ ∃ (i : OpId) (e : Elem), t.elems[i]? = some e ∧
      e.origin = some id := by
  unfold isReferenced
  rw [any_eq_true]
  constructor
  · rintro ⟨e, hin, horigin⟩
    obtain ⟨i, hi⟩ := mem_vals.1 hin
    exact ⟨i, e, hi, of_decide_eq_true horigin⟩
  · rintro ⟨i, e, hi, horigin⟩
    exact ⟨e, mem_vals.2 ⟨i, hi⟩, decide_eq_true horigin⟩

theorem removeAll_get (ids : List OpId) :
    (t.removeAll ids).elems[id]? = if id ∈ ids then none else t.elems[id]? := by
  unfold removeAll
  dsimp only
  generalize t.elems = elems
  induction ids generalizing elems with
  | nil => simp
  | cons i ids ih =>
    rw [foldl_cons, ih, get_erase]
    by_cases hi : i = id
    · simp [hi]
    · by_cases hin : id ∈ ids <;> simp [hi, hin, Ne.symm hi]

end TextCrdt

/-- Whether an op is at or below the frontier of the text layer. -/
def isOpCollectable (plane : CrdtPlane) (op : OpId) : Bool := plane.opStabilityFrontier.any (op ≤ ·)

/-- Collect the tombstones at or below the frontier; none before every member has been seen. -/
def gcText (plane : CrdtPlane) (t : TextCrdt) : TextCrdt × Nat :=
  match plane.opStabilityFrontier with
  | some frontier => t.gcWith (· ≤ frontier)
  | none => (t, 0)

end Lazily.Text
