import Lazily.Lib.Reorder

/-!
# The keyed bookkeeping core of the map family

`KeyedOrder K H` is the present set with its key order (`keyed_order.rs`). The hash map of handles
is its lookup function. `entries` and `order` are kept in lockstep: that every key of one is in the
other, exactly once, is part of the type, so each mutator is a proof that it keeps them so.
`apply_spec` is what each of them does to the order and the handles; the moves are relocations
(`moveTo_order`, `moves_at_anchor`).
-/

namespace Lazily

open Lib.Reorder

inductive Mutation where
  | changed
  | unchanged
  deriving DecidableEq, Repr

inductive Move where
  | absent
  | unchanged
  | reordered
  deriving DecidableEq, Repr

namespace Move

def isPresent (m : Move) : Bool := m != .absent

def changed (m : Move) : Bool := m == .reordered

end Move

/-- The present set and its authoritative key order, in lockstep. -/
structure KeyedOrder (K H : Type) where
  entries : K → Option H
  order : List K
  nodup : order.Nodup
  lockstep : ∀ k, k ∈ order ↔ (entries k).isSome

namespace KeyedOrder

variable {K H : Type} [DecidableEq K]

def new : KeyedOrder K H where
  entries := fun _ => none
  order := []
  nodup := List.nodup_nil
  lockstep := by simp

def get (o : KeyedOrder K H) (key : K) : Option H := o.entries key

def contains (o : KeyedOrder K H) (key : K) : Bool := (o.entries key).isSome

variable {o : KeyedOrder K H} {key : K}

omit [DecidableEq K] in
theorem notMem_of_get (h : o.entries key = none) : key ∉ o.order := fun hk => by
  simpa [h] using (o.lockstep key).1 hk

def push (o : KeyedOrder K H) (key : K) (handle : H) (h : o.entries key = none) :
    KeyedOrder K H where
  entries := Function.update o.entries key (some handle)
  order := o.order ++ [key]
  nodup := List.nodup_append_comm.1 (List.nodup_cons.2 ⟨notMem_of_get h, o.nodup⟩)
  lockstep k := by
    by_cases hk : k = key
    · simp [hk]
    · simp [hk, o.lockstep]

def insert (o : KeyedOrder K H) (key : K) (handle : H) : KeyedOrder K H × H × Mutation :=
  match h : o.entries key with
  | some existing => (o, existing, .unchanged)
  | none => (o.push key handle h, handle, .changed)

def drop (o : KeyedOrder K H) (key : K) : KeyedOrder K H where
  entries := Function.update o.entries key none
  order := o.order.filter (· ≠ key)
  nodup := o.nodup.filter _
  lockstep k := by
    by_cases hk : k = key
    · simp [hk]
    · simp [hk, o.lockstep]

def remove (o : KeyedOrder K H) (key : K) : KeyedOrder K H × Option H × Mutation :=
  match o.entries key with
  | none => (o, none, .unchanged)
  | some handle => (o.drop key, some handle, .changed)

def keys (o : KeyedOrder K H) : List K := o.order

def len (o : KeyedOrder K H) : Nat := o.order.length

def position (o : KeyedOrder K H) (key : K) : Option Nat := o.order.idxOf? key

theorem position_lt {i : Nat} (h : o.position key = some i) :
    ∃ hi : i < o.order.length, o.order[i] = key := by
  obtain ⟨hi, hk, -⟩ := List.idxOf?_eq_some_iff.1 h
  exact ⟨hi, hk⟩

/-- Removing at the position and inserting at the clamped index is a relocation. -/
theorem insertIdx_clamped {i : Nat} (h : o.position key = some i) (index : Nat) :
    (o.order.eraseIdx i).insertIdx (min index (o.order.length - 1)) key =
      relocate o.order index key := by
  obtain ⟨hi, hk⟩ := position_lt h
  have herase : o.order.eraseIdx i = o.order.erase key := by
    rw [List.erase_eq_eraseIdx, show o.order.idxOf? key = some i from h]
  rw [herase, ← List.length_erase_of_mem (hk ▸ List.getElem_mem hi), insertIdx_min, relocate]

def reorder (o : KeyedOrder K H) (key : K) (i index : Nat) (h : o.position key = some i) :
    KeyedOrder K H where
  entries := o.entries
  order := (o.order.eraseIdx i).insertIdx (min index (o.order.length - 1)) key
  nodup := by
    rw [insertIdx_clamped h]
    exact nodup_relocate o.nodup index key
  lockstep k := by
    obtain ⟨hi, hk⟩ := position_lt h
    rw [insertIdx_clamped h, mem_relocate, o.lockstep]
    refine or_iff_right_of_imp ?_
    rintro rfl
    exact (o.lockstep k).1 (hk ▸ List.getElem_mem hi)

def moveTo (o : KeyedOrder K H) (key : K) (index : Nat) : KeyedOrder K H × Move :=
  match h : o.position key with
  | none => (o, .absent)
  | some i =>
    if i = min index (o.order.length - 1) then (o, .unchanged)
    else (o.reorder key i index h, .reordered)

def moveBefore (o : KeyedOrder K H) (key anchor : K) : KeyedOrder K H × Move :=
  match o.position anchor, o.position key with
  | some anchorIdx, some i => o.moveTo key (if i < anchorIdx then anchorIdx - 1 else anchorIdx)
  | _, _ => (o, .absent)

def moveAfter (o : KeyedOrder K H) (key anchor : K) : KeyedOrder K H × Move :=
  match o.position anchor, o.position key with
  | some anchorIdx, some i => o.moveTo key (if i ≤ anchorIdx then anchorIdx else anchorIdx + 1)
  | _, _ => (o, .absent)

/-! ## What the mutators do to the two planes -/

section Lemmas

variable {o : KeyedOrder K H} {key : K}

@[simp] theorem moveTo_entries {index : Nat} : (o.moveTo key index).1.entries = o.entries := by
  unfold moveTo
  split
  · rfl
  · split <;> rfl

/-- A move takes the key out and puts it back at the index, also where it reports no change. -/
theorem moveTo_order (index : Nat) (h : key ∈ o.order) :
    (o.moveTo key index).1.order = relocate o.order index key := by
  unfold moveTo
  split
  · rename_i hpos
    exact absurd h (List.idxOf?_eq_none_iff.1 hpos)
  · rename_i i hpos
    split
    · rename_i heq
      obtain ⟨hi, hk⟩ := position_lt hpos
      have hself := List.insertIdx_eraseIdx_getElem hi
      rw [hk] at hself
      rw [← insertIdx_clamped hpos, ← heq, hself]
    · exact insertIdx_clamped hpos index

end Lemmas

/-! ## Operations -/

inductive Op (K H : Type) where
  | insert (key : K) (handle : H)
  | remove (key : K)
  | moveTo (key : K) (index : Nat)
  | moveBefore (key anchor : K)
  | moveAfter (key anchor : K)

/-- The core after an operation, and whether the outcome reports a change. -/
def apply (o : KeyedOrder K H) : Op K H → KeyedOrder K H × Bool
  | .insert key handle => ((o.insert key handle).1, (o.insert key handle).2.2 = .changed)
  | .remove key => ((o.remove key).1, (o.remove key).2.2 = .changed)
  | .moveTo key index => ((o.moveTo key index).1, (o.moveTo key index).2.changed)
  | .moveBefore key anchor => ((o.moveBefore key anchor).1, (o.moveBefore key anchor).2.changed)
  | .moveAfter key anchor => ((o.moveAfter key anchor).1, (o.moveAfter key anchor).2.changed)

def Op.subject : Op K H → K
  | .insert key _ | .remove key | .moveTo key _ | .moveBefore key _ | .moveAfter key _ => key

/-- What becomes of the key of an operation: an insertion puts it at the end, a move takes it to the
index (of the last key at most) or next to the anchor. An insertion of a present key, a removal or
move of an absent one and a move next to an absent anchor or to the key itself change nothing. -/
def Lands (o o' : KeyedOrder K H) : Op K H → Prop
  | .insert key handle => o'.entries key = some ((o.entries key).getD handle) ∧
      if key ∈ o.order then o' = o else o'.order = o.order ++ [key]
  | .remove key => o'.entries key = none ∧ (key ∉ o.order → o' = o)
  | .moveTo key index => o'.entries key = o.entries key ∧
      if key ∈ o.order then o'.position key = some (min index (o.len - 1)) else o' = o
  | .moveBefore key anchor => o'.entries key = o.entries key ∧
      if key ∈ o.order ∧ anchor ∈ o.order ∧ key ≠ anchor then
        ∃ front back, o'.order = front ++ key :: anchor :: back
      else o' = o
  | .moveAfter key anchor => o'.entries key = o.entries key ∧
      if key ∈ o.order ∧ anchor ∈ o.order ∧ key ≠ anchor then
        ∃ front back, o'.order = front ++ anchor :: key :: back
      else o' = o

variable {anchor : K}

theorem position_eq_none : o.position key = none ↔ key ∉ o.order := List.idxOf?_eq_none_iff

theorem exists_position (h : key ∈ o.order) : ∃ i, o.position key = some i :=
  Option.ne_none_iff_exists'.1 fun hn => position_eq_none.1 hn h

theorem moveTo_absent (index : Nat) (h : key ∉ o.order) : o.moveTo key index = (o, .absent) := by
  unfold moveTo
  split
  · rfl
  · rename_i hpos
    rw [position_eq_none.2 h] at hpos
    cases hpos

theorem position_moveTo (index : Nat) (h : key ∈ o.order) :
    (o.moveTo key index).1.position key = some (min index (o.len - 1)) := by
  have hnodup := (o.moveTo key index).1.nodup
  have hlength := List.length_erase_of_mem h
  have hget : (o.moveTo key index).1.order[min index (o.len - 1)]? = some key := by
    rw [moveTo_order index h, relocate, ← insertIdx_min, hlength, len]
    simp [List.getElem?_insertIdx, hlength]
  obtain ⟨hlt, hkey⟩ := List.getElem?_eq_some_iff.1 hget
  refine List.idxOf?_eq_some_iff.2 ⟨hlt, hkey, fun j hj hjk => ?_⟩
  exact absurd (hnodup.getElem_inj_iff.1 (hjk.trans hkey.symm)) (Nat.ne_of_lt hj)

theorem moveTo_position {i : Nat} (h : o.position key = some i) : (o.moveTo key i).1 = o := by
  obtain ⟨hlt, -⟩ := position_lt h
  have hclamp : i = min i (o.order.length - 1) := by omega
  unfold moveTo
  split
  · rfl
  · rename_i j hj
    obtain rfl : i = j := Option.some.inj (h.symm.trans hj)
    rw [if_pos hclamp]

/-- A move next to a present anchor that does nothing is one next to the key itself. -/
theorem position_anchor {a i : Nat} (h : ¬(key ∈ o.order ∧ anchor ∈ o.order ∧ key ≠ anchor))
    (ha : o.position anchor = some a) (hi : o.position key = some i) : a = i := by
  have heq : key = anchor := by
    by_contra hne
    obtain ⟨hilt, hkey⟩ := position_lt hi
    obtain ⟨halt, hat⟩ := position_lt ha
    exact h ⟨hkey ▸ List.getElem_mem hilt, hat ▸ List.getElem_mem halt, hne⟩
  subst heq
  exact Option.some.inj (ha.symm.trans hi)

theorem moveBefore_still (h : ¬(key ∈ o.order ∧ anchor ∈ o.order ∧ key ≠ anchor)) :
    (o.moveBefore key anchor).1 = o := by
  unfold moveBefore
  split
  · rename_i a i ha hi
    rw [position_anchor h ha hi, if_neg (Nat.lt_irrefl i), moveTo_position hi]
  · rfl

theorem moveAfter_still (h : ¬(key ∈ o.order ∧ anchor ∈ o.order ∧ key ≠ anchor)) :
    (o.moveAfter key anchor).1 = o := by
  unfold moveAfter
  split
  · rename_i a i ha hi
    rw [position_anchor h ha hi, if_pos (Nat.le_refl i), moveTo_position hi]
  · rfl

/-- What every move keeps, and what its outcome says. -/
structure Moved (o : KeyedOrder K H) (key : K) (r : KeyedOrder K H × Move) : Prop where
  entries : r.1.entries = o.entries
  others : r.1.order.erase key = o.order.erase key
  reported : r.2.changed = true ↔ r.1.order ≠ o.order

theorem moved_absent : o.Moved key (o, .absent) := ⟨rfl, rfl, by simp [Move.changed]⟩

theorem moved_moveTo (o : KeyedOrder K H) (key : K) (index : Nat) :
    o.Moved key (o.moveTo key index) := by
  by_cases h : key ∈ o.order
  · refine ⟨moveTo_entries, ?_, ?_⟩
    · rw [moveTo_order index h, relocate, List.erase_append_right]
      · simp
      · exact fun hmem => o.nodup.not_mem_erase (List.mem_of_mem_take hmem)
    · have hpos := position_moveTo index h
      revert hpos
      unfold moveTo
      split
      · simp [Move.changed]
      · rename_i i hi
        split
        · simp [Move.changed]
        · rename_i hne
          intro hpos
          refine iff_of_true rfl fun horder => hne ?_
          rw [position, horder] at hpos
          exact Option.some.inj (hi.symm.trans hpos)
  · rw [moveTo_absent index h]
    exact moved_absent

theorem moveTo_at {front back : List K} (h : key ∈ o.order)
    (hsplit : o.order.erase key = front ++ back) :
    (o.moveTo key front.length).1.order = front ++ key :: back := by
  rw [moveTo_order _ h, relocate, hsplit, List.take_left, List.drop_left]

/-- The other keys split at the anchor, and both moves go to that split: the index of the anchor
among all keys is one more if the key precedes it. -/
theorem moves_at_anchor (hk : key ∈ o.order) (hanchor : anchor ∈ o.order) (hne : key ≠ anchor) :
    ∃ front back, o.order.erase key = front ++ anchor :: back ∧
      o.moveBefore key anchor = o.moveTo key front.length ∧
      o.moveAfter key anchor = o.moveTo key (front ++ [anchor]).length := by
  obtain ⟨i, hi⟩ := exists_position hk
  obtain ⟨a, ha⟩ := exists_position hanchor
  obtain ⟨hilt, hkey⟩ := position_lt hi
  obtain ⟨halt, hat⟩ := position_lt ha
  have hia : i ≠ a := by
    rintro rfl
    exact hne (hkey.symm.trans hat)
  obtain ⟨t, ht⟩ : ∃ t, t = if i < a then a - 1 else a := ⟨_, rfl⟩
  have hget : (o.order.erase key)[t]? = some anchor := by
    rw [List.erase_eq_eraseIdx, show o.order.idxOf? key = some i from hi, ht]
    simp only [List.getElem?_eraseIdx]
    split
    · rw [if_neg (by omega), Nat.sub_add_cancel (by omega), List.getElem?_eq_getElem halt, hat]
    · rw [if_pos (by omega), List.getElem?_eq_getElem halt, hat]
  obtain ⟨hlt, hsplit⟩ := List.getElem?_eq_some_iff.1 hget
  have hlength := List.length_take_of_le (Nat.le_of_lt hlt)
  refine ⟨(o.order.erase key).take t, (o.order.erase key).drop (t + 1), ?_, ?_, ?_⟩
  · rw [← hsplit, List.getElem_cons_drop, List.take_append_drop]
  · simp only [moveBefore, hi, ha, hlength, ← ht]
  · have hafter : (if i ≤ a then a else a + 1) = t + 1 := by
      split_ifs at ht ⊢ <;> omega
    simp only [moveAfter, hi, ha, List.length_append, hlength, List.length_singleton, hafter]

theorem insert_cases (o : KeyedOrder K H) (key : K) (handle : H) :
    (∃ existing, o.entries key = some existing ∧ o.insert key handle = (o, existing, .unchanged)) ∨
    ∃ h, o.insert key handle = (o.push key handle h, handle, .changed) := by
  unfold insert
  split
  · rename_i existing h
    exact .inl ⟨existing, h, rfl⟩
  · rename_i h
    exact .inr ⟨h, rfl⟩

/-- An operation keeps the handles and the relative order of the other keys, takes its own key where
it should, and reports a change exactly if the key sequence changed. -/
theorem apply_spec (o : KeyedOrder K H) (op : Op K H) :
    (∀ k ≠ op.subject, (o.apply op).1.entries k = o.entries k) ∧
      (o.apply op).1.order.erase op.subject = o.order.erase op.subject ∧
      ((o.apply op).2 = true ↔ (o.apply op).1.order ≠ o.order) ∧ o.Lands (o.apply op).1 op := by
  have hmoved : ∀ {key r}, o.Moved key r → (∀ k ≠ key, r.1.entries k = o.entries k) ∧
      r.1.order.erase key = o.order.erase key ∧ (r.2.changed = true ↔ r.1.order ≠ o.order) ∧
        r.1.entries key = o.entries key :=
    fun h => ⟨fun k _ => by rw [h.entries], h.others, h.reported, by rw [h.entries]⟩
  cases op with
  | insert key handle =>
    rcases insert_cases o key handle with ⟨existing, hk, heq⟩ | ⟨hk, heq⟩
    · have hmem : key ∈ o.order := (o.lockstep key).2 (by simp [hk])
      simp [apply, heq, Lands, hk, hmem]
    · have hmem := notMem_of_get hk
      simp +contextual [apply, heq, Op.subject, Lands, push, hk, hmem, List.erase_append_right,
        List.erase_of_not_mem]
  | remove key =>
    cases hk : o.entries key with
    | none =>
      have heq : o.remove key = (o, none, .unchanged) := by simp [remove, hk]
      simp [apply, heq, Lands, hk]
    | some handle =>
      have hmem : key ∈ o.order := (o.lockstep key).2 (by simp [hk])
      have heq : o.remove key = (o.drop key, some handle, .changed) := by simp [remove, hk]
      have herase : o.order.erase key = (o.drop key).order := by
        rw [o.nodup.erase_eq_filter]
        exact List.filter_congr fun k _ => by simp [bne, beq_eq_decide]
      simp +contextual [apply, heq, Op.subject, Lands, herase, drop, hmem]
  | moveTo key index =>
    obtain ⟨hothers, herase, hflag, hkey⟩ := hmoved (moved_moveTo o key index)
    refine ⟨hothers, herase, hflag, hkey, ?_⟩
    split
    · rename_i hk
      exact position_moveTo index hk
    · rename_i hk
      exact congrArg (·.1) (moveTo_absent index hk)
  | moveBefore key anchor =>
    have h : o.Moved key (o.moveBefore key anchor) := by
      unfold moveBefore
      split
      · exact moved_moveTo ..
      · exact moved_absent
    obtain ⟨hothers, herase, hflag, hkey⟩ := hmoved h
    refine ⟨hothers, herase, hflag, hkey, ?_⟩
    split
    · rename_i hcond
      obtain ⟨hk, ha, hne⟩ := hcond
      obtain ⟨front, back, hsplit, hbefore, -⟩ := moves_at_anchor hk ha hne
      exact ⟨front, back, (congrArg (·.1.order) hbefore).trans (moveTo_at hk hsplit)⟩
    · rename_i hstill
      exact moveBefore_still hstill
  | moveAfter key anchor =>
    have h : o.Moved key (o.moveAfter key anchor) := by
      unfold moveAfter
      split
      · exact moved_moveTo ..
      · exact moved_absent
    obtain ⟨hothers, herase, hflag, hkey⟩ := hmoved h
    refine ⟨hothers, herase, hflag, hkey, ?_⟩
    split
    · rename_i hcond
      obtain ⟨hk, ha, hne⟩ := hcond
      obtain ⟨front, back, hsplit, -, hafter⟩ := moves_at_anchor hk ha hne
      refine ⟨front, back, ?_⟩
      have hat := moveTo_at hk (hsplit.trans (List.append_cons front anchor back))
      rwa [← hafter, List.append_assoc] at hat
    · rename_i hstill
      exact moveAfter_still hstill

end KeyedOrder

end Lazily
