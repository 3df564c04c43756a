import Mathlib.Data.List.Sort
import Mathlib.Algebra.Ring.Nat
import Mathlib.Order.Lattice
import Mathlib.Tactic.Common

/-!
# Sorted sets over a linear order

`Std.ExtTreeSet` with the comparison of a linear order: the membership lemmas without the
comparison.
-/

namespace Lazily.Lib

open Std.ExtTreeMap Prod

variable {σ : Type} [LinearOrder σ]

abbrev SortedSet (σ : Type) [LinearOrder σ] := Std.ExtTreeSet σ

namespace SortedSet

scoped instance : Std.TransCmp (compare : σ → σ → Ordering) := inferInstance

scoped instance : Std.LawfulEqCmp (compare : σ → σ → Ordering) where
  eq_of_compare h := compare_eq_iff_eq.1 h

variable {set : SortedSet σ} {a b : σ}

@[simp] theorem mem_insert_iff : a ∈ set.insert b ↔ a = b ∨ a ∈ set := by
  rw [Std.ExtTreeSet.mem_insert, Std.LawfulEqCmp.compare_eq_iff_eq, eq_comm]

@[simp] theorem mem_erase_iff : a ∈ set.erase b ↔ a ≠ b ∧ a ∈ set := by
  rw [Std.ExtTreeSet.mem_erase, ne_eq, Std.LawfulEqCmp.compare_eq_iff_eq, eq_comm]

@[simp] theorem mem_filter_iff {f : σ → Bool} : a ∈ set.filter f ↔ a ∈ set ∧ f a = true := by
  simp [Std.ExtTreeSet.mem_filter]

def insertAll (set : SortedSet σ) (l : List σ) : SortedSet σ :=
  l.foldl (fun set a => set.insert a) set

@[simp] theorem mem_insertAll_iff {l : List σ} : a ∈ set.insertAll l ↔ a ∈ set ∨ a ∈ l := by
  unfold insertAll
  induction l generalizing set with
  | nil => simp
  | cons b l ih =>
    rw [List.foldl_cons, ih, mem_insert_iff, List.mem_cons, or_comm (a := a = b), or_assoc]

end SortedSet

/-!
## Sorted maps over a linear order

`Std.ExtTreeMap` with the comparison of a linear order: the lookup lemmas without the comparison.
-/

variable {κ β : Type} [LinearOrder κ]

abbrev SortedMap (κ β : Type) [LinearOrder κ] := Std.ExtTreeMap κ β

namespace SortedMap

open scoped SortedSet

variable {m : SortedMap κ β} {k a : κ} {v : β} {l : List (κ × β)}

@[simp] theorem get_insert : (m.insert k v)[a]? = if k = a then some v else m[a]? := by
  simp only [getElem?_insert, Std.LawfulEqCmp.compare_eq_iff_eq]

@[simp] theorem get_erase : (m.erase k)[a]? = if k = a then none else m[a]? := by
  simp only [getElem?_erase, Std.LawfulEqCmp.compare_eq_iff_eq]

theorem get_filter_eq_some {f : κ → β → Bool} :
    (m.filter f)[a]? = some v ↔ m[a]? = some v ∧ f a v = true := by
  rw [getElem?_filter', Option.filter_eq_some_iff]

theorem mem_iff_exists : a ∈ m ↔ ∃ v, m[a]? = some v := by
  rw [mem_iff_isSome_getElem?, Option.isSome_iff_exists]

theorem mem_of_get (h : m[a]? = some v) : a ∈ m := mem_iff_exists.2 ⟨v, h⟩

theorem not_mem_iff : a ∉ m ↔ m[a]? = none := by
  rw [mem_iff_exists]
  cases m[a]? <;> simp

@[simp] theorem mem_insert_iff : a ∈ m.insert k v ↔ a = k ∨ a ∈ m := by
  rw [mem_insert, Std.LawfulEqCmp.compare_eq_iff_eq, eq_comm]

@[simp] theorem mem_erase_iff : a ∈ m.erase k ↔ a ≠ k ∧ a ∈ m := by
  rw [mem_erase, ne_eq, Std.LawfulEqCmp.compare_eq_iff_eq, eq_comm]

def vals (m : SortedMap κ β) : List β := m.toList.map Prod.snd

theorem mem_vals : v ∈ m.vals ↔ ∃ k : κ, m[k]? = some v := by
  simp only [vals, List.mem_map, Prod.exists, exists_eq_right, mem_toList_iff_getElem?_eq_some]

theorem nodup_toList (m : SortedMap κ β) : m.toList.Nodup := by
  refine distinct_keys_toList.imp fun hne heq => hne ?_
  rw [heq]
  exact Std.ReflCmp.compare_self

theorem vals_insert_perm (h : k ∉ m) : (vals (m.insert k v)).Perm (v :: m.vals) := by
  have hnone : m[k]? = none := not_mem_iff.1 h
  have hperm : (m.insert k v).toList.Perm ((k, v) :: m.toList) := by
    refine (List.perm_ext_iff_of_nodup (nodup_toList _) ?_).2 fun e => ?_
    · refine List.nodup_cons.2 ⟨fun hin => ?_, nodup_toList m⟩
      rw [mem_toList_iff_getElem?_eq_some, hnone] at hin
      cases hin
    · obtain ⟨a, b⟩ := e
      rw [List.mem_cons, mem_toList_iff_getElem?_eq_some,
        mem_toList_iff_getElem?_eq_some, get_insert]
      by_cases ha : k = a
      · subst ha
        simp [hnone, eq_comm]
      · simp [ha, Ne.symm ha]
  exact hperm.map snd

theorem vals_erase_perm (h : m[k]? = some v) : m.vals.Perm (v :: vals (m.erase k)) := by
  have hback : (m.erase k).insert k v = m := by
    refine ext_getElem? fun a => ?_
    rw [get_insert, get_erase]
    split
    · rename_i heq
      exact heq ▸ h.symm
    · rfl
  have hnot : k ∉ m.erase k := fun hin => (mem_erase_iff.1 hin).1 rfl
  calc m.vals = vals ((m.erase k).insert k v) := by rw [hback]
    _ |>.Perm (v :: vals (m.erase k)) := vals_insert_perm hnot

/-- Maps with the same keys among some have these in the same order. -/
theorem keys_filter_eq {m' : SortedMap κ β} {keep : κ → Bool}
    (h : ∀ k, keep k = true → (k ∈ m ↔ k ∈ m')) : m.keys.filter keep = m'.keys.filter keep := by
  have hsorted : ∀ m : SortedMap κ β, (m.keys.filter keep).Pairwise (· < ·) := fun m =>
    (ordered_keys.imp fun hlt => compare_lt_iff_lt.1 hlt).filter _
  refine (hsorted m).eq_of_mem_iff (hsorted m') fun k => ?_
  rw [List.mem_filter, List.mem_filter, mem_keys, mem_keys]
  exact and_congr_left fun hk => h k hk

def insertAll (m : SortedMap κ β) (l : List (κ × β)) : SortedMap κ β :=
  l.foldl (fun m e => m.insert e.1 e.2) m

theorem get_insertAll (hnodup : (l.map fst).Nodup) :
    (m.insertAll l)[a]? = some v ↔ (a, v) ∈ l ∨ a ∉ l.map fst ∧ m[a]? = some v := by
  unfold insertAll
  induction l generalizing m with
  | nil => simp
  | cons e l ih =>
    obtain ⟨k, w⟩ := e
    rw [List.map_cons, List.nodup_cons] at hnodup
    rw [List.foldl_cons, ih hnodup.2, get_insert, List.map_cons, List.mem_cons, List.mem_cons]
    by_cases ha : k = a
    · subst ha
      have hnot : (k, v) ∉ l := fun hin => hnodup.1 (List.mem_map.2 ⟨(k, v), hin, rfl⟩)
      simp only [if_true, hnot, false_or, Prod.mk.injEq, true_and, true_or, not_true_eq_false,
        false_and, or_false]
      exact ⟨fun h => (Option.some.inj h.2).symm, fun h => ⟨hnodup.1, congrArg some h.symm⟩⟩
    · simp [ha, Ne.symm ha]

theorem mem_insertAll : a ∈ m.insertAll l ↔ a ∈ l.map fst ∨ a ∈ m := by
  unfold insertAll
  induction l generalizing m with
  | nil => simp
  | cons e l ih =>
    rw [List.foldl_cons, ih, mem_insert_iff, List.map_cons, List.mem_cons, or_assoc, or_left_comm]

/-- The map files the values of a list under their keys. -/
def Files (m : SortedMap κ β) (l : List β) (key : β → κ) : Prop :=
  ∀ (k : κ) v, m[k]? = some v ↔ v ∈ l ∧ key v = k

namespace Files

variable {l : List β} {key : β → κ}

theorem mem (h : Files m l key) : a ∈ m ↔ ∃ v ∈ l, key v = a := by
  simp only [mem_iff_exists, h a]

theorem mem_vals (h : Files m l key) : v ∈ m.vals ↔ v ∈ l := by
  simp only [SortedMap.mem_vals, h _ v, exists_and_left, exists_eq', and_true]

/-- Values under new keys are added to the list and to the map. -/
theorem insertAll (h : Files m l key) (new : List β) (hnodup : (new.map key).Nodup)
    (hfresh : ∀ v ∈ new, key v ∉ m) :
    Files (m.insertAll (new.map fun v => (key v, v))) (l ++ new) key := by
  intro k v
  have hkeys : (new.map fun v => (key v, v)).map fst = new.map key := by
    rw [List.map_map]
    rfl
  rw [get_insertAll (hkeys ▸ hnodup), hkeys, h k v, List.mem_append, or_and_right]
  constructor
  · rintro (hin | ⟨-, hin⟩)
    · obtain ⟨w, hw, heq⟩ := List.mem_map.1 hin
      cases heq
      exact .inr ⟨hw, rfl⟩
    · exact .inl hin
  · rintro (⟨hin, rfl⟩ | ⟨hin, rfl⟩)
    · refine .inr ⟨fun hnew => ?_, hin, rfl⟩
      obtain ⟨w, hw, heq⟩ := List.mem_map.1 hnew
      exact hfresh w hw (heq ▸ h.mem.2 ⟨v, hin, rfl⟩)
    · exact .inl (List.mem_map.2 ⟨v, hin, rfl⟩)

end Files

/-- Values that are told apart by `f` whenever their keys differ. -/
theorem nodup_vals_map {γ : Type} {f : β → γ} (h : ∀ (a b : κ) v w, m[a]? = some v →
    m[b]? = some w → f v = f w → a = b) : (m.vals.map f).Nodup := by
  rw [vals, List.map_map, List.Nodup, List.pairwise_map]
  refine (distinct_keys_toList (t := m)).imp_of_mem fun {e e'} he he' hne heq => ?_
  have hkey := h e.1 e'.1 e.2 e'.2 (mem_toList_iff_getElem?_eq_some.1 he)
    (mem_toList_iff_getElem?_eq_some.1 he') heq
  rw [hkey] at hne
  exact hne Std.ReflCmp.compare_self

end SortedMap

end Lazily.Lib
