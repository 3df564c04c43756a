import Mathlib.Data.Set.Insert

/-!
# The latest of a set of stamped values

`IsLatest stamp A r`: `r` is the element of `A` with the greatest stamp, none if `A` is empty.
Taking the later of two keeps it as the set grows (`IsLatest.insert`), and it is unique as soon as
stamps tell elements apart (`IsLatest.unique`).
-/

namespace Lazily.Lib

variable {R S : Type} [LinearOrder S] {stamp : R → S} {A : Set R}

/-- The element of a set with the greatest stamp. -/
def IsLatest (stamp : R → S) (A : Set R) : Option R → Prop
  | none => A = ∅
  | some r => r ∈ A ∧ ∀ r' ∈ A, stamp r' ≤ stamp r

/-- The later of what is there and a new element; what is there stays on a tie. -/
def later (stamp : R → S) (o : Option R) (c : R) : R :=
  o.elim c fun r => if stamp r < stamp c then c else r

/-- The later of the latest and a new element is the latest of both. -/
theorem IsLatest.insert {o : Option R} (h : IsLatest stamp A o) (c : R) :
    IsLatest stamp (insert c A) (some (later stamp o c)) := by
  cases o with
  | none =>
    have hA : A = ∅ := h
    subst hA
    refine ⟨Set.mem_insert c ∅, fun r' hr' => ?_⟩
    rcases hr' with rfl | hr'
    · exact le_rfl
    · cases hr'
  | some r =>
    obtain ⟨hr, hmax⟩ := h
    simp only [later, Option.elim_some]
    split
    · rename_i hlt
      refine ⟨Set.mem_insert c A, fun r' hr' => ?_⟩
      rcases hr' with rfl | hr'
      · exact le_rfl
      · exact (hmax r' hr').trans hlt.le
    · rename_i hle
      refine ⟨Set.mem_insert_of_mem c hr, fun r' hr' => ?_⟩
      rcases hr' with rfl | hr'
      · exact not_lt.1 hle
      · exact hmax r' hr'

theorem IsLatest.unique {o o' : Option R} (h : IsLatest stamp A o) (h' : IsLatest stamp A o')
    (hinj : ∀ r ∈ A, ∀ r' ∈ A, stamp r = stamp r' → r = r') : o = o' := by
  cases o with
  | none =>
    have hA : A = ∅ := h
    cases o' with
    | none => rfl
    | some r' =>
      have hr' := h'.1
      rw [hA] at hr'
      cases hr'
  | some r =>
    cases o' with
    | none =>
      have hA : A = ∅ := h'
      have hr := h.1
      rw [hA] at hr
      cases hr
    | some r' =>
      rw [hinj r h.1 r' h'.1 (le_antisymm (h'.2 r h.1) (h.2 r' h'.1))]

end Lazily.Lib
