import Mathlib.Algebra.Ring.Nat
import Mathlib.Order.Lattice
import Mathlib.Tactic.Common

/-!
# Watermarks: the highest stamp seen from each source

A watermark joins by the maximum per source. Its `stable` point over a membership is the least of
the members' stamps: nothing until each of them has been seen. An observation covers the stamp
observed (`covers_observe`) and loses none.
-/

namespace Lazily.Lib

variable {S : Type} [LinearOrder S]

/-- The highest stamp seen from each source. -/
abbrev Watermark (S : Type) := Std.ExtTreeMap Nat S

namespace Watermark

/-- Keep the higher of the stored and the new stamp; whether the stored one advanced. -/
def observe (w : Watermark S) (p : Nat) (s : S) : Watermark S × Bool :=
  match w[p]? with
  | some cur => if s ≤ cur then (w, false) else (w.insert p s, true)
  | none => (w.insert p s, true)

/-- The least stamp over the members, `none` as soon as one has not been seen. -/
def stableFrom (w : Watermark S) : List Nat → Option S → Option S
  | [], least => least
  | p :: ps, least =>
    match w[p]? with
    | none => none
    | some s => stableFrom w ps (some (least.elim s fun m => min m s))

variable (w : Watermark S)

def stable (members : List Nat) : Option S := w.stableFrom members none

/-- Everything up to this stamp of this source is below the watermark. -/
def Covers (p : Nat) (s : S) : Prop := ∃ cur, w[p]? = some cur ∧ s ≤ cur

variable {p q : Nat} {t : S}

theorem covers_mono {w : Watermark S} {s : S} (h : w.Covers p t) (hst : s ≤ t) : w.Covers p s := by
  obtain ⟨cur, hcur, ht⟩ := h
  exact ⟨cur, hcur, hst.trans ht⟩

theorem not_covers_empty (p : Nat) (s : S) : ¬(∅ : Watermark S).Covers p s := by
  rintro ⟨cur, hcur, -⟩
  simp at hcur

/-! ## One observation -/

theorem getElem?_observe_ne (s : S) (h : q ≠ p) : (w.observe p s).1[q]? = w[q]? := by
  have hcmp : compare p q ≠ .eq := fun heq => h (Std.LawfulEqCmp.eq_of_compare heq).symm
  unfold observe
  split
  · split
    · rfl
    · simp [Std.ExtTreeMap.getElem?_insert, hcmp]
  · simp [Std.ExtTreeMap.getElem?_insert, hcmp]

/-- What an observation leaves for its own source: the greater of the two stamps. -/
theorem getElem?_observe_self (p : Nat) (s : S) :
    (w.observe p s).1[p]? = some ((w[p]?).elim s (max s)) := by
  unfold observe
  cases h : w[p]? with
  | none => simp
  | some cur =>
    by_cases hle : s ≤ cur
    · simp [hle, h]
    · simp [hle, le_of_lt (not_le.1 hle)]

theorem covers_observe {w : Watermark S} {s : S} :
    (w.observe p s).1.Covers q t ↔ w.Covers q t ∨ q = p ∧ t ≤ s := by
  unfold Covers
  by_cases h : q = p
  · subst h
    rw [getElem?_observe_self]
    cases w[q]? with
    | none => simp
    | some cur => simp [or_comm]
  · rw [getElem?_observe_ne w s h]
    simp [h]

/-- What a list of observations covers. -/
theorem covers_foldl_observe : ∀ (entries : List (Nat × S)) (w : Watermark S),
      (entries.foldl (fun w e => (w.observe e.1 e.2).1) w).Covers q t ↔
        w.Covers q t ∨ ∃ e ∈ entries, q = e.1 ∧ t ≤ e.2
  | [], w => by simp
  | e :: entries, w => by
    rw [List.foldl_cons, covers_foldl_observe entries, covers_observe, or_assoc]
    simp only [List.mem_cons, exists_eq_or_imp]

end Watermark

end Lazily.Lib
