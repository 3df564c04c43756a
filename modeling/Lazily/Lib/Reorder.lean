import Mathlib.Data.List.Perm.Basic
import Mathlib.Data.List.Sort

/-!
# Reordering a list by moves to final indices

`relocate l i a` takes `a` out of `l` (if it is there) and puts it back at index `i`, clamped to the
end. `placeFrom S i l ks` runs over a target order from left to right and relocates every element
that is not fixed (`S`) to its final index; fixed elements are left where they are.

`placeFrom_eq_iff` says exactly when the run ends in the target order. An element that is placed at
index `i` lands behind the right elements iff none of the elements that still wait for their move
stands in front of a fixed one that has been passed (`Clear`).
-/

namespace Lazily.Lib.Reorder

open List

variable {α : Type}

theorem insertIdx_min (a : α) : ∀ (i : Nat) (l : List α),
    l.insertIdx (min i l.length) a = l.take i ++ a :: l.drop i
  | 0, l => by simp
  | i + 1, [] => by simp
  | i + 1, b :: l => by
    rw [length_cons, Nat.succ_min_succ, insertIdx_succ_cons, insertIdx_min a i l]
    rfl

variable [DecidableEq α] {p : α → Bool} {l : List α} {a : α}

/-- Take `a` out and put it (back) at index `i`, clamped to the end of the list. -/
def relocate (l : List α) (i : Nat) (a : α) : List α :=
  (l.erase a).take i ++ a :: (l.erase a).drop i

theorem relocate_perm (l : List α) (i : Nat) (a : α) : (relocate l i a).Perm (a :: l.erase a) := by
  have h : (relocate l i a).Perm (a :: ((l.erase a).take i ++ (l.erase a).drop i)) := perm_middle
  rwa [take_append_drop] at h

theorem mem_relocate {i : Nat} {b : α} : b ∈ relocate l i a ↔ b = a ∨ b ∈ l := by
  rw [(relocate_perm l i a).mem_iff, mem_cons]
  by_cases h : b = a
  · simp [h]
  · simp [h]

theorem nodup_relocate (h : l.Nodup) (i : Nat) (a : α) : (relocate l i a).Nodup :=
  (relocate_perm l i a).nodup_iff.2 (nodup_cons.2 ⟨h.not_mem_erase, h.erase a⟩)

theorem filter_erase_of_false (ha : p a = false) : ∀ l : List α, (l.erase a).filter p = l.filter p
  | [] => rfl
  | b :: l => by
    by_cases hb : b = a
    · subst hb
      simp [ha]
    · rw [erase_cons_tail (by simpa using hb), filter_cons, filter_cons, filter_erase_of_false ha l]

/-- What is not moved keeps its order. -/
theorem filter_relocate (ha : p a = false) (l : List α) (i : Nat) :
    (relocate l i a).filter p = l.filter p := by
  rw [relocate, filter_append, filter_cons_of_neg (by simp [ha]), ← filter_append,
    take_append_drop, filter_erase_of_false ha]

/-- Run over the target order from index `i` on: what is not fixed goes to its index. -/
def placeFrom (S : α → Bool) : Nat → List α → List α → List α
  | _, l, [] => l
  | i, l, a :: ks => placeFrom S (i + 1) (if S a then l else relocate l i a) ks

/-- The elements that a run does not move keep their order. -/
theorem filter_placeFrom {S : α → Bool} : ∀ {ks : List α} (i : Nat) (l : List α),
    (∀ a ∈ ks, S a = false → p a = false) → (placeFrom S i l ks).filter p = l.filter p
  | [], _, _, _ => rfl
  | a :: ks, i, l, h => by
    rw [placeFrom, filter_placeFrom _ _ fun b hb => h b (mem_cons_of_mem a hb)]
    cases hS : S a with
    | true => rw [if_pos rfl]
    | false => rw [if_neg (by simp), filter_relocate (h a mem_cons_self hS)]

section Target

variable {r : α → α → Prop} {S : α → Bool} {old : List α} {a : α}

/-- Every element that is placed while `done` has been passed finds the fixed ones of `done` in
front of the ones that still wait in `old` for their move. -/
def Clear (r : α → α → Prop) (S : α → Bool) (old : List α) : List α → List α → Prop
  | _, [] => True
  | done, a :: ks =>
    (S a = false → ∀ x ∈ done, S x → ∀ y ∈ ks, S y = false → y ∈ old → r x y) ∧
      Clear r S old (done ++ [a]) ks

omit [DecidableEq α] in
theorem clear_iff : ∀ {ks done : List α}, Clear r S old done ks ↔
    ∀ i a, ks[i]? = some a → S a = false → ∀ x ∈ done ++ ks.take i, S x →
      ∀ y ∈ ks.drop (i + 1), S y = false → y ∈ old → r x y
  | [], done => by simp [Clear]
  | a :: ks, done => by
    rw [Clear, clear_iff]
    constructor
    · rintro ⟨hhead, htail⟩ (_ | i) b hb
      · cases hb
        simpa using hhead
      · simpa using htail i b (by simpa using hb)
    · intro h
      refine ⟨by simpa using h 0 a rfl, fun i b hb => ?_⟩
      simpa using h (i + 1) b (by simpa using hb)

omit [DecidableEq α] in
theorem nodup_of_pairwise {l : List α} (hasymm : ∀ a b, r a b → ¬r b a) (h : l.Pairwise r) :
    l.Nodup := by
  refine List.Pairwise.imp (fun {a b} hab heq => ?_) h
  subst heq
  exact hasymm a a hab hab

omit [DecidableEq α] in
/-- Two lists in the order `r` with the same elements are the same list. -/
theorem eq_of_pairwise_of_mem_iff {l l' : List α} (hasymm : ∀ a b, r a b → ¬r b a)
    (h : l.Pairwise r) (h' : l'.Pairwise r) (hmem : ∀ a, a ∈ l ↔ a ∈ l') : l = l' := by
  refine List.Perm.eq_of_pairwise (fun a b _ _ hab hba => absurd hba (hasymm a b hab)) h h' ?_
  exact (perm_ext_iff_of_nodup (nodup_of_pairwise hasymm h) (nodup_of_pairwise hasymm h')).2 hmem

section Waiting

variable {still ks : List α}

/-- Among the elements that wait, a fixed stretch stands in front if `r` puts it there. -/
theorem filter_append_of_front (hasymm : ∀ a b, r a b → ¬r b a) (hold : old.Pairwise r)
    (hstill : still.Pairwise r) (hin : ∀ x ∈ still, x ∈ old)
    (hfront : ∀ x ∈ still, ∀ y ∈ ks, y ∈ old → r x y) :
    old.filter (· ∈ still ++ ks) = still ++ old.filter (· ∈ ks) := by
  refine eq_of_pairwise_of_mem_iff hasymm (hold.filter _) ?_ fun x => ?_
  · refine pairwise_append.2 ⟨hstill, hold.filter _, fun x hx y hy => ?_⟩
    have hy' : y ∈ old ∧ y ∈ ks := by simpa using hy
    exact hfront x hx y hy'.2 hy'.1
  · simp only [mem_filter, mem_append, decide_eq_true_eq]
    tauto

theorem front_of_take (hold : old.Pairwise r) (hdisj : ∀ x ∈ still, x ∉ ks)
    (htake : (old.filter (· ∈ still ++ ks)).take still.length = still) :
    ∀ x ∈ still, ∀ y ∈ ks, y ∈ old → r x y := by
  intro x hx y hy hyold
  have hsplit := take_append_drop still.length (old.filter (· ∈ still ++ ks))
  rw [htake] at hsplit
  have hpair := hold.filter (· ∈ still ++ ks)
  have hmem : y ∈ old.filter (· ∈ still ++ ks) := by simp [hyold, hy]
  rw [← hsplit] at hpair hmem
  refine (pairwise_append.1 hpair).2.2 x hx y ?_
  exact (mem_append.1 hmem).resolve_left fun h => hdisj y h hy

end Waiting

/-- Placing `a` once `done ++ still` has been passed. -/
theorem relocate_passed {done still ks : List α} (hold : old.Nodup) (ha : a ∉ done ++ still ++ ks) :
    relocate (done ++ old.filter (· ∈ still ++ a :: ks)) (done ++ still).length a =
      done ++ (old.filter (· ∈ still ++ ks)).take still.length ++
        a :: (old.filter (· ∈ still ++ ks)).drop still.length := by
  simp only [mem_append, not_or] at ha
  have herase : (old.filter (· ∈ still ++ a :: ks)).erase a = old.filter (· ∈ still ++ ks) := by
    rw [(hold.filter _).erase_eq_filter, filter_filter]
    refine filter_congr fun x _ => ?_
    by_cases hx : x = a
    · simp [hx, ha.1.2, ha.2]
    · simp [hx]
  rw [relocate, erase_append_right _ ha.1.1, herase, length_append, take_length_add_append,
    drop_length_add_append]

/-- If the run from a placement of `a` on ends in the target order, then `a` was put right behind
`done ++ still`: whatever moves later leaves these in their order. -/
theorem take_eq_of_placeFrom {done still ks l : List α}
    (hnodup : (done ++ still ++ a :: ks).Nodup) (ha : a ∉ done ++ l)
    (hrun : placeFrom S ((done ++ still).length + 1)
      (done ++ l.take still.length ++ a :: l.drop still.length) ks = done ++ still ++ a :: ks) :
    l.take still.length = still := by
  let p : α → Bool := fun x => x ∈ done ++ still ++ [a] ∨ S x
  have hp : ∀ x ∈ ks, S x = false → p x = false := by
    intro x hx hSx
    have hnot : x ∉ done ++ still ++ [a] := fun h => by
      rw [show done ++ still ++ a :: ks = done ++ still ++ [a] ++ ks by simp] at hnodup
      exact (nodup_append.1 hnodup).2.2 x h x hx rfl
    simp only [p, hSx, hnot, or_self, decide_eq_false_iff_not, Bool.false_eq_true,
      not_false_eq_true]
  have hkeep := congrArg (filter p) hrun
  have hfront : (done ++ still).filter p = done ++ still :=
    filter_eq_self.2 fun x hx => by simp only [p, mem_append] at hx ⊢; simp [hx]
  have hpa : p a = true := by simp [p]
  rw [filter_placeFrom _ _ hp, filter_append, filter_append (done ++ still), hfront,
    filter_cons_of_pos hpa, filter_cons_of_pos hpa] at hkeep
  have hleft : (done ++ l.take still.length).filter p = done ++ still := by
    refine ((append_cons_inj_of_notMem ?_ ?_).1 hkeep).1
    · intro h
      rcases mem_append.1 (mem_of_mem_filter h) with h | h
      · exact ha (mem_append_left l h)
      · exact ha (mem_append_right done (mem_of_mem_take h))
    · intro h
      exact ha (mem_append_right done (mem_of_mem_drop (mem_of_mem_filter h)))
  have hwhole : (done ++ l.take still.length).filter p = done ++ l.take still.length := by
    refine filter_sublist.eq_of_length_le ?_
    rw [hleft]
    simp
  exact append_cancel_left (hwhole.symm.trans hleft)

/-- The run from a point where `done ++ still` has been passed: `done` stands in front in its final
order, the fixed elements `still` are at their old places among those that wait. -/
theorem placeFrom_eq_iff_of_passed (hasymm : ∀ a b, r a b → ¬r b a) (hold : old.Pairwise r) :
    ∀ ks done still, (done ++ still ++ ks).Nodup → (∀ x ∈ still, S x) →
      (∀ x ∈ still ++ ks, S x → x ∈ old) → ((still ++ ks).filter S).Pairwise r →
      (∀ x ∈ done, S x → ∀ y ∈ ks, S y = false → y ∈ old → r x y) →
      (placeFrom S (done ++ still).length (done ++ old.filter (· ∈ still ++ ks)) ks =
        done ++ still ++ ks ↔ Clear r S old (done ++ still) ks) := by
  intro ks
  induction ks with
  | nil =>
    intro done still _ hstill hin hfix _
    have hsame : old.filter (· ∈ still) = still := by
      refine eq_of_pairwise_of_mem_iff hasymm (hold.filter _) ?_ fun x => ?_
      · rwa [append_nil, filter_eq_self.2 hstill] at hfix
      · simp only [mem_filter, decide_eq_true_eq]
        exact ⟨And.right, fun hx => ⟨hin x (by simpa using hx) (hstill x hx), hx⟩⟩
    simp [placeFrom, Clear, hsame]
  | cons a ks ih =>
    intro done still hnodup hstill hin hfix hdone
    cases hS : S a with
    | true =>
      have hstill' : ∀ x ∈ still ++ [a], S x := by
        simpa [or_imp, forall_and, hS] using hstill
      have := ih done (still ++ [a]) (by simpa using hnodup) hstill' (by simpa using hin)
        (by simpa using hfix) fun x hx hSx y hy => hdone x hx hSx y (mem_cons_of_mem a hy)
      simp only [placeFrom, Clear, hS]
      simpa [Nat.add_assoc] using this
    | false =>
      have hfix' : (still ++ ks.filter S).Pairwise r := by
        simpa [filter_cons, hS, filter_eq_self.2 hstill] using hfix
      obtain ⟨hstillr, -, hcross⟩ := pairwise_append.1 hfix'
      have ha : a ∉ done ++ still ++ ks := (nodup_middle.1 hnodup).notMem
      have hdisj : ∀ x ∈ still, x ∉ ks := fun x hx hxk =>
        disjoint_of_nodup_append hnodup (mem_append_right done hx) (mem_cons_of_mem a hxk)
      rw [placeFrom, hS, if_neg (by simp), relocate_passed (nodup_of_pairwise hasymm hold) ha]
      by_cases hfront : ∀ x ∈ still, ∀ y ∈ ks, y ∈ old → r x y
      · -- `a` lands behind `done ++ still`, and the run goes on with nothing passed in place
        have hdone' : ∀ x ∈ done ++ still ++ [a], S x →
            ∀ y ∈ ks, S y = false → y ∈ old → r x y := by
          intro x hx hSx y hy hSy hyold
          rw [mem_append, mem_append, mem_singleton] at hx
          rcases hx with (hx | hx) | rfl
          · exact hdone x hx hSx y (mem_cons_of_mem a hy) hSy hyold
          · exact hfront x hx y hy hyold
          · simp [hS] at hSx
        have hnext := ih (done ++ still ++ [a]) [] (by simpa using hnodup) (by simp)
          (fun x hx => hin x (by simp at hx; simp [hx])) (pairwise_append.1 hfix').2.1 hdone'
        rw [filter_append_of_front hasymm hold hstillr
          (fun x hx => hin x (mem_append_left _ hx) (hstill x hx)) hfront, take_left]
        have hclear : Clear r S old (done ++ still) (a :: ks) ↔
            Clear r S old (done ++ still ++ [a]) ks :=
          and_iff_right fun _ x hx => hdone' x (mem_append_left [a] hx)
        rw [hclear]
        simpa [Nat.add_assoc] using hnext
      · -- an element that waits stands in front of a fixed one that has been passed
        refine iff_of_false (fun hrun => hfront ?_) fun hclear => hfront ?_
        · refine front_of_take hold hdisj (take_eq_of_placeFrom hnodup ?_ hrun)
          simp only [mem_append, not_or] at ha
          simp [ha]
        · intro x hx y hy hyold
          cases hSy : S y with
          | true => exact hcross x hx y (mem_filter.2 ⟨hy, hSy⟩)
          | false =>
            exact hclear.1 hS x (mem_append_right done hx) (hstill x hx) y hy hSy hyold

/-- The run ends in the target order iff it is clear. -/
theorem placeFrom_eq_iff {ks : List α} (hasymm : ∀ a b, r a b → ¬r b a) (hold : old.Pairwise r)
    (hks : ks.Nodup) (hsub : ∀ x ∈ old, x ∈ ks) (hin : ∀ x ∈ ks, S x → x ∈ old)
    (hfix : (ks.filter S).Pairwise r) : placeFrom S 0 old ks = ks ↔ Clear r S old [] ks := by
  have h := placeFrom_eq_iff_of_passed hasymm hold ks [] [] (by simpa using hks) (by simp)
    (by simpa using hin) (by simpa using hfix) (by simp)
  have hall : old.filter (· ∈ ks) = old := filter_eq_self.2 fun x hx => by simp [hsub x hx]
  simpa [hall] using h

end Target

end Lazily.Lib.Reorder
