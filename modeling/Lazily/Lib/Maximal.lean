import Mathlib.Data.List.Infix
import Mathlib.Data.List.Nodup

/-!
# The maximal elements of a list

`maximals lt l` goes through a list and keeps what no other element is above, each once and in the
order of the list. Two lists that are of this form join to what either keeps against the other, the
own elements first (`maximals_append`). So the joins of two lists either way have the same elements,
and the same order only if what one list keeps begins with what the other keeps
(`maximals_append_comm_iff`).
-/

namespace Lazily.Lib

open List

variable {α : Type} [DecidableEq α] (lt : α → α → Prop) [DecidableRel lt]

/-- Take in one element: it replaces what it is above. -/
def keepMax (kept : List α) (x : α) : List α :=
  if kept.any (lt x ·) then kept
  else
    let kept := kept.filter (¬ lt · x)
    if x ∈ kept then kept else kept ++ [x]

def maximals (l : List α) : List α := l.foldl (keepMax lt) []

/-- What a list keeps of its elements against another. -/
def unbeaten (l by' : List α) : List α := l.filter fun x => ∀ y ∈ by', ¬ lt x y

/-- Distinct elements none of which is above another. -/
structure Antichain (l : List α) : Prop where
  nodup : l.Nodup
  unordered : ∀ x ∈ l, ∀ y ∈ l, ¬ lt x y

variable {lt} {x : α} {a b : List α}

omit [DecidableEq α] in
theorem mem_unbeaten {l by' : List α} : x ∈ unbeaten lt l by' ↔ x ∈ l ∧ ∀ y ∈ by', ¬ lt x y := by
  simp [unbeaten]

omit [DecidableEq α] [DecidableRel lt] in
theorem Antichain.sublist {l l' : List α} (h : Antichain lt l) (hsub : l'.Sublist l) :
    Antichain lt l' :=
  ⟨h.nodup.sublist hsub, fun x hx y hy => h.unordered x (hsub.subset hx) y (hsub.subset hy)⟩

variable [IsStrictOrder α lt] (ha : Antichain lt a)
include ha

/-- One more element on the second list. -/
theorem keepMax_append {y : α} (hb : Antichain lt (b ++ [y])) :
    keepMax lt (unbeaten lt a b ++ (unbeaten lt b a).filter (· ∉ a)) y =
      unbeaten lt a (b ++ [y]) ++ (unbeaten lt (b ++ [y]) a).filter (· ∉ a) := by
  have hyb : ∀ z ∈ b, ¬ lt y z := fun z hz =>
    hb.unordered y (by simp) z (mem_append_left _ hz)
  have hby : ∀ z ∈ b, ¬ lt z y := fun z hz =>
    hb.unordered z (mem_append_left _ hz) y (by simp)
  have hy : y ∉ b := fun hin => disjoint_of_nodup_append hb.nodup hin (by simp)
  have hA : unbeaten lt a (b ++ [y]) = (unbeaten lt a b).filter (¬ lt · y) := by
    unfold unbeaten
    rw [filter_filter]
    refine filter_congr fun x _ => ?_
    simp only [mem_append, mem_singleton, or_imp, forall_and, forall_eq, Bool.decide_and]
    exact Bool.and_comm _ _
  have hB : unbeaten lt (b ++ [y]) a = unbeaten lt b a ++ unbeaten lt [y] a := filter_append _ _
  rw [hA, hB, filter_append]
  by_cases hbeaten : ∃ k ∈ a, lt y k
  · -- `y` is below an element of `a`, which no element of `b` can then be above
    obtain ⟨k, hk, hlt⟩ := hbeaten
    have hkA : k ∈ unbeaten lt a b :=
      mem_unbeaten.2 ⟨hk, fun z hz hkz => hyb z hz (trans_of lt hlt hkz)⟩
    have hany : (unbeaten lt a b ++ (unbeaten lt b a).filter (· ∉ a)).any (lt y ·) = true :=
      any_eq_true.2 ⟨k, mem_append_left _ hkA, decide_eq_true hlt⟩
    have hsame : (unbeaten lt a b).filter (¬ lt · y) = unbeaten lt a b := by
      refine filter_eq_self.2 fun x hx => decide_eq_true fun hxy => ?_
      exact ha.unordered x (mem_unbeaten.1 hx).1 k hk (trans_of lt hxy hlt)
    have hnone : unbeaten lt [y] a = [] := by
      refine filter_eq_nil_iff.2 fun x hx => ?_
      rw [mem_singleton.1 hx]
      simpa using ⟨k, hk, hlt⟩
    rw [keepMax, if_pos hany, hsame, hnone, filter_nil, append_nil]
  · have hfree : ∀ z ∈ a, ¬ lt y z := fun z hz hlt => hbeaten ⟨z, hz, hlt⟩
    have hany : ¬ (unbeaten lt a b ++ (unbeaten lt b a).filter (· ∉ a)).any (lt y ·) = true := by
      rw [any_eq_true]
      rintro ⟨z, hz, hlt⟩
      rcases mem_append.1 hz with hz | hz
      · exact hfree z (mem_unbeaten.1 hz).1 (of_decide_eq_true hlt)
      · exact hyb z (mem_unbeaten.1 (mem_filter.1 hz).1).1 (of_decide_eq_true hlt)
    have hkeep : ((unbeaten lt b a).filter (· ∉ a)).filter (¬ lt · y) =
        (unbeaten lt b a).filter (· ∉ a) := by
      refine filter_eq_self.2 fun z hz => decide_eq_true (hby z ?_)
      exact (mem_unbeaten.1 (mem_filter.1 hz).1).1
    have hone : unbeaten lt [y] a = [y] := by
      refine filter_eq_self.2 fun x hx => decide_eq_true ?_
      rw [mem_singleton.1 hx]
      exact hfree
    have hin : y ∈ (unbeaten lt a b).filter (¬ lt · y) ++ (unbeaten lt b a).filter (· ∉ a) ↔
        y ∈ a := by
      rw [mem_append, mem_filter, mem_unbeaten]
      constructor
      · rintro (h | h)
        · exact h.1.1
        · exact absurd (mem_unbeaten.1 (mem_filter.1 h).1).1 hy
      · exact fun h => .inl ⟨⟨h, hyb⟩, decide_eq_true (irrefl_of lt y)⟩
    simp only [keepMax, if_neg hany, filter_append, hkeep, hin, hone]
    by_cases hya : y ∈ a
    · simp [hya]
    · simp [hya]

variable (hb : Antichain lt b)
include hb

/-- The loop over a second list, the first having been taken in. -/
theorem foldl_keepMax :
    b.foldl (keepMax lt) a = unbeaten lt a b ++ (unbeaten lt b a).filter (· ∉ a) := by
  induction b using reverseRecOn with
  | nil => simp [unbeaten]
  | append_singleton b y ih =>
    rw [foldl_append, foldl_cons, foldl_nil,
      ih (hb.sublist (sublist_append_left b [y])), keepMax_append ha hb]

omit hb in
theorem maximals_of_antichain : maximals lt a = a := by
  have hnil : Antichain lt ([] : List α) := ⟨nodup_nil, by simp⟩
  rw [maximals, foldl_keepMax hnil ha]
  simp [unbeaten]

/-- The join of two lists of maximal elements. -/
theorem maximals_append :
    maximals lt (a ++ b) = unbeaten lt a b ++ (unbeaten lt b a).filter (· ∉ a) := by
  rw [maximals, foldl_append, ← maximals, maximals_of_antichain ha, foldl_keepMax ha hb]

theorem mem_maximals_append :
    x ∈ maximals lt (a ++ b) ↔ (x ∈ a ∨ x ∈ b) ∧ (∀ y ∈ a, ¬ lt x y) ∧ ∀ y ∈ b, ¬ lt x y := by
  rw [maximals_append ha hb, mem_append, mem_filter, mem_unbeaten, mem_unbeaten]
  constructor
  · rintro (⟨hx, hlt⟩ | ⟨⟨hx, hlt⟩, -⟩)
    · exact ⟨.inl hx, ha.unordered x hx, hlt⟩
    · exact ⟨.inr hx, hlt, hb.unordered x hx⟩
  · rintro ⟨hx, hlta, hltb⟩
    by_cases hxa : x ∈ a
    · exact .inl ⟨hxa, hltb⟩
    · exact .inr ⟨⟨hx.resolve_left hxa, hlta⟩, decide_eq_true hxa⟩

/-- Every element is in the join or below an element of it. -/
theorem exists_mem_maximals_append
    (hx : x ∈ a ∨ x ∈ b) : ∃ y ∈ maximals lt (a ++ b), y = x ∨ lt x y := by
  have main : ∀ {a b : List α}, Antichain lt a → Antichain lt b → x ∈ a →
      ∃ y, (y ∈ a ∨ y ∈ b) ∧ (∀ z ∈ a, ¬ lt y z) ∧ (∀ z ∈ b, ¬ lt y z) ∧ (y = x ∨ lt x y) := by
    intro a b ha hb hx
    by_cases hbeaten : ∃ y ∈ b, lt x y
    · obtain ⟨y, hy, hlt⟩ := hbeaten
      refine ⟨y, .inr hy, fun z hz hyz => ?_, hb.unordered y hy, .inr hlt⟩
      exact ha.unordered x hx z hz (trans_of lt hlt hyz)
    · exact ⟨x, .inl hx, ha.unordered x hx, fun z hz hlt => hbeaten ⟨z, hz, hlt⟩, .inl rfl⟩
  rcases hx with hx | hx
  · obtain ⟨y, hy, hya, hyb, hxy⟩ := main ha hb hx
    exact ⟨y, (mem_maximals_append ha hb).2 ⟨hy, hya, hyb⟩, hxy⟩
  · obtain ⟨y, hy, hyb, hya, hxy⟩ := main hb ha hx
    exact ⟨y, (mem_maximals_append ha hb).2 ⟨hy.symm, hya, hyb⟩, hxy⟩

theorem antichain_maximals_append : Antichain lt (maximals lt (a ++ b)) := by
  refine ⟨?_, fun x hx y hy => ?_⟩
  · rw [maximals_append ha hb]
    refine nodup_append.2 ⟨ha.nodup.filter _, (hb.nodup.filter _).filter _, ?_⟩
    rintro x hx y hy rfl
    exact of_decide_eq_true (mem_filter.1 hy).2 (mem_unbeaten.1 hx).1
  · rw [mem_maximals_append ha hb] at hx hy
    exact hy.1.elim (hx.2.1 y) (hx.2.2 y)

/-! ## Joins either way -/

/-- Joining a list with a join it is part of. -/
theorem maximals_append_absorb :
    maximals lt (b ++ maximals lt (a ++ b)) = maximals lt (b ++ a) := by
  have hc := antichain_maximals_append ha hb
  have hbeats : unbeaten lt b (maximals lt (a ++ b)) = unbeaten lt b a := by
    refine filter_congr fun y hy => decide_eq_decide.2 ⟨fun h x hx hlt => ?_, fun h x hx => ?_⟩
    · have hfree : ∀ z ∈ b, ¬ lt x z := fun z hz hxz =>
        hb.unordered y hy z hz (trans_of lt hlt hxz)
      exact h x ((mem_maximals_append ha hb).2 ⟨.inl hx, ha.unordered x hx, hfree⟩) hlt
    · exact ((mem_maximals_append ha hb).1 hx).1.elim (h x) (hb.unordered y hy x)
  have hself : unbeaten lt (maximals lt (a ++ b)) b = maximals lt (a ++ b) :=
    filter_eq_self.2 fun x hx => decide_eq_true ((mem_maximals_append ha hb).1 hx).2.2
  have hrest : (maximals lt (a ++ b)).filter (· ∉ b) = (unbeaten lt a b).filter (· ∉ b) := by
    rw [maximals_append ha hb, filter_append]
    refine (append_right_eq_self).2 (filter_eq_nil_iff.2 fun x hx => ?_)
    simpa using (mem_unbeaten.1 (mem_filter.1 hx).1).1
  rw [maximals_append hb hc, maximals_append hb ha, hbeats, hself, hrest]

/-- The two joins are equal lists only if what one keeps begins with what the other keeps. -/
theorem maximals_append_comm_iff : maximals lt (a ++ b) = maximals lt (b ++ a) ↔
      unbeaten lt a b <+: unbeaten lt b a ∨ unbeaten lt b a <+: unbeaten lt a b := by
  constructor
  · intro heq
    have hleft : unbeaten lt a b <+: maximals lt (a ++ b) := by
      rw [maximals_append ha hb]
      exact prefix_append _ _
    have hright : unbeaten lt b a <+: maximals lt (a ++ b) := by
      rw [heq, maximals_append hb ha]
      exact prefix_append _ _
    exact prefix_or_prefix_of_prefix hleft hright
  · have main : ∀ {a b : List α}, Antichain lt a → Antichain lt b →
        unbeaten lt a b <+: unbeaten lt b a →
        maximals lt (a ++ b) = maximals lt (b ++ a) := by
      intro a b ha hb hprefix
      obtain ⟨rest, hrest⟩ := hprefix
      have hnodup : (unbeaten lt b a).Nodup := hb.nodup.filter _
      rw [← hrest] at hnodup
      -- what `a` keeps is in `b`, and the rest of `b` is not in `a`
      have hnone : (unbeaten lt a b).filter (· ∉ b) = [] := by
        refine filter_eq_nil_iff.2 fun x hx => ?_
        have hx' : x ∈ unbeaten lt b a := hrest ▸ mem_append_left _ hx
        simpa using (mem_unbeaten.1 hx').1
      have hin : (unbeaten lt a b).filter (· ∉ a) = [] :=
        filter_eq_nil_iff.2 fun x hx => by simpa using (mem_unbeaten.1 hx).1
      have hout : rest.filter (· ∉ a) = rest := by
        refine filter_eq_self.2 fun x hx => decide_eq_true fun hxa => ?_
        have hx' : x ∈ unbeaten lt b a := hrest ▸ mem_append_right _ hx
        have hxA : x ∈ unbeaten lt a b :=
          mem_unbeaten.2 ⟨hxa, hb.unordered x (mem_unbeaten.1 hx').1⟩
        exact disjoint_of_nodup_append hnodup hxA hx
      rw [maximals_append ha hb, maximals_append hb ha, hnone, ← hrest, filter_append, hin,
        hout, nil_append, append_nil]
    rintro (h | h)
    · exact main ha hb h
    · exact (main hb ha h).symm

end Lazily.Lib
