import Mathlib.Data.List.Chain
import Mathlib.Data.List.Perm.Subperm

/-!
# Forests given by a parent function

`Below up c a`: `a` is a proper ancestor of `c`. `chain up fuel s` follows the parents of `s` for
`fuel` steps; in a forest (`IsForest`: finitely many nodes, nobody above itself) more steps than
nodes reach the end, so the chain satisfies the equation of the unbounded loop (`IsForest.chain_eq`)
and lists exactly the nodes above (`IsForest.mem_chain`).
-/

namespace Lazily.Lib

open List Relation.ReflTransGen Option

variable {σ : Type}

/-- `s` and its ancestors, nearest first, at most `fuel` of them. -/
def chain (up : σ → Option σ) : Nat → σ → List σ
  | 0, _ => []
  | fuel + 1, s => s :: (up s).elim [] (chain up fuel)

variable (up : σ → Option σ)

def Child (c p : σ) : Prop := up c = some p

def Below : σ → σ → Prop := Relation.TransGen (Child up)

def Under : σ → σ → Prop := Relation.ReflTransGen (Child up)

/-- Only the given nodes have parents, and no node is above itself. -/
structure IsForest (up : σ → Option σ) (nodes : List σ) : Prop where
  mem_nodes : ∀ c p, up c = some p → c ∈ nodes
  acyclic : ∀ s, ¬Below up s s

variable {up : σ → Option σ} {nodes : List σ} {a b c p s t : σ}

/-! ## Above and below -/

theorem Under.refl (s : σ) : Under up s s := Relation.ReflTransGen.refl

theorem Under.trans (h : Under up s t) (h' : Under up t a) : Under up s a :=
  Relation.ReflTransGen.trans h h'

theorem Below.under (h : Below up s a) : Under up s a := Relation.TransGen.to_reflTransGen h

theorem Below.trans_under (h : Below up s t) (h' : Under up t a) : Below up s a :=
  Relation.TransGen.trans_left h h'

instance : Trans (Below up) (Below up) (Below up) := ⟨Relation.TransGen.trans⟩

theorem below_of_child (h : up c = some p) : Below up c p := Relation.TransGen.single h

theorem under_iff : Under up s a ↔ s = a ∨ Below up s a := by
  unfold Under Below
  rw [Relation.reflTransGen_iff_eq_or_transGen, eq_comm]

/-- A node is strictly below what its parent is under. -/
theorem below_iff_parent (h : up c = some p) : Below up c a ↔ Under up p a := by
  refine ⟨fun hb => ?_, fun hu => Relation.TransGen.head' h hu⟩
  obtain ⟨q, hq, hu⟩ := Relation.TransGen.head'_iff.1 hb
  have hpq : p = q := some.inj (h.symm.trans hq)
  exact hpq ▸ hu

theorem not_below_of_none (h : up c = none) : ¬Below up c a := by
  intro hb
  obtain ⟨q, hq, -⟩ := Relation.TransGen.head'_iff.1 hb
  rw [Child, h] at hq
  cases hq

/-- The ancestors of a node are linearly ordered. -/
theorem Under.total (ha : Under up s a) (hb : Under up s b) : Under up a b ∨ Under up b a := by
  induction ha using head_induction_on with
  | refl => exact .inl hb
  | @head s q hq ha ih =>
    rcases under_iff.1 hb with rfl | hb
    · exact .inr (head hq ha)
    · exact ih ((below_iff_parent hq).1 hb)

/-- A proper descendant is under exactly one child. -/
theorem Below.child (h : Below up s a) : ∃ c, up c = some a ∧ Under up s c := by
  obtain ⟨c, hu, hc⟩ := Relation.TransGen.tail'_iff.1 h
  exact ⟨c, hc, hu⟩

/-! ## Chains -/

theorem isChain_chain (fuel : Nat) (s : σ) : (chain up fuel s).IsChain (Child up) := by
  induction fuel generalizing s with
  | zero => exact .nil
  | succ fuel ih =>
    rw [chain]
    cases h : up s with
    | none => exact .singleton s
    | some p =>
      cases fuel with
      | zero => exact .singleton s
      | succ fuel => exact .cons_cons h (ih p)

theorem under_of_mem_chain {fuel : Nat} (ha : a ∈ chain up fuel s) : Under up s a := by
  induction fuel generalizing s with
  | zero => cases ha
  | succ fuel ih =>
    rcases mem_cons.1 ha with rfl | ha
    · exact .refl a
    · cases hp : up s with
      | none => simp [hp] at ha
      | some p =>
        rw [hp] at ha
        exact (below_of_child hp).under.trans (ih ha)

/-- A chain that is shorter than its fuel has come to its end. -/
theorem chain_succ_of_length_lt {fuel : Nat} (h : (chain up fuel s).length < fuel) :
    chain up (fuel + 1) s = chain up fuel s := by
  induction fuel generalizing s with
  | zero => cases h
  | succ fuel ih =>
    rw [chain, chain]
    cases hp : up s with
    | none => rfl
    | some p =>
      rw [chain, hp, length_cons] at h
      exact congrArg (s :: ·) (ih (Nat.lt_of_succ_lt_succ h))

theorem mem_nodes_of_mem_dropLast (h : IsForest up nodes) (fuel : Nat) :
    a ∈ (chain up fuel s).dropLast → a ∈ nodes := by
  induction fuel generalizing s with
  | zero => exact fun ha => absurd ha not_mem_nil
  | succ fuel ih =>
    intro ha
    rw [chain] at ha
    cases hp : up s with
    | none => simp [hp] at ha
    | some p =>
      rw [hp, elim_some] at ha
      cases hrest : chain up fuel p with
      | nil => simp [hrest] at ha
      | cons b l =>
        rw [hrest, dropLast_cons_cons, ← hrest] at ha
        rcases mem_cons.1 ha with rfl | ha
        · exact h.mem_nodes a p hp
        · exact ih ha

namespace IsForest

variable (h : IsForest up nodes)
include h

theorem not_under_of_below (hb : Below up s a) : ¬Under up a s :=
  fun hu => h.acyclic s (hb.trans_under hu)

theorem nodup_chain (fuel : Nat) (s : σ) : (chain up fuel s).Nodup := by
  have hpair : (chain up fuel s).Pairwise (Below up) := by
    rw [← isChain_iff_pairwise]
    exact (isChain_chain fuel s).imp fun _ _ hc => below_of_child hc
  refine hpair.imp ?_
  rintro x y hb rfl
  exact h.acyclic x hb

/-- All nodes of a chain but the last are distinct nodes of the forest. -/
theorem length_chain_le (fuel : Nat) (s : σ) : (chain up fuel s).length ≤ nodes.length + 1 := by
  have hnodup := (dropLast_sublist _).nodup (h.nodup_chain fuel s)
  have hle := (subperm_of_subset hnodup fun _ => mem_nodes_of_mem_dropLast h fuel).length_le
  rw [length_dropLast] at hle
  omega

variable {fuel : Nat} (hfuel : nodes.length + 1 < fuel)
include hfuel

/-- With enough fuel a chain satisfies the equation of the unbounded loop. -/
theorem chain_eq (s : σ) : chain up fuel s = s :: (up s).elim [] (chain up fuel) := by
  have hle := h.length_chain_le fuel s
  rw [← chain_succ_of_length_lt (by omega)]
  rfl

theorem mem_chain : a ∈ chain up fuel s ↔ Under up s a := by
  refine ⟨under_of_mem_chain, fun hu => ?_⟩
  induction hu using head_induction_on with
  | refl =>
    rw [h.chain_eq hfuel]
    exact mem_cons_self
  | @head s p hp _ ih =>
    have hp' : up s = some p := hp
    rw [h.chain_eq hfuel, hp']
    exact mem_cons_of_mem s ih

/-- The part of a chain before an ancestor is what lies strictly below it. -/
theorem mem_takeWhile_chain [DecidableEq σ] (ht : Under up t a) :
    s ∈ (chain up fuel t).takeWhile (fun x => x ≠ a) ↔ Under up t s ∧ Below up s a := by
  induction ht using head_induction_on with
  | refl =>
    rw [h.chain_eq hfuel, takeWhile_cons_of_neg (by simp)]
    refine iff_of_false not_mem_nil fun hs => ?_
    exact h.not_under_of_below hs.2 hs.1
  | @head t p hp hu ih =>
    have hp' : up t = some p := hp
    have hta : Below up t a := (below_iff_parent hp').2 hu
    have hne : t ≠ a := fun heq => h.acyclic a (heq ▸ hta)
    rw [h.chain_eq hfuel, hp', takeWhile_cons_of_pos (by simpa using hne), elim_some,
      mem_cons, ih]
    constructor
    · rintro (rfl | ⟨hs, hb⟩)
      · exact ⟨.refl s, hta⟩
      · exact ⟨(below_of_child hp').under.trans hs, hb⟩
    · rintro ⟨hs, hb⟩
      rcases under_iff.1 hs with rfl | hs
      · exact .inl rfl
      · exact .inr ⟨(below_iff_parent hp').1 hs, hb⟩

end IsForest

end Lazily.Lib
