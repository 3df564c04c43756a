import Mathlib.Data.List.Nodup
import Mathlib.Data.List.Perm.Subperm

/-!
# Preorder walks of a forest

`walk kids fuel stack` pops a node, emits it and pushes its children in its place. `Walks` is the
same loop without a bound. Where the children are the nodes of a finite list with a given parent, no
node comes up twice, so as many steps as there are nodes suffice (`walks_preorder`), also when the
parents of some nodes are missing or run in a circle.
-/

namespace Lazily.Lib

open List

variable {ι : Type} {stack out : List ι} {kids : ι → List ι}

/-- Pop a node and push its children, until the stack is empty or the fuel is spent. -/
def walk (kids : ι → List ι) : Nat → List ι → List ι
  | 0, _ => []
  | _ + 1, [] => []
  | fuel + 1, i :: stack => i :: walk kids fuel (kids i ++ stack)

/-- The loop empties the stack and emits the nodes `out`. -/
inductive Walks (kids : ι → List ι) : List ι → List ι → Prop
  | done : Walks kids [] []
  | visit {i : ι} {stack out : List ι} :
      Walks kids (kids i ++ stack) out → Walks kids (i :: stack) (i :: out)

theorem Walks.unique {out' : List ι} (h : Walks kids stack out) (h' : Walks kids stack out') :
    out = out' := by
  induction h generalizing out' with
  | done =>
    cases h'
    rfl
  | visit _ ih =>
    cases h' with
    | visit h' => rw [ih h']

/-- A walk that leaves out nodes with everything under them emits the others. -/
theorem Walks.filter (keep : ι → Bool) (hclosed : ∀ i, ∀ j ∈ kids i, keep j = true → keep i = true)
    (h : Walks kids stack out) :
    Walks (fun i => (kids i).filter keep) (stack.filter keep) (out.filter keep) := by
  induction h with
  | done => exact .done
  | @visit i stack out _ ih =>
    rw [filter_append] at ih
    by_cases hi : keep i = true
    · rw [filter_cons_of_pos hi, filter_cons_of_pos hi]
      exact .visit ih
    · have hnone : (kids i).filter keep = [] :=
        filter_eq_nil_iff.2 fun j hj hkeep => hi (hclosed i j hj hkeep)
      rw [hnone, nil_append] at ih
      rwa [filter_cons_of_neg hi, filter_cons_of_neg hi]

variable [DecidableEq ι] {nodes : List ι} {parent : ι → Option ι}

/-- The nodes with a parent, or the roots, in the order of the nodes. -/
def childrenOf (nodes : List ι) (parent : ι → Option ι) (p : Option ι) : List ι :=
  nodes.filter (parent · = p)

def preorder (nodes : List ι) (parent : ι → Option ι) : List ι :=
  walk (fun i => childrenOf nodes parent (some i)) nodes.length (childrenOf nodes parent none)

variable {i : ι}

theorem mem_childrenOf {p : Option ι} :
    i ∈ childrenOf nodes parent p ↔ i ∈ nodes ∧ parent i = p := by
  simp [childrenOf]

/-- Between two visits: nothing was or will be visited twice, and the parent of what was pushed has
been visited. -/
structure Pushed (nodes : List ι) (parent : ι → Option ι) (visited stack : List ι) : Prop where
  nodup : (visited ++ stack).Nodup
  nodes : ∀ i ∈ visited ++ stack, i ∈ nodes
  parents : ∀ i ∈ visited ++ stack, ∀ p, parent i = some p → p ∈ visited

theorem Pushed.visit {visited : List ι} (hnodup : nodes.Nodup)
    (h : Pushed nodes parent visited (i :: stack)) :
    Pushed nodes parent (visited ++ [i]) (childrenOf nodes parent (some i) ++ stack) := by
  have hin : ∀ j, j ∈ visited ++ [i] ++ (childrenOf nodes parent (some i) ++ stack) ↔
      j ∈ visited ++ i :: stack ∨ j ∈ childrenOf nodes parent (some i) := by
    simp only [mem_append, mem_cons, not_mem_nil]
    tauto
  -- the parent of a child has only been visited now
  have hfresh : ∀ j ∈ childrenOf nodes parent (some i), j ∉ visited ++ i :: stack := by
    intro j hj hold
    have hvisited := h.parents j hold i (mem_childrenOf.1 hj).2
    exact (disjoint_of_nodup_append h.nodup) hvisited mem_cons_self
  refine ⟨?_, fun j hj => ?_, fun j hj p hp => ?_⟩
  · have hperm : (visited ++ [i] ++ (childrenOf nodes parent (some i) ++ stack)).Perm
        (childrenOf nodes parent (some i) ++ (visited ++ i :: stack)) := by
      have hswap : (childrenOf nodes parent (some i) ++ stack).Perm
          (stack ++ childrenOf nodes parent (some i)) := perm_append_comm
      refine (hswap.append_left _).trans ?_
      rw [← append_assoc, append_assoc visited, singleton_append]
      exact perm_append_comm
    refine hperm.nodup_iff.2 (nodup_append.2 ⟨hnodup.filter _, h.nodup, ?_⟩)
    rintro a ha b hb rfl
    exact hfresh a ha hb
  · rcases (hin j).1 hj with hj | hj
    · exact h.nodes j hj
    · exact (mem_childrenOf.1 hj).1
  · rcases (hin j).1 hj with hj | hj
    · exact mem_append_left _ (h.parents j hj p hp)
    · have hparent := (mem_childrenOf.1 hj).2
      rw [hp] at hparent
      exact mem_append_right _ (mem_singleton.2 (Option.some.inj hparent))

theorem Pushed.walks (hnodup : nodes.Nodup) :
    ∀ (fuel : Nat) (visited stack : List ι), Pushed nodes parent visited stack →
      nodes.length ≤ visited.length + fuel → Walks (fun i => childrenOf nodes parent (some i)) stack
        (walk (fun i => childrenOf nodes parent (some i)) fuel stack)
  | 0, visited, stack, h, hfuel => by
    have hlen : (visited ++ stack).length ≤ nodes.length := (h.nodup.subperm h.nodes).length_le
    rw [length_append] at hlen
    have hnil : stack = [] := length_eq_zero_iff.1 (by omega)
    subst hnil
    exact .done
  | fuel + 1, visited, [], h, hfuel => .done
  | fuel + 1, visited, i :: stack, h, hfuel => by
    refine .visit (Pushed.walks hnodup fuel (visited ++ [i]) _ (h.visit hnodup) ?_)
    rw [length_append, length_singleton]
    omega

/-- The walk from the roots comes to its end. -/
theorem walks_preorder (parent : ι → Option ι) (hnodup : nodes.Nodup) :
    Walks (fun i => childrenOf nodes parent (some i)) (childrenOf nodes parent none)
      (preorder nodes parent) := by
  refine Pushed.walks hnodup nodes.length [] _ ⟨hnodup.filter _, fun i hi => ?_, ?_⟩ (by simp)
  · exact (mem_childrenOf.1 hi).1
  · intro i hi p hp
    rw [(mem_childrenOf.1 hi).2] at hp
    cases hp

/-! ## Leaving nodes out -/

/-- Leaving out nodes with everything under them leaves them out of the preorder. -/
theorem preorder_filter (hnodup : nodes.Nodup) {keep : ι → Bool}
    (hclosed : ∀ j ∈ nodes, ∀ i, parent j = some i → keep j = true → keep i = true) :
    preorder (nodes.filter keep) parent = (preorder nodes parent).filter keep := by
  have hchildren : ∀ p, childrenOf (nodes.filter keep) parent p =
      (childrenOf nodes parent p).filter keep := fun p => filter_comm _ _ nodes
  have hfull := (walks_preorder parent hnodup).filter keep
    fun i j hj => hclosed j (mem_childrenOf.1 hj).1 i (mem_childrenOf.1 hj).2
  have hleft := walks_preorder parent (hnodup.filter keep)
  simp only [hchildren] at hleft
  exact hleft.unique hfull

theorem preorder_congr {parent' : ι → Option ι} (h : ∀ i ∈ nodes, parent i = parent' i) :
    preorder nodes parent = preorder nodes parent' := by
  have hchildren : childrenOf nodes parent = childrenOf nodes parent' := by
    funext p
    refine filter_congr fun i hi => ?_
    rw [h i hi]
  unfold preorder
  rw [hchildren]

/-! ## What is in the walk -/

theorem Walks.visited {visited : List ι} (hnodup : nodes.Nodup)
    (h : Walks (fun i => childrenOf nodes parent (some i)) stack out)
    (hpushed : Pushed nodes parent visited stack) :
    (visited ++ out).Nodup ∧ ∀ i ∈ visited ++ out, i ∈ nodes := by
  induction h generalizing visited with
  | done => exact ⟨hpushed.nodup, hpushed.nodes⟩
  | visit _ ih =>
    have := ih (hpushed.visit hnodup)
    simpa using this

theorem preorder_visited (hnodup : nodes.Nodup) :
    (preorder nodes parent).Nodup ∧ ∀ i ∈ preorder nodes parent, i ∈ nodes := by
  have hpushed : Pushed nodes parent [] (childrenOf nodes parent none) := by
    refine ⟨hnodup.filter _, fun i hi => (mem_childrenOf.1 hi).1, fun i hi p hp => ?_⟩
    rw [(mem_childrenOf.1 hi).2] at hp
    cases hp
  exact (walks_preorder parent hnodup).visited hnodup hpushed

section Leaf

variable {n p : ι} {parent' : ι → Option ι}

variable (hsame : ∀ i ∈ nodes, parent' i = parent i)
include hsame

variable (hleaf : ∀ i ∈ n :: nodes, parent' i ≠ some n)
include hleaf

end Leaf

end Lazily.Lib
