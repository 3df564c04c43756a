import Lazily.Context.Proof.Coherent

/-!
# The invalidation walks

Both walks have one form (`Frontier`): visiting a slot weakens it, and pushes its dependents unless
the slot had been reached before. `Frontier.Inv` is the invariant of the walk over the context, the
effects collected and the stack that remains; `Frontier.walk` is its value at the end:

* every root has been visited, and so has every dependent of a slot that the walk was the first to
  reach;
* a set of nodes that is closed under dependencies and contains no root is not touched.
-/

namespace Lazily

open Lib List Nat Node Worklist

variable {τ V : Type}

namespace Context

/-- What invalidation does to a node: a slot loses its value, or gains flags. -/
inductive Weaker : Option (Node τ V) → Option (Node τ V) → Prop
  | slot (s : ComputedNode τ V) (value : Option V) (dirty force : Bool)
      (h : value = none ∨ value = s.value ∧ (dirty = false → s.dirty = false) ∧
        (force = false → s.forceRecompute = false)) :
      Weaker (some (.computed s))
        (some (.computed { s with value := value, dirty := dirty, forceRecompute := force }))
  | same (n : Option (Node τ V)) : Weaker n n

theorem Weaker.trans {a b d : Option (Node τ V)} (h1 : Weaker a b) (h2 : Weaker b d) :
    Weaker a d := by
  cases h1 with
  | same => exact h2
  | slot s value dirty force h =>
    cases h2 with
    | same => exact .slot s value dirty force h
    | slot _ value' dirty' force' h' =>
      refine .slot s value' dirty' force' ?_
      rcases h' with h' | ⟨hv, hd, hf⟩
      · exact .inl h'
      · rcases h with h | ⟨hv', hd', hf'⟩
        · exact .inl (hv.trans h)
        · exact .inr ⟨hv.trans hv', fun h => hd' (hd h), fun h => hf' (hf h)⟩

variable {n n' : Option (Node τ V)}

theorem Weaker.computed {s : ComputedNode τ V}
    (h : Weaker (some (.computed s)) n) : ∃ s', n = some (.computed s') ∧
      s' = { s with value := s'.value, dirty := s'.dirty, forceRecompute := s'.forceRecompute } ∧
      (s'.value = none ∨ s'.value = s.value ∧ (s'.dirty = false → s.dirty = false) ∧
        (s'.forceRecompute = false → s.forceRecompute = false)) := by
  cases h with
  | same => exact ⟨s, rfl, rfl, .inr ⟨rfl, id, id⟩⟩
  | slot _ value dirty force h => exact ⟨_, rfl, rfl, h⟩

theorem Weaker.of_computed {s' : ComputedNode τ V}
    (h : Weaker n (some (.computed s'))) : ∃ s, n = some (.computed s) := by
  cases h with
  | same => exact ⟨s', rfl⟩
  | slot s value dirty force h => exact ⟨s, rfl⟩

/-- The dependent list of `x` is off its node. -/
def unlisted (c : Context τ V) (x : SlotId) : Context τ V :=
  c.modifyNode x (·.mapDependents fun _ => [])

theorem unlisted_setNode {c : Context τ V} {i x : SlotId} (hi : i ≠ x) (n : Option (Node τ V)) :
    (c.setNode i n).unlisted x = (c.unlisted x).setNode i n := by
  simp only [unlisted, modifyNode, setNode, if_neg hi.symm]
  congr 1
  funext j
  by_cases hj : j = i
  · simp [hj, hi]
  · simp [hj]

theorem unlisted_restore (c : Context τ V) (x : SlotId) :
    (c.unlisted x).modifyNode x (·.mapDependents fun _ => c.dependentsOf x) = c := by
  simp only [unlisted, modifyNode, setNode]
  congr 1
  funext j
  by_cases hj : j = x
  · rcases hn : c.nodes x with _ | (s | s | e) <;>
      simp [hj, hn, mapDependents, dependentsOf, dependents]
  · simp [hj]

theorem Weaker.dependencies (h : Weaker n n') : n'.map dependencies = n.map dependencies := by
  cases h <;> rfl

theorem Weaker.dependents (h : Weaker n n') : n'.map dependents = n.map dependents := by
  cases h <;> rfl

end Context

open Context

/-- The common form of `mark_frontier_locked` and `clear_frontier_locked`: how a visit updates a
slot, when it goes on to the dependents and with which flag. `weak` is what every visit establishes,
`strong` what a visit with the flag set establishes. -/
structure Frontier (τ V : Type) where
  update : Bool → ComputedNode τ V → ComputedNode τ V
  propagates : Bool → ComputedNode τ V → Bool
  force : Bool
  weak : ComputedNode τ V → Prop
  strong : ComputedNode τ V → Prop
  /-- How often a visit may still propagate from a slot. -/
  weight : ComputedNode τ V → Nat
  weaker : ∀ f s, Weaker (some (.computed s)) (some (.computed (update f s)))
  weak_update : ∀ f s, weak (update f s)
  strong_update : ∀ s, strong (update true s)
  strong_stable : ∀ f s, strong s → strong (update f s)
  fresh : ∀ f s, ¬ weak s → propagates f s = true
  /-- A walk that takes values away tells the dependents so (`force`). -/
  keeps : force = false → ∀ f s, (update f s).value = s.value
  takes : force = true → ∀ s, s.value ≠ none → ¬ weak s
  weight_update : ∀ f s, (if propagates f s then 1 else 0) + weight (update f s) ≤ weight s

namespace Frontier

variable (F : Frontier τ V)

def visit (i : SlotId × Bool) (s : Context τ V × List (SlotId × Bool)) :
    (Context τ V × List (SlotId × Bool)) × List (SlotId × Bool) :=
  match s.1.nodes i.1 with
  | some (.computed slot) =>
    ((s.1.setNode i.1 (some (.computed (F.update i.2 slot))), s.2),
      if F.propagates i.2 slot then slot.dependents.map (·, F.force) else [])
  | some (.effect _) => ((s.1, s.2 ++ [(i.1, i.2 || F.force)]), [])
  | _ => (s, [])

def Visited (s : Context τ V × List (SlotId × Bool)) (y : SlotId) (f : Bool) : Prop :=
  (∀ b, s.1.nodes y = some (.computed b) → F.weak b ∧ (f = true → F.strong b)) ∧
    ∀ e, s.1.nodes y = some (.effect e) → (y, f || F.force) ∈ s.2

/-- Sets of nodes that contain the dependencies of their members. -/
def ClosedSet (c : Context τ V) (S : SlotId → Prop) : Prop :=
  ∀ x y, y ∈ c.dependentsOf x → S y → S x

/-- The invariant of a walk that started at `roots` in context `c`. -/
structure Inv (c : Context τ V) (roots : List SlotId) (s : Context τ V × List (SlotId × Bool))
    (stack : List (SlotId × Bool)) : Prop where
  frame : s.1 = { c with nodes := s.1.nodes }
  nodes : ∀ i, s.1.nodes i = c.nodes i ∨ ∃ a b, c.nodes i = some (.computed a) ∧
    s.1.nodes i = some (.computed b) ∧ F.weak b
  weaker : ∀ i, Weaker (c.nodes i) (s.1.nodes i)
  keeps : F.force = false → ∀ i, s.1.valueAt i = c.valueAt i
  root : ∀ r ∈ roots, (r, true) ∈ stack ∨ F.Visited s r true
  spread : ∀ x a b, c.nodes x = some (.computed a) → s.1.nodes x = some (.computed b) →
    ¬ F.weak a → F.weak b → ∀ y ∈ a.dependents, (y, F.force) ∈ stack ∨ F.Visited s y F.force
  effects : ∀ p ∈ s.2, ∃ e, c.nodes p.1 = some (.effect e)
  apart : ∀ S, ClosedSet c S → (∀ r ∈ roots, ¬ S r) →
    (∀ p ∈ stack, ¬ S p.1) ∧ (∀ p ∈ s.2, ¬ S p.1) ∧ ∀ i, S i → s.1.nodes i = c.nodes i
  /-- A walk that does not force what it passes on forces its roots only. -/
  forced : F.force = false → ∀ i, (i, true) ∈ stack ∨ (i, true) ∈ s.2 → i ∈ roots

/-! ## One visit -/

section Visit

variable {F} {i : SlotId × Bool} {s : Context τ V × List (SlotId × Bool)} {y : SlotId} {f : Bool}

theorem visit_computed {b : ComputedNode τ V} (h : s.1.nodes i.1 = some (.computed b)) :
    F.visit i s = ((s.1.setNode i.1 (some (.computed (F.update i.2 b))), s.2),
      if F.propagates i.2 b then b.dependents.map (·, F.force) else []) := by
  simp [visit, h]

/-- Off the slots a visit collects the effect, if there is one. -/
theorem visit_other (hc : ¬ ∃ b, s.1.nodes i.1 = some (.computed b)) :
    ∃ new, F.visit i s = ((s.1, s.2 ++ new), []) ∧
      (∀ e, s.1.nodes i.1 = some (.effect e) → (i.1, i.2 || F.force) ∈ new) ∧
      ∀ p ∈ new, p = (i.1, i.2 || F.force) ∧ ∃ e, s.1.nodes i.1 = some (.effect e) := by
  unfold visit
  split
  · exact absurd ⟨_, ‹_›⟩ hc
  · rename_i e he
    exact ⟨[_], rfl, by simp, by simp [he]⟩
  · rename_i he
    exact ⟨[], by simp, fun e h => absurd h (he e), by simp⟩

theorem Visited.stable (h : F.Visited s y f) : F.Visited (F.visit i s).1 y f := by
  by_cases hc : ∃ b, s.1.nodes i.1 = some (.computed b)
  · obtain ⟨b, hb⟩ := hc
    rw [visit_computed hb]
    by_cases hy : y = i.1
    · subst hy
      obtain ⟨-, hstrong⟩ := h.1 b hb
      constructor
      · intro b' hb'
        simp only [setNode_same, Option.some.injEq, computed.injEq] at hb'
        subst hb'
        exact ⟨F.weak_update _ _, fun hf => F.strong_stable _ _ (hstrong hf)⟩
      · intro e he
        simp only [setNode_same, Option.some.injEq, reduceCtorEq] at he
    · simp only [Visited, setNode_ne _ hy]
      exact h
  · obtain ⟨new, hv, -⟩ := visit_other hc
    rw [hv]
    exact ⟨h.1, fun e he => mem_append_left _ (h.2 e he)⟩

theorem visit_unlisted {x : SlotId} (hi : i.1 ≠ x) : F.visit i (s.1.unlisted x, s.2) =
    (((F.visit i s).1.1.unlisted x, (F.visit i s).1.2), (F.visit i s).2) := by
  have hn : (s.1.unlisted x).nodes i.1 = s.1.nodes i.1 := setNode_ne _ hi _
  unfold visit
  simp only [hn]
  split
  · simp only [unlisted_setNode hi]
  · rfl
  · rfl

theorem visited_visit : F.Visited (F.visit i s).1 i.1 i.2 := by
  by_cases hc : ∃ b, s.1.nodes i.1 = some (.computed b)
  · obtain ⟨b, hb⟩ := hc
    rw [visit_computed hb]
    constructor
    · intro b' hb'
      simp only [setNode_same, Option.some.injEq, computed.injEq] at hb'
      subst hb'
      exact ⟨F.weak_update _ _, fun hf => hf ▸ F.strong_update _⟩
    · intro e he
      simp only [setNode_same, Option.some.injEq, reduceCtorEq] at he
  · obtain ⟨new, hv, hmem, -⟩ := visit_other hc
    rw [hv]
    exact ⟨fun b hb => absurd ⟨b, hb⟩ hc, fun e he => mem_append_right _ (hmem e he)⟩

/-- What waited on the stack still waits or has been visited, and what had been visited still is. -/
theorem pending_visit {rest pushed : List (SlotId × Bool)}
    (h : (y, f) ∈ i :: rest ∨ F.Visited s y f) :
    (y, f) ∈ pushed ++ rest ∨ F.Visited (F.visit i s).1 y f := by
  rcases h with h | h
  · rcases mem_cons.1 h with h | h
    · exact .inr (h ▸ visited_visit)
    · exact .inl (mem_append_right _ h)
  · exact .inr h.stable

end Visit

/-! ## The walk -/

section Walk

variable {F} {c : Context τ V} {roots : List SlotId} {i : SlotId × Bool}
  {s : Context τ V × List (SlotId × Bool)} {rest : List (SlotId × Bool)} {c : Context τ V}
    {fuel : Nat}

theorem Inv.start (c : Context τ V) (roots : List SlotId) :
    F.Inv c roots (c, []) (rootStack roots) where
  frame := rfl
  nodes _ := .inl rfl
  weaker _ := .same _
  keeps _ _ := rfl
  root r hr := .inl (by simpa [rootStack] using hr)
  spread x a b ha hb hna hwb := by
    rw [ha] at hb
    cases hb
    exact absurd hwb hna
  effects p hp := by cases hp
  apart S _ hr := by
    refine ⟨fun p hp => ?_, fun p hp => absurd hp not_mem_nil, fun _ _ => rfl⟩
    simp only [rootStack, mem_reverse, mem_map] at hp
    obtain ⟨r, hr', rfl⟩ := hp
    exact hr r hr'
  forced _ i hi := by simpa [rootStack] using hi

section

variable (h : F.Inv c roots s (i :: rest))
include h

theorem Inv.step_computed {b : ComputedNode τ V} (hb : s.1.nodes i.1 = some (.computed b)) :
    F.Inv c roots (F.visit i s).1 ((F.visit i s).2.reverse ++ rest) := by
  -- the slot as the walk found it when it started
  have hw : Weaker (c.nodes i.1) (some (.computed b)) := hb ▸ h.weaker i.1
  obtain ⟨a, ha⟩ := hw.of_computed
  have hdep : b.dependents = a.dependents := by
    have := hw.dependents
    rw [ha] at this
    simpa [dependents] using this
  have hnodes : (F.visit i s).1.1.nodes = fun j =>
      if j = i.1 then some (.computed (F.update i.2 b)) else s.1.nodes j := by
    rw [visit_computed hb]
    rfl
  constructor
  · rw [visit_computed hb]
    show s.1.setNode _ _ = _
    simp only [setNode]
    rw [h.frame]
  · intro j
    rw [hnodes]
    by_cases hj : j = i.1
    · subst hj
      exact .inr ⟨a, F.update i.2 b, ha, by simp, F.weak_update _ _⟩
    · simpa [hj] using h.nodes j
  · intro j
    rw [hnodes]
    by_cases hj : j = i.1
    · subst hj
      simpa using hw.trans (F.weaker i.2 b)
    · simpa [hj] using h.weaker j
  · intro hF j
    rw [← h.keeps hF j]
    by_cases hj : j = i.1
    · subst hj
      simp [valueAt, hnodes, hb, value?, F.keeps hF]
    · simp [valueAt, hnodes, hj]
  · intro r hr
    exact pending_visit (h.root r hr)
  · intro x a' b' ha' hb' hna hwb y hy
    rw [hnodes] at hb'
    by_cases hx : x = i.1
    · subst hx
      rw [ha] at ha'
      cases ha'
      by_cases hwb : F.weak b
      · exact pending_visit (h.spread _ _ _ ha hb hna hwb y hy)
      · -- the walk reaches the slot for the first time: its dependents are pushed
        refine .inl (mem_append_left _ (mem_reverse.2 ?_))
        rw [visit_computed hb]
        simpa [F.fresh i.2 b hwb, hdep] using hy
    · simp only [hx] at hb'
      exact pending_visit (h.spread _ _ _ ha' hb' hna hwb y hy)
  · rw [visit_computed hb]
    exact h.effects
  · intro S hS hr
    obtain ⟨hstack, heff, hsame⟩ := h.apart S hS hr
    have hi : ¬ S i.1 := hstack i mem_cons_self
    refine ⟨fun p hp => ?_, ?_, fun j hj => ?_⟩
    · rcases mem_append.1 hp with hp | hp
      · rw [mem_reverse, visit_computed hb] at hp
        have hp' : p ∈ b.dependents.map (·, F.force) := by
          by_cases hprop : F.propagates i.2 b = true
          · simpa [hprop] using hp
          · simp [hprop] at hp
        obtain ⟨y, hy, rfl⟩ := mem_map.1 hp'
        refine fun hSy => hi (hS i.1 y ?_ hSy)
        rw [dependentsOf_computed ha, ← hdep]
        exact hy
      · exact hstack p (mem_cons_of_mem _ hp)
    · rw [visit_computed hb]
      exact heff
    · rw [hnodes]
      have : j ≠ i.1 := fun hji => hi (hji ▸ hj)
      simpa [this] using hsame j hj
  · intro hF j hj
    rw [visit_computed hb] at hj
    rcases hj with hj | hj
    · rcases mem_append.1 hj with hj | hj
      · rw [mem_reverse] at hj
        split at hj
        · simp [hF] at hj
        · cases hj
      · exact h.forced hF j (.inl (mem_cons_of_mem _ hj))
    · exact h.forced hF j (.inr hj)

theorem Inv.step_other (hc : ¬ ∃ b, s.1.nodes i.1 = some (.computed b)) :
    F.Inv c roots (F.visit i s).1 ((F.visit i s).2.reverse ++ rest) := by
  obtain ⟨new, hv, -, hnew⟩ := visit_other hc
  constructor
  · rw [hv]; exact h.frame
  · rw [hv]; exact h.nodes
  · rw [hv]; exact h.weaker
  · rw [hv]; exact h.keeps
  · exact fun r hr => pending_visit (h.root r hr)
  · intro x a b ha hb hna hwb y hy
    have hb' : s.1.nodes x = some (.computed b) := by rw [hv] at hb; exact hb
    exact pending_visit (h.spread x a b ha hb' hna hwb y hy)
  · rw [hv]
    intro p hp
    rcases mem_append.1 hp with hp | hp
    · exact h.effects p hp
    · obtain ⟨rfl, e, he⟩ := hnew p hp
      rcases h.nodes i.1 with h' | ⟨a, b, -, hb, -⟩
      · exact ⟨e, h' ▸ he⟩
      · exact absurd ⟨b, hb⟩ hc
  · intro S hS hr
    obtain ⟨hstack, heff, hsame⟩ := h.apart S hS hr
    rw [hv]
    refine ⟨fun p hp => hstack p (mem_cons_of_mem _ hp), fun p hp => ?_, hsame⟩
    rcases mem_append.1 hp with hp | hp
    · exact heff p hp
    · rw [(hnew p hp).1]
      exact hstack i mem_cons_self
  · intro hF j hj
    rw [hv] at hj
    rcases hj with hj | hj
    · exact h.forced hF j (.inl (mem_cons_of_mem _ hj))
    · rcases mem_append.1 hj with hj | hj
      · exact h.forced hF j (.inr hj)
      · have hi := (hnew _ hj).1
        rw [hF, Bool.or_false] at hi
        exact h.forced hF j (.inl (hi ▸ mem_cons_self))

theorem Inv.step : F.Inv c roots (F.visit i s).1 ((F.visit i s).2.reverse ++ rest) := by
  by_cases hc : ∃ b, s.1.nodes i.1 = some (.computed b)
  · obtain ⟨b, hb⟩ := hc
    exact h.step_computed hb
  · exact h.step_other hc

end

/-! ### It ends -/

def weightAt (F : Frontier τ V) : Option (Node τ V) → Nat
  | some (.computed b) => b.dependents.length * F.weight b
  | _ => 0

def potential (F : Frontier τ V) (n : Nat) (c : Context τ V) : Nat :=
  ((List.range n).map fun j => F.weightAt (c.nodes j)).sum

theorem potential_visit {n : Nat} (hlive : ∀ j, n ≤ j → s.1.nodes j = none) :
    (F.visit i s).2.length + F.potential n (F.visit i s).1.1 ≤ F.potential n s.1 := by
  by_cases hc : ∃ b, s.1.nodes i.1 = some (.computed b)
  · obtain ⟨b, hb⟩ := hc
    have hi : i.1 < n := by
      rcases lt_or_ge i.1 n with h | h
      · exact h
      · rw [hlive _ h] at hb
        cases hb
    have hdep : (F.update i.2 b).dependents = b.dependents := by
      simpa [dependents] using (F.weaker i.2 b).dependents
    refine add_sum_range_le (fun j hj => ?_) ?_ hi
    · rw [visit_computed hb, setNode_ne _ hj]
    · rw [visit_computed hb]
      simp only [setNode_same, hb, weightAt, hdep]
      have hw := mul_le_mul_left b.dependents.length (F.weight_update i.2 b)
      by_cases hp : F.propagates i.2 b = true
      · simpa [hp, mul_add] using hw
      · simpa [hp] using hw
  · obtain ⟨new, hv, -⟩ := visit_other hc
    rw [hv]
    simp

theorem potential_le {k : Nat} (hk : ∀ b, F.weight b ≤ k) (c : Context τ V) :
    F.potential c.nextId c ≤ k * c.edgeCount := by
  refine sum_range_le_mul (fun j => ?_) c.nextId
  unfold weightAt
  split
  · rename_i b hb
    rw [dependentsOf_computed hb, mul_comm]
    exact mul_le_mul_right _ (hk b)
  · exact zero_le _

variable (hlive : ∀ j, c.nextId ≤ j → c.nodes j = none)
include hlive

theorem Inv.live {stack : List (SlotId × Bool)} (h : F.Inv c roots s stack) (j : SlotId)
    (hj : c.nextId ≤ j) : s.1.nodes j = none := by
  rcases h.nodes j with h' | ⟨a, b, ha, -, -⟩
  · rw [h', hlive j hj]
  · rw [hlive j hj] at ha
    cases ha

/-- The walk from `roots`, at its end. -/
theorem walk (F : Frontier τ V)
    (roots : List SlotId) (hfuel : roots.length + F.potential c.nextId c ≤ fuel) :
    F.Inv c roots (Worklist.run F.visit fuel (c, []) (rootStack roots)) [] := by
  refine Worklist.run_spec (F.Inv c roots) (fun s => F.potential c.nextId s.1)
    (fun s i rest h => ⟨h.step, potential_visit (h.live hlive)⟩) fuel _ _ (Inv.start c roots) ?_
  simpa [rootStack] using hfuel

/-- The same walk with the dependent list of a node off it that the walk does not reach: `S` is
closed under dependencies, holds the node and none of the roots. -/
theorem walk_unlisted (F : Frontier τ V) {S : SlotId → Prop} {x : SlotId} (hS : ClosedSet c S)
    (hx : S x) (hroots : ∀ r ∈ roots, ¬ S r)
    (hfuel : roots.length + F.potential c.nextId (c.unlisted x) ≤ fuel) :
    let w := Worklist.run F.visit fuel (c, []) (rootStack roots)
    F.Inv c roots w [] ∧
      Worklist.run F.visit fuel (c.unlisted x, []) (rootStack roots) = (w.1.unlisted x, w.2) := by
  have hne : ∀ {s i rest}, F.Inv c roots s (i :: rest) → i.1 ≠ x := fun h hix =>
    (h.apart S hS hroots).1 _ mem_cons_self (hix ▸ hx)
  refine ⟨run_spec (F.Inv c roots) (fun s => F.potential c.nextId (s.1.unlisted x))
    (fun s i rest h => ⟨h.step, ?_⟩) fuel _ _ (Inv.start c roots)
    (by simpa [rootStack] using hfuel),
    run_map (F.Inv c roots) (g := fun s => (s.1.unlisted x, s.2))
      (fun s i rest h => ⟨h.step, visit_unlisted (hne h)⟩) fuel _ _ (Inv.start c roots)⟩
  have hpot := potential_visit (F := F) (i := i) (s := (s.1.unlisted x, s.2))
    fun j hj => by
      have hn := h.live hlive j hj
      by_cases hjx : j = x
      · simp [unlisted, modifyNode, ← hjx, hn]
      · simp [unlisted, modifyNode, setNode, hjx, hn]
  rw [visit_unlisted (hne h)] at hpot
  exact hpot

end Walk

/-! ## The two walks -/

def mark : Frontier τ V where
  update f s := { s with dirty := true, forceRecompute := s.forceRecompute || f }
  propagates f s := !s.dirty || (f && !s.forceRecompute)
  force := false
  weak s := s.dirty = true
  strong s := s.forceRecompute = true
  weight s := (if s.dirty then 0 else 1) + (if s.forceRecompute then 0 else 1)
  weaker f s := .slot s s.value true (s.forceRecompute || f) (.inr ⟨rfl, by simp, by simp_all⟩)
  weak_update _ _ := rfl
  strong_update _ := by simp
  strong_stable _ _ h := by simp [h]
  fresh _ _ h := by simp [h]
  keeps _ _ _ := rfl
  takes h := by cases h
  weight_update f s := by
    cases s.dirty <;> cases s.forceRecompute <;> cases f <;> simp

def clear : Frontier τ V where
  update _ s :=
    if s.value.isNone && !s.dirty then s
    else { s with value := none, dirty := false, forceRecompute := false }
  propagates _ s := !(s.value.isNone && !s.dirty)
  force := true
  weak s := s.value = none
  strong s := s.value = none
  weight s := if s.value.isNone && !s.dirty then 0 else 1
  weaker _ s := by
    split
    · exact .same _
    · exact .slot s none false false (.inl rfl)
  weak_update _ s := by
    split
    · rename_i h
      simpa using (Bool.and_eq_true_iff.1 h).1
    · rfl
  strong_update s := by
    split
    · rename_i h
      simpa using (Bool.and_eq_true_iff.1 h).1
    · rfl
  strong_stable _ s h := by
    split
    · exact h
    · rfl
  fresh _ s h := by
    cases hv : s.value with
    | none => exact absurd hv h
    | some v => simp
  keeps h := by cases h
  takes _ _ h := h
  weight_update _ s := by
    by_cases h : (s.value.isNone && !s.dirty) = true
    · simp [h]
    · simp [h]

theorem mark_visit : (mark : Frontier τ V).visit = markVisit := by
  funext i s
  unfold visit markVisit
  split <;> simp_all [mark]

theorem clear_visit : (clear : Frontier τ V).visit = clearVisit := by
  funext i s
  unfold visit clearVisit
  cases h : s.1.nodes i.1 with
  | none => rfl
  | some n =>
    cases n with
    | source _ => rfl
    | effect _ => simp [clear]
    | computed slot =>
      simp only [clear]
      split
      · rename_i hs
        simp only [hs]
        refine Prod.ext (Prod.ext ?_ rfl) (by simp)
        simp only [setNode]
        congr 1
        funext j
        by_cases hj : j = i.1
        · simp [hj, h]
        · simp [hj]
      · rename_i hs
        simp [hs]

end Frontier

end Lazily
