import Lazily.Lib.Forest
import Lazily.Lib.SortedMap
import Mathlib.Data.List.Nodup

/-!
# Chart definitions

The declarative form of a state chart (`statechart.rs`): states with a parent, a kind and
transitions, in document order. `fromStates` checks that every reference names a declared state and
that there is one root; a `ChartDef` carries what it checked. State ids, events, guards and actions
are names of one ordered type (strings, in the source).

The loops over parents and default children run for more steps than there are states. In a chart
whose parents form a tree that is as good as no bound (`IsForest.chain_eq`, `mem_enterSubtree`); in
any other the source may not return.
-/

namespace Lazily.Statechart

open Lib List Option Prod

variable {σ : Type}

inductive HistoryKind where
  | shallow
  | deep
  deriving DecidableEq, Repr

inductive Kind where
  | atomic
  | compound
  | parallel
  | history (kind : HistoryKind)
  | final
  deriving DecidableEq, Repr

/-- The kind of a pseudo-state. -/
def Kind.isHistory : Kind → Bool
  | .history _ => true
  | _ => false

/-- The kind of a state without substates of its own. -/
def Kind.isLeaf : Kind → Bool
  | .atomic | .final => true
  | _ => false

structure Transition (σ : Type) where
  target : σ
  guard : Option σ
  action : List σ
  internal : Bool
  deriving DecidableEq, Repr

structure StateDef (σ : Type) where
  parent : Option σ
  kind : Kind
  initial : Option σ
  default : Option σ
  transitions : List (σ × Transition σ)
  entry : List σ
  exit : List σ
  deriving DecidableEq, Repr

/-- The fields that name another state. -/
inductive Field where
  | parent
  | initial
  | default
  deriving DecidableEq, Repr

inductive ChartError (σ : Type) where
  | duplicate (id : σ)
  | undeclared (id : σ) (field : Field) (target : σ)
  | undeclaredTarget (id event target : σ)
  | manyRoots
  | noRoot
  deriving DecidableEq, Repr

variable [LinearOrder σ]

def StateDef.references (d : StateDef σ) : List (Field × σ) :=
  (d.parent.toList.map (Field.parent, ·)) ++ (d.initial.toList.map (Field.initial, ·)) ++
    d.default.toList.map (Field.default, ·)

/-- The first reference of a state that is not declared. -/
def checkReferences (ids : List σ) (id : σ) (d : StateDef σ) : Option (ChartError σ) :=
  match d.references.find? fun r => r.2 ∉ ids with
  | some r => some (.undeclared id r.1 r.2)
  | none =>
    match d.transitions.find? fun t => t.2.target ∉ ids with
    | some t => some (.undeclaredTarget id t.1 t.2.target)
    | none => none

variable (states : List (σ × StateDef σ))

def roots : List σ :=
  (states.filter fun e => e.2.parent = none).map Prod.fst

/-- A chart definition, in document order. -/
structure ChartDef (σ : Type) [LinearOrder σ] where
  states : List (σ × StateDef σ)
  root : σ
  distinct : (states.map Prod.fst).Nodup
  declared : ∀ e ∈ states, checkReferences (states.map Prod.fst) e.1 e.2 = none
  rooted : roots states = [root]

/-- Check the references and find the root. -/
def fromStates (distinct : (states.map Prod.fst).Nodup) : Except (ChartError σ) (ChartDef σ) :=
  match hrefs : states.findSome? fun e => checkReferences (states.map Prod.fst) e.1 e.2 with
  | some e => .error e
  | none =>
    match hroots : roots states with
    | [] => .error .noRoot
    | [root] => .ok ⟨states, root, distinct, List.findSome?_eq_none_iff.1 hrefs, hroots⟩
    | _ :: _ :: _ => .error .manyRoots

/-- Every chart definition is one that `fromStates` accepts. -/
theorem fromStates_states (chart : ChartDef σ) :
    fromStates chart.states chart.distinct = .ok chart := by
  unfold fromStates
  split
  · rename_i e he
    rw [findSome?_eq_none_iff.2 chart.declared] at he
    cases he
  · split
    · rename_i h
      rw [chart.rooted] at h
      cases h
    · rename_i root h
      have hroot : root = chart.root := by
        rw [chart.rooted] at h
        exact (singleton_inj.1 h).symm
      subst hroot
      rfl
    · rename_i h
      rw [chart.rooted] at h
      cases h

namespace ChartDef

variable (chart : ChartDef σ)

/-! ## Looking states up -/

variable (id : σ)

def stateOf : Option (StateDef σ) := (chart.states.find? fun e => e.1 = id).map Prod.snd

def kind : Kind := ((chart.stateOf id).map (·.kind)).getD .atomic

def parentOf : Option σ := (chart.stateOf id).bind (·.parent)

def initialOf : Option σ := (chart.stateOf id).bind (·.initial)

def defaultOf : Option σ := (chart.stateOf id).bind (·.default)

def entryOf : List σ := ((chart.stateOf id).map (·.entry)).getD []

def exitOf : List σ := ((chart.stateOf id).map (·.exit)).getD []

def transitionOf (event : σ) : Option (Transition σ) :=
  (chart.stateOf id).bind fun d => (d.transitions.find? fun t => t.1 = event).map Prod.snd

def children : List σ := (chart.states.filter fun e => e.2.parent = some id).map Prod.fst

def order : Nat := (chart.states.map Prod.fst).idxOf id

/-- More steps than any loop over the states of a tree takes. -/
def fuel : Nat := chart.states.length + 2

def computeDepth : Nat → σ → Nat → List (σ × Nat)
  | 0, _, _ => []
  | fuel + 1, id, current =>
    (id, current) :: (chart.children id).flatMap fun child => computeDepth fuel child (current + 1)

def depth : Nat :=
  (((chart.computeDepth chart.fuel chart.root 0).find? fun e => e.1 = id).map Prod.snd).getD 0

/-! ## Ancestors -/

def ancestorsInclusive : List σ := chain chart.parentOf chart.fuel id

def lca (a b : σ) : σ :=
  ((chart.ancestorsInclusive b).find? fun s => s ∈ chart.ancestorsInclusive a).getD chart.root

def isProperDescendant (desc anc : σ) : Bool := desc ≠ anc ∧ anc ∈ chart.ancestorsInclusive desc

/-- The path from just below `lca` down to `target`. -/
def pathBelow (lca target : σ) : List σ :=
  ((chart.ancestorsInclusive target).takeWhile fun s => s ≠ lca).reverse

/-- The parents of the chart form a tree. -/
def IsTree : Prop := ∀ s, ¬Below chart.parentOf s s

variable {chart} {id p c s t : σ} {d : StateDef σ}

theorem stateOf_eq_some : chart.stateOf id = some d ↔ (id, d) ∈ chart.states := by
  unfold stateOf
  constructor
  · intro h
    obtain ⟨e, he, rfl⟩ := map_eq_some_iff.1 h
    have hid : e.1 = id := by simpa using find?_some he
    exact hid ▸ mem_of_find?_eq_some he
  · intro hmem
    cases hf : chart.states.find? fun e => e.1 = id with
    | none => exact absurd (decide_eq_true rfl) (find?_eq_none.1 hf (id, d) hmem)
    | some e =>
      have hid : e.1 = id := by simpa using find?_some hf
      have heq := inj_on_of_nodup_map chart.distinct (mem_of_find?_eq_some hf) hmem hid
      rw [heq, map_some]

/-- What the fields of a declared state are. -/
theorem fields_of_mem (h : (id, d) ∈ chart.states) :
    chart.kind id = d.kind ∧ chart.parentOf id = d.parent ∧ chart.initialOf id = d.initial ∧
      chart.defaultOf id = d.default := by
  simp [kind, parentOf, initialOf, defaultOf, stateOf_eq_some.2 h]

/-- A state of another kind than atomic is declared. -/
theorem exists_of_kind (h : chart.kind id ≠ .atomic) : ∃ d, (id, d) ∈ chart.states := by
  cases hd : chart.stateOf id with
  | none => exact absurd (by rw [kind, hd]; rfl) h
  | some d => exact ⟨d, stateOf_eq_some.1 hd⟩

theorem mem_children : c ∈ chart.children p ↔ chart.parentOf c = some p := by
  unfold children parentOf
  simp only [List.mem_map, mem_filter, decide_eq_true_eq, bind_eq_some_iff, stateOf_eq_some]
  constructor
  · rintro ⟨⟨c', d⟩, ⟨hmem, hp⟩, rfl⟩
    exact ⟨d, hmem, hp⟩
  · rintro ⟨d, hmem, hp⟩
    exact ⟨(c, d), ⟨hmem, hp⟩, rfl⟩

theorem mem_states_of_parentOf (h : chart.parentOf c = some p) : c ∈ chart.states.map fst := by
  obtain ⟨d, hd, -⟩ := bind_eq_some_iff.1 h
  exact mem_map.2 ⟨(c, d), stateOf_eq_some.1 hd, rfl⟩

/-- A rank that grows from parent to child shows that there is no cycle. -/
theorem isTree_of_rank (rank : σ → Nat)
    (h : ∀ e ∈ chart.states, ∀ p ∈ e.2.parent, rank p < rank e.1) : chart.IsTree := by
  have hlt : ∀ c a, Below chart.parentOf c a → rank a < rank c := by
    intro c a hb
    have hstep : ∀ c p, chart.parentOf c = some p → rank p < rank c := by
      intro c p hp
      obtain ⟨d, hd, hdp⟩ := bind_eq_some_iff.1 hp
      exact h (c, d) (stateOf_eq_some.1 hd) p hdp
    induction hb with
    | single hp => exact hstep _ _ hp
    | tail _ hp ih => exact (hstep _ _ hp).trans ih
  exact fun s hb => lt_irrefl _ (hlt s s hb)

theorem isForest (h : chart.IsTree) : IsForest chart.parentOf (chart.states.map fst) :=
  ⟨fun _ _ => mem_states_of_parentOf, h⟩

theorem fuel_lt (chart : ChartDef σ) : (chart.states.map fst).length + 1 < chart.fuel := by
  rw [length_map, fuel]
  omega

theorem mem_ancestorsInclusive (h : chart.IsTree) :
    t ∈ chart.ancestorsInclusive s ↔ Under chart.parentOf s t :=
  (isForest h).mem_chain chart.fuel_lt

theorem isProperDescendant_iff (h : chart.IsTree) :
    chart.isProperDescendant s t = true ↔ Below chart.parentOf s t := by
  unfold isProperDescendant
  rw [decide_eq_true_iff, mem_ancestorsInclusive h, under_iff]
  constructor
  · rintro ⟨hne, heq | hb⟩
    · exact absurd heq hne
    · exact hb
  · intro hb
    refine ⟨?_, .inr hb⟩
    rintro rfl
    exact h s hb

theorem mem_pathBelow (h : chart.IsTree) (ht : Under chart.parentOf t p) :
    s ∈ chart.pathBelow p t ↔ Under chart.parentOf t s ∧ Below chart.parentOf s p := by
  unfold pathBelow
  rw [mem_reverse]
  exact (isForest h).mem_takeWhile_chain chart.fuel_lt ht

/-! ## The root -/

def Declared (chart : ChartDef σ) (id : σ) : Prop := id ∈ chart.states.map Prod.fst

theorem declared_reference (hd : chart.stateOf id = some d) (field : Field) {r : σ}
    (hr : (field, r) ∈ d.references) : chart.Declared r := by
  have hcheck := chart.declared (id, d) (stateOf_eq_some.1 hd)
  unfold checkReferences at hcheck
  split at hcheck
  · cases hcheck
  · rename_i hnone
    exact not_not.1 fun hn => find?_eq_none.1 hnone (field, r) hr (decide_eq_true hn)

theorem declared_target {event : σ} {tr : Transition σ}
    (h : chart.transitionOf id event = some tr) : chart.Declared tr.target := by
  obtain ⟨d, hd, htr⟩ := bind_eq_some_iff.1 h
  obtain ⟨e, he, rfl⟩ := map_eq_some_iff.1 htr
  have hcheck := chart.declared (id, d) (stateOf_eq_some.1 hd)
  unfold checkReferences at hcheck
  split at hcheck
  · cases hcheck
  · split at hcheck
    · cases hcheck
    · rename_i hnone
      refine not_not.1 fun hn => ?_
      exact find?_eq_none.1 hnone e (mem_of_find?_eq_some he) (decide_eq_true hn)

theorem declared_parent (h : chart.parentOf c = some p) : chart.Declared p := by
  obtain ⟨d, hd, hp⟩ := bind_eq_some_iff.1 h
  exact declared_reference hd .parent (by simp [StateDef.references, hp])

theorem eq_root_iff (hid : chart.Declared id) : chart.parentOf id = none ↔ id = chart.root := by
  obtain ⟨⟨id', d⟩, hmem, rfl⟩ := mem_map.1 hid
  have hparent : chart.parentOf id' = d.parent := by
    rw [parentOf, stateOf_eq_some.2 hmem, bind_some]
  have hroots : id' ∈ roots chart.states ↔ d.parent = none := by
    unfold roots
    simp only [List.mem_map, mem_filter, decide_eq_true_eq]
    constructor
    · rintro ⟨e, ⟨he, hnone⟩, heq⟩
      rwa [inj_on_of_nodup_map chart.distinct he hmem heq] at hnone
    · exact fun hnone => ⟨(id', d), ⟨hmem, hnone⟩, rfl⟩
  rw [hparent, ← hroots, chart.rooted, mem_singleton]

theorem declared_root (chart : ChartDef σ) : chart.Declared chart.root := by
  have hmem : chart.root ∈ roots chart.states := by
    rw [chart.rooted]
    exact mem_singleton_self _
  obtain ⟨e, he, heq⟩ := mem_map.1 hmem
  exact mem_map.2 ⟨e, (mem_filter.1 he).1, heq⟩

variable (hs : chart.Declared s)
include hs

theorem under_root (h : chart.IsTree) : Under chart.parentOf s chart.root := by
  induction hn : (chart.ancestorsInclusive s).length using Nat.strong_induction_on
    generalizing s with
  | _ n ih =>
    cases hp : chart.parentOf s with
    | none => rw [(eq_root_iff hs).1 hp]; exact .refl _
    | some p =>
      refine (below_of_child hp).under.trans (ih _ ?_ (declared_parent hp) rfl)
      have hchain := (isForest h).chain_eq chart.fuel_lt s
      rw [hp, elim_some] at hchain
      rw [← hn, ancestorsInclusive, ancestorsInclusive, hchain, length_cons]
      exact Nat.lt_succ_self _

theorem declared_of_under (h : Under chart.parentOf s t) : chart.Declared t := by
  induction h with
  | refl => exact hs
  | tail _ hp _ => exact declared_parent hp

theorem under_lca (h : chart.IsTree) (ht : chart.Declared t) :
    Under chart.parentOf s (chart.lca s t) ∧ Under chart.parentOf t (chart.lca s t) := by
  unfold lca
  cases hf : (chart.ancestorsInclusive t).find? fun x => x ∈ chart.ancestorsInclusive s with
  | none => exact ⟨under_root hs h, under_root ht h⟩
  | some l =>
    refine ⟨(mem_ancestorsInclusive h).1 (by simpa using find?_some hf), ?_⟩
    exact (mem_ancestorsInclusive h).1 (mem_of_find?_eq_some hf)

end ChartDef

end Lazily.Statechart
