import Lazily.Statechart.Chart
import Mathlib.Data.List.Sort

/-!
# The transition engine

`engineSend` computes one macrostep: per active leaf the innermost enabled transition, conflicts
resolved by exit sets in order of depth, history recorded for what is left, and the configuration
rebuilt from the union of what is left and what is entered.
-/

namespace Lazily.Statechart

open Lib Lib.SortedSet

variable {σ : Type} [LinearOrder σ]

abbrev Config (σ : Type) [LinearOrder σ] := SortedSet σ

/-- What a region left behind: the active child, or everything that was active below it. -/
inductive Recording (σ : Type) [LinearOrder σ] where
  | shallow (child : σ)
  | deep (set : Config σ)

/-- Recordings by history state. -/
abbrev History (σ : Type) [LinearOrder σ] := σ → Option (Recording σ)

/-- The named guards of one send. -/
abbrev Guards (σ : Type) := σ → Option Bool

omit [LinearOrder σ] in
/-- A guard that is not given fails. -/
def guardPasses (t : Transition σ) (guards : Guards σ) : Bool :=
  match t.guard with
  | none => true
  | some name => (guards name).getD false

namespace ChartDef

variable (chart : ChartDef σ)

/-- Enter a state and its default descendants, with their entry actions. -/
def enterSubtree : Nat → σ → Config σ × List σ → Config σ × List σ
  | 0, _, acc => acc
  | fuel + 1, state, acc =>
    let acc := (acc.1.insert state, acc.2 ++ chart.entryOf state)
    match chart.kind state with
    | .atomic | .final | .history _ => acc
    | .compound =>
      match chart.initialOf state with
      | some init => enterSubtree fuel init acc
      | none => acc
    | .parallel =>
      (chart.children state).foldl (fun acc region => enterSubtree fuel region acc) acc

/-- Enter a state and its default descendants, for the set alone. -/
def enterInto (state : σ) (enter : Config σ) : Config σ :=
  (chart.enterSubtree chart.fuel state (enter, [])).1

/-- What a history state brings back: the recording, else the default or initial state. -/
def restoreViaHistory (history : History σ) (hist region : σ) (enter : Config σ) : Config σ :=
  match history hist with
  | some (.shallow child) => chart.enterInto child (enter.insert child)
  | some (.deep set) => enter.insertAll set.toList
  | none =>
    match chart.defaultOf hist <|> chart.initialOf region with
    | some start => chart.enterInto start (enter.insertAll (chart.pathBelow region start))
    | none => enter

/-- A transition that a leaf has found on one of its ancestors. -/
structure Cand (σ : Type) where
  source : σ
  transition : Transition σ
  leaf : σ

/-- The state whose substates a transition leaves. -/
def scope (cand : Cand σ) : σ :=
  if cand.transition.internal ∧ (cand.transition.target = cand.source ∨
      chart.isProperDescendant cand.transition.target cand.source) then cand.source
  else chart.lca cand.leaf cand.transition.target

variable (config : Config σ)

def exitSet (cand : Cand σ) : Config σ :=
  config.filter fun s => chart.isProperDescendant s (chart.scope cand)

def regionOf (hist : σ) : σ := (chart.parentOf hist).getD chart.root

variable (history : History σ)

/-- The path from the scope to the target and what is entered below. -/
def enterSet (cand : Cand σ) : Config σ :=
  let target := cand.transition.target
  if (chart.kind target).isHistory then
    chart.restoreViaHistory history target (chart.regionOf target)
      (SortedSet.insertAll ∅ (chart.pathBelow (chart.scope cand) (chart.regionOf target)))
  else
    chart.enterInto target (SortedSet.insertAll ∅ (chart.pathBelow (chart.scope cand) target))

/-- The innermost enabled transition of a leaf. -/
def candidateOf (event : σ) (guards : Guards σ) (leaf : σ) : Option (Cand σ) :=
  (chart.ancestorsInclusive leaf).findSome? fun anc =>
    (chart.transitionOf anc event).bind fun t =>
      if guardPasses t guards then some ⟨anc, t, leaf⟩ else none

/-- The enabled transitions, one for each active leaf that has one. -/
def enabled (event : σ) (guards : Guards σ) : List (Cand σ) :=
  (config.toList.filter fun s => (chart.kind s).isLeaf).filterMap (chart.candidateOf event guards)

/-- The order of the conflict resolution: deeper sources first, then document order. -/
def Precedes (a b : Cand σ) : Prop :=
  chart.depth b.source < chart.depth a.source ∨
    chart.depth a.source = chart.depth b.source ∧ chart.order a.source ≤ chart.order b.source

instance : DecidableRel chart.Precedes := fun a b =>
  inferInstanceAs (Decidable (chart.depth b.source < chart.depth a.source ∨
    chart.depth a.source = chart.depth b.source ∧ chart.order a.source ≤ chart.order b.source))

/-- What the transitions taken so far leave and enter. -/
structure Selection (σ : Type) [LinearOrder σ] where
  exitUnion : Config σ
  enterUnion : Config σ
  taken : List (Transition σ)

/-- Take a transition unless it leaves a state that is left already. -/
def select (sel : Selection σ) (cand : Cand σ) : Selection σ :=
  let exitSet := chart.exitSet config cand
  if exitSet.toList.any (· ∈ sel.exitUnion) then sel
  else
    { exitUnion := sel.exitUnion.insertAll exitSet.toList
      enterUnion := sel.enterUnion.insertAll (chart.enterSet history cand).toList
      taken := sel.taken ++ [cand.transition] }

/-- The first history child of a region. -/
def historyChildOf (region : σ) : Option σ :=
  (chart.children region).find? fun c => (chart.kind c).isHistory

/-- Record what was active in a region. -/
def recordRegion (region hist : σ) (config : Config σ) (history : History σ) : History σ :=
  match chart.kind hist with
  | .history .shallow =>
    match (chart.children region).find? fun c => c ∈ config ∧ ¬(chart.kind c).isHistory with
    | some c => Function.update history hist (some (.shallow c))
    | none => history
  | .history .deep =>
    Function.update history hist
      (some (.deep (config.filter fun s => chart.isProperDescendant s region)))
  | _ => history

def recordAll (left : List σ) : History σ :=
  left.foldl (fun history s =>
    match chart.historyChildOf s with
    | some hist => chart.recordRegion s hist config history
    | none => history) history

/-- Exit actions from the inside, transition actions, entry actions from the outside. -/
def actions (sel : Selection σ) : List σ :=
  ((sel.exitUnion.toList.insertionSort fun a b => chart.depth b ≤ chart.depth a).flatMap
      chart.exitOf) ++
    sel.taken.flatMap (·.action) ++
    (sel.enterUnion.toList.insertionSort fun a b => chart.depth a ≤ chart.depth b).flatMap
      chart.entryOf

/-- The transitions that an event takes. -/
def selection (event : σ) (guards : Guards σ) : Selection σ :=
  ((chart.enabled config event guards).insertionSort chart.Precedes).foldl
    (chart.select config history) ⟨∅, ∅, []⟩

/-- One macrostep; `none` if the event is rejected. -/
def engineSend (config : Config σ) (event : σ) (guards : Guards σ) :
    Option (Config σ × List σ × History σ) :=
  let sel := chart.selection config history event guards
  if sel.taken = [] then none
  else
    some (SortedSet.insertAll (config.filter (· ∉ sel.exitUnion)) sel.enterUnion.toList,
      chart.actions sel, chart.recordAll config history sel.exitUnion.toList)

end ChartDef

structure StateChart (σ : Type) [LinearOrder σ] where
  config : Config σ
  history : History σ
  lastActions : List σ

namespace StateChart

def new (chart : ChartDef σ) : StateChart σ :=
  let entered := chart.enterSubtree chart.fuel chart.root (∅, [])
  ⟨entered.1, fun _ => none, entered.2⟩

def send (chart : ChartDef σ) (machine : StateChart σ) (event : σ) (guards : Guards σ) :
    StateChart σ × Bool :=
  match chart.engineSend machine.history machine.config event guards with
  | some (config, actions, history) => (⟨config, history, actions⟩, true)
  | none => ({ machine with lastActions := [] }, false)

def step (chart : ChartDef σ) (machine : StateChart σ) (e : σ × Guards σ) : StateChart σ :=
  (machine.send chart e.1 e.2).1

end StateChart

end Lazily.Statechart
