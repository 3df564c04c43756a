import Lazily.Lib.Reach
import Lazily.Statechart.Descent
import Mathlib.Data.Char

/-!
# Configurations stay legal

`legal_run`: in a well-formed chart with plain history states, a run whose enabled transitions are
`Compatible` in every step has legal configurations only. A transition into the middle of a parallel
state leaves the other regions out (`target_inside_parallel`): the enter set is the path to the
target and the default descent from it, so the condition asks for ways that pass no other region,
and for no transition to leave the leaf of a self-transition taken in the same step.
-/

namespace Lazily.Statechart

open Lib Lib.SortedSet Std.ExtTreeSet List ChartDef Function Nat

variable {σ : Type} [LinearOrder σ]

namespace ChartDef

variable (chart : ChartDef σ)

/-- The state down to which the path of a transition leads. -/
def goal (cand : Cand σ) : σ :=
  if (chart.kind cand.transition.target).isHistory then chart.regionOf cand.transition.target
  else cand.transition.target

/-- The enabled transitions of a step go direct ways, and one that leaves nothing is not below the
scope of another. -/
structure Compatible (config : Config σ) (event : σ) (guards : Guards σ) : Prop where
  direct : ∀ cand ∈ chart.enabled config event guards,
    chart.Direct (chart.scope cand) (chart.goal cand)
  undisturbed : ∀ a ∈ chart.enabled config event guards,
    ∀ b ∈ chart.enabled config event guards, (chart.exitSet config a).toList = [] →
      chart.isProperDescendant (chart.scope a) (chart.scope b) = false

variable {chart} {config : Config σ} {history : History σ} {event : σ} {guards : Guards σ}
  {cands done : List (Cand σ)} {sel : Selection σ}
  {cand : Cand σ}

/-! ## One transition -/

theorem mem_enabled (htree : chart.IsTree) (h : cand ∈ chart.enabled config event guards) :
    cand.leaf ∈ config ∧ Under chart.parentOf cand.leaf cand.source ∧
      chart.transitionOf cand.source event = some cand.transition ∧
      chart.candidateOf event guards cand.leaf = some cand := by
  obtain ⟨leaf, hleaf, hcand⟩ := mem_filterMap.1 h
  obtain ⟨anc, hanc, hfound⟩ := exists_of_findSome?_eq_some hcand
  obtain ⟨t, ht, hguard⟩ := Option.bind_eq_some_iff.1 hfound
  split at hguard
  · cases hguard
    refine ⟨mem_toList.1 (mem_filter.1 hleaf).1, ?_, ht, hcand⟩
    exact (mem_ancestorsInclusive htree).1 hanc
  · cases hguard

section

variable (hplain : chart.PlainHistory)
include hplain

/-- A declared history state has a region. -/
theorem parentOf_history {h : σ} (hd : chart.Declared h)
    (hh : (chart.kind h).isHistory = true) : chart.parentOf h = some (chart.regionOf h) := by
  cases hp : chart.parentOf h with
  | some region => rw [regionOf, hp, Option.getD_some]
  | none =>
    have hroot := hplain.root
    rw [← (eq_root_iff hd).1 hp, Proper, hh] at hroot
    cases hroot

/-- The leaf and the target of an enabled transition are under its scope; a history target is below
it, with its region under it. -/
theorem under_scope (hwf : chart.WellFormed)
    (hlegal : chart.Legal {s | s ∈ config}) (hleaf : chart.Declared cand.leaf)
    (h : cand ∈ chart.enabled config event guards) :
    Under chart.parentOf cand.leaf (chart.scope cand) ∧
      Under chart.parentOf (chart.goal cand) (chart.scope cand) ∧
      chart.Proper (chart.goal cand) := by
  obtain ⟨hmem, hsource, htr, -⟩ := mem_enabled hwf.tree h
  have htarget : Under chart.parentOf cand.leaf (chart.scope cand) ∧
      Under chart.parentOf cand.transition.target (chart.scope cand) := by
    unfold scope
    split
    · rename_i hint
      refine ⟨hsource, ?_⟩
      rcases hint.2 with heq | hb
      · rw [heq]
        exact .refl _
      · exact ((isProperDescendant_iff hwf.tree).1 hb).under
    · exact under_lca hleaf hwf.tree (declared_target htr)
  refine ⟨htarget.1, ?_⟩
  unfold goal
  cases hh : (chart.kind cand.transition.target).isHistory with
  | false => exact ⟨htarget.2, hh⟩
  | true =>
    -- the scope is active, so it is not the history state itself
    have hscope : chart.Proper (chart.scope cand) := hlegal.proper _ (hlegal.under hmem htarget.1)
    rcases under_iff.1 htarget.2 with heq | hb
    · rw [Proper, ← heq, hh] at hscope
      cases hscope
    · have hp := parentOf_history hplain (declared_target htr) hh
      rw [if_pos rfl]
      exact ⟨(below_iff_parent hp).1 hb, hplain.parent_of hp⟩

/-- The recordings are what the regions may be filled with. -/
def Recorded (chart : ChartDef σ) (history : History σ) : Prop :=
  ∀ h r, history h = some r → chart.Restorable h r

theorem fill_enterSet (hwf : chart.WellFormed)
    (hrec : chart.Recorded history) (htarget : chart.Declared cand.transition.target)
    (hunder : Under chart.parentOf (chart.goal cand) (chart.scope cand))
    (hproper : chart.Proper (chart.goal cand))
    (hdirect : chart.Direct (chart.scope cand) (chart.goal cand)) :
    chart.Fill (chart.scope cand) {x | x ∈ chart.enterSet history cand} := by
  cases hh : (chart.kind cand.transition.target).isHistory with
  | false =>
    have hgoal : chart.goal cand = cand.transition.target := by simp [goal, hh]
    rw [hgoal] at hunder hproper hdirect
    convert fill_enter hplain hwf hproper hunder hdirect using 1
    simp [enterSet, hh]
  | true =>
    have hgoal : chart.goal cand = chart.regionOf cand.transition.target := by simp [goal, hh]
    rw [hgoal] at hunder hproper hdirect
    obtain ⟨set, hset, hmem⟩ := fill_restore hplain hwf hh (parentOf_history hplain htarget hh)
      fun r hr => hrec _ r hr
    convert hset.path hwf.tree hunder hdirect
      (fun s hs _ => proper_of_under hplain hproper hs) using 1
    ext x
    simp [enterSet, hh, hmem, mem_pathBelow hwf.tree hunder]

end

/-! ## The transitions that are taken -/

/-- What the selection has taken. -/
structure Took (chart : ChartDef σ) (config : Config σ) (history : History σ)
    (sel : Selection σ) (done : List (Cand σ)) : Prop where
  exits : ∀ s, s ∈ sel.exitUnion ↔ ∃ c ∈ done, s ∈ chart.exitSet config c
  enters : ∀ s, s ∈ sel.enterUnion ↔ ∃ c ∈ done, s ∈ chart.enterSet history c
  apart : done.Pairwise fun a b => chart.Apart (chart.scope a) (chart.scope b)

section

variable (htree : chart.IsTree)
include htree

theorem mem_exitSet {s : σ} :
    s ∈ chart.exitSet config cand ↔ s ∈ config ∧ Below chart.parentOf s (chart.scope cand) := by
  rw [exitSet, mem_filter_iff, isProperDescendant_iff htree]

/-- What holds of the enabled transitions of a step from a legal configuration. -/
structure Sound (chart : ChartDef σ) (config : Config σ) (history : History σ)
    (cands : List (Cand σ)) : Prop where
  active : ∀ c ∈ cands, c.leaf ∈ config ∧ Under chart.parentOf c.leaf (chart.scope c)
  fill : ∀ c ∈ cands, chart.Fill (chart.scope c) {s | s ∈ chart.enterSet history c}
  undisturbed : ∀ a ∈ cands, ∀ b ∈ cands, (∀ s, s ∉ chart.exitSet config a) →
    ¬Below chart.parentOf (chart.scope a) (chart.scope b)
  unique : ∀ a ∈ cands, ∀ b ∈ cands, a.leaf = b.leaf → a = b

/-- Two transitions whose scopes are one above the other share a state that they leave, or are the
same. -/
theorem Sound.shared_exit (h : chart.Sound config history cands)
    {a b : Cand σ} (ha : a ∈ cands) (hb : b ∈ cands)
    (hu : Under chart.parentOf (chart.scope a) (chart.scope b)) :
    a = b ∨ ∃ s, s ∈ chart.exitSet config a ∧ s ∈ chart.exitSet config b := by
  by_cases hempty : ∀ s, s ∉ chart.exitSet config a
  · -- `a` leaves nothing: its scope is its leaf and so is that of `b`
    have hscope : chart.scope a = chart.scope b :=
      (under_iff.1 hu).resolve_right (h.undisturbed a ha b hb hempty)
    have hleaf : ∀ c ∈ cands, chart.scope c = chart.scope a → c.leaf = chart.scope a := by
      intro c hc heq
      obtain ⟨hmem, hleaf⟩ := h.active c hc
      rw [heq] at hleaf
      rcases under_iff.1 hleaf with heq | hbelow
      · exact heq
      · exact absurd ((mem_exitSet htree).2 ⟨hmem, hbelow⟩) (hempty c.leaf)
    exact .inl (h.unique a ha b hb ((hleaf a ha rfl).trans (hleaf b hb hscope.symm).symm))
  · obtain ⟨s, hs⟩ := not_forall.1 hempty
    rw [not_not] at hs
    obtain ⟨hmem, hbelow⟩ := (mem_exitSet htree).1 hs
    exact .inr ⟨s, hs, (mem_exitSet htree).2 ⟨hmem, hbelow.trans_under hu⟩⟩

theorem Took.select (hsound : chart.Sound config history cands)
    (h : chart.Took config history sel done) (hdone : done ⊆ cands) (hcand : cand ∈ cands) :
    ∃ done' ⊆ cands, chart.Took config history (chart.select config history sel cand) done' := by
  simp only [ChartDef.select]
  split
  · exact ⟨done, hdone, h⟩
  · rename_i hfree
    have hfree : ∀ s ∈ chart.exitSet config cand, s ∉ sel.exitUnion := by
      simpa using hfree
    by_cases hold : cand ∈ done
    · refine ⟨done, hdone, fun s => ?_, fun s => ?_, h.apart⟩
      · rw [mem_insertAll_iff, mem_toList, h.exits, or_iff_left_iff_imp]
        exact fun hs => ⟨cand, hold, hs⟩
      · rw [mem_insertAll_iff, mem_toList, h.enters, or_iff_left_iff_imp]
        exact fun hs => ⟨cand, hold, hs⟩
    · refine ⟨cand :: done, cons_subset.2 ⟨hcand, hdone⟩, fun s => ?_, fun s => ?_, ?_⟩
      · rw [mem_insertAll_iff, mem_toList, h.exits, or_comm]
        simp only [mem_cons, exists_eq_or_imp]
      · rw [mem_insertAll_iff, mem_toList, h.enters, or_comm]
        simp only [mem_cons, exists_eq_or_imp]
      · refine pairwise_cons.2 ⟨fun c hc => ?_, h.apart⟩
        have hne : cand ≠ c := fun heq => hold (heq ▸ hc)
        have hnone : ∀ s ∈ chart.exitSet config cand, s ∉ chart.exitSet config c :=
          fun s hs hsc => hfree s hs ((h.exits s).2 ⟨c, hc, hsc⟩)
        constructor
        · intro hu
          rcases hsound.shared_exit htree hcand (hdone hc) hu with heq | ⟨s, hs, hsc⟩
          · exact hne heq
          · exact hnone s hs hsc
        · intro hu
          rcases hsound.shared_exit htree (hdone hc) hcand hu with heq | ⟨s, hsc, hs⟩
          · exact hne heq.symm
          · exact hnone s hs hsc

theorem Took.foldl (hsound : chart.Sound config history cands) :
    ∀ todo {sel : Selection σ} {done : List (Cand σ)}, todo ⊆ cands →
      done ⊆ cands → chart.Took config history sel done → ∃ done' ⊆ cands,
        chart.Took config history (todo.foldl (chart.select config history) sel) done'
  | [], _, done, _, hdone, h => ⟨done, hdone, h⟩
  | cand :: todo, sel, done, htodo, hdone, h => by
    obtain ⟨hcand, htodo⟩ := cons_subset.1 htodo
    obtain ⟨done', hdone', h'⟩ := h.select htree hsound hdone hcand
    exact Took.foldl hsound todo htodo hdone' h'

/-! ## One macrostep -/

omit htree in
theorem sound_enabled (hwf : chart.WellFormed) (hplain : chart.PlainHistory)
    (hlegal : chart.Legal {s | s ∈ config}) (hdeclared : ∀ s ∈ config, chart.Declared s)
    (hrec : chart.Recorded history) (hcomp : chart.Compatible config event guards) :
    chart.Sound config history (chart.enabled config event guards) := by
  refine ⟨fun c hc => ?_, fun c hc => ?_, fun a ha b hb hempty => ?_, fun a ha b hb heq => ?_⟩
  · have hleaf := (mem_enabled hwf.tree hc).1
    exact ⟨hleaf, (under_scope hplain hwf hlegal (hdeclared _ hleaf) hc).1⟩
  · obtain ⟨hleaf, -, htr, -⟩ := mem_enabled hwf.tree hc
    obtain ⟨-, hunder, hproper⟩ := under_scope hplain hwf hlegal (hdeclared _ hleaf) hc
    exact fill_enterSet hplain hwf hrec (declared_target htr) hunder hproper (hcomp.direct c hc)
  · have hnil : (chart.exitSet config a).toList = [] :=
      eq_nil_iff_forall_not_mem.2 fun s hs => hempty s (mem_toList.1 hs)
    rw [← isProperDescendant_iff hwf.tree, hcomp.undisturbed a ha b hb hnil]
    exact Bool.false_ne_true
  · have ha' := (mem_enabled hwf.tree ha).2.2.2
    have hb' := (mem_enabled hwf.tree hb).2.2.2
    rw [heq, hb'] at ha'
    exact (Option.some.inj ha').symm

theorem took_selection (hsound : chart.Sound config history (chart.enabled config event guards)) :
    ∃ done ⊆ chart.enabled config event guards,
      chart.Took config history (chart.selection config history event guards) done := by
  refine Took.foldl htree hsound _ (fun c hc => (mem_insertionSort _).1 hc)
    (nil_subset _) ⟨fun s => ?_, fun s => ?_, List.Pairwise.nil⟩
  · simp
  · simp

end

/-- What the configuration becomes. -/
theorem legal_selection (hwf : chart.WellFormed) (hlegal : chart.Legal {s | s ∈ config})
    (hsound : chart.Sound config history cands) (hdone : done ⊆ cands)
    (h : chart.Took config history sel done) :
    chart.Legal {s | s ∈ SortedSet.insertAll (config.filter (· ∉ sel.exitUnion))
      sel.enterUnion.toList} := by
  convert Legal.replaceAll hwf.tree done hlegal
    (fun c hc => hlegal.under (hsound.active c (hdone hc)).1 (hsound.active c (hdone hc)).2)
    (fun c hc => hsound.fill c (hdone hc)) h.apart using 1
  ext s
  simp only [mem_insertAll_iff, mem_filter_iff, mem_toList,
    decide_eq_true_eq, h.exits, h.enters, mem_exitSet hwf.tree, not_exists, not_and]
  refine or_congr_left (and_congr_right fun hs => ?_)
  exact forall₂_congr fun c _ => forall_prop_of_true hs

theorem declared_selection (hdeclared : ∀ s ∈ config, chart.Declared s)
    (hsound : chart.Sound config history cands) (hdone : done ⊆ cands)
    (h : chart.Took config history sel done) (s : σ)
    (hs : s ∈ SortedSet.insertAll (config.filter (· ∉ sel.exitUnion)) sel.enterUnion.toList) :
    chart.Declared s := by
  rw [mem_insertAll_iff, mem_filter_iff, mem_toList, h.enters] at hs
  rcases hs with ⟨hs, -⟩ | ⟨c, hc, hs⟩
  · exact hdeclared s hs
  · obtain ⟨hleaf, hscope⟩ := hsound.active c (hdone hc)
    exact (hsound.fill c (hdone hc)).declared (declared_of_under (hdeclared _ hleaf) hscope) hs

/-! ## Recording -/

theorem recorded_recordRegion (hwf : chart.WellFormed) (hlegal : chart.Legal {s | s ∈ config})
    {region hist : σ} (hregion : region ∈ config) (hparent : chart.parentOf hist = some region)
    (hrec : chart.Recorded history) :
    chart.Recorded (chart.recordRegion region hist config history) := by
  have hof : chart.regionOf hist = region := by rw [regionOf, hparent, Option.getD_some]
  have hupdate : ∀ r, chart.Restorable hist r →
      chart.Recorded (update history hist (some r)) := by
    intro r hr h r' hr'
    by_cases hh : h = hist
    · subst hh
      rw [update_self] at hr'
      cases hr'
      exact hr
    · rw [update_of_ne hh] at hr'
      exact hrec h r' hr'
  unfold recordRegion
  split
  · split
    · rename_i child hchild
      refine hupdate _ ⟨?_, ?_⟩
      · rw [hof]
        exact mem_children.1 (mem_of_find?_eq_some hchild)
      · have hfound := find?_some hchild
        simp only [Bool.not_eq_true, decide_eq_true_eq] at hfound
        exact hfound.2
    · exact hrec
  · refine hupdate _ ?_
    show chart.Fill (chart.regionOf hist) _
    rw [hof]
    convert hlegal.fill hregion using 1
    ext s
    simp [isProperDescendant_iff hwf.tree]
  · exact hrec

theorem recorded_recordAll (hwf : chart.WellFormed) (hlegal : chart.Legal {s | s ∈ config}) :
    ∀ left {history : History σ}, (∀ s ∈ left, s ∈ config) → chart.Recorded history →
      chart.Recorded (chart.recordAll config history left)
  | [], _, _, hrec => hrec
  | s :: left, history, hleft, hrec => by
    obtain ⟨hs, hleft⟩ := forall_mem_cons.1 hleft
    unfold recordAll
    rw [foldl_cons]
    refine recorded_recordAll hwf hlegal left hleft ?_
    split
    · rename_i hist hhist
      exact recorded_recordRegion hwf hlegal hs (mem_children.1 (mem_of_find?_eq_some hhist)) hrec
    · exact hrec

end ChartDef

/-! ## Runs -/

namespace StateChart

variable {chart : ChartDef σ}

/-- What a run keeps. -/
structure Running (chart : ChartDef σ) (machine : StateChart σ) : Prop where
  legal : chart.Legal {s | s ∈ machine.config}
  declared : ∀ s ∈ machine.config, chart.Declared s
  recorded : chart.Recorded machine.history

theorem running_new (hwf : chart.WellFormed) (hplain : chart.PlainHistory) :
    Running chart (new chart) := by
  have hmem : ∀ s, s ∈ (new chart).config ↔ chart.Defaults chart.root s := by
    intro s
    show s ∈ chart.enterInto chart.root ∅ ↔ _
    rw [mem_enterInto hwf]
    simp
  have hfill := fill_defaults hwf hplain hplain.root
  refine ⟨?_, fun s hs => ?_, fun h r hr => by cases hr⟩
  · convert hfill.legal (.self chart.root) using 1
    ext s
    exact hmem s
  · exact hfill.declared chart.declared_root ((hmem s).1 hs)

theorem Running.step (hwf : chart.WellFormed) (hplain : chart.PlainHistory)
    {machine : StateChart σ} (h : Running chart machine) {e : σ × Guards σ}
    (hcomp : chart.Compatible machine.config e.1 e.2) : Running chart (machine.step chart e) := by
  unfold StateChart.step send
  split
  · rename_i config actions history hsend
    have hsound := sound_enabled hwf hplain h.legal h.declared h.recorded hcomp
    obtain ⟨done, hdone, htook⟩ := took_selection hwf.tree hsound
    simp only [engineSend] at hsend
    split at hsend
    · cases hsend
    · cases hsend
      refine ⟨legal_selection hwf h.legal hsound hdone htook,
        declared_selection h.declared hsound hdone htook,
        recorded_recordAll hwf h.legal _ (fun s hs => ?_) h.recorded⟩
      obtain ⟨c, -, hs⟩ := (htook.exits s).1 (mem_toList.1 hs)
      exact ((mem_exitSet hwf.tree).1 hs).1
  · exact ⟨h.legal, h.declared, h.recorded⟩

/-- **Configurations stay legal** in every run whose steps are compatible. -/
theorem legal_run (hwf : chart.WellFormed) (hplain : chart.PlainHistory) {machine : StateChart σ}
    (h : Reach (StateChart.step chart)
      (fun machine e => chart.Compatible machine.config e.1 e.2) (new chart) machine) :
    chart.Legal {s | s ∈ machine.config} := by
  have hrun : Running chart machine :=
    h.invariant (running_new hwf hplain) fun _ _ hI hok => hI.step hwf hplain hok
  exact hrun.legal

/-! ## A chart with a parallel state -/

abbrev Name := List Char

def goTo (target : Name) : Transition Name := ⟨target, none, [], false⟩

def state (parent : Option Name) (kind : Kind) (initial : Option Name)
    (transitions : List (Name × Transition Name)) : StateDef Name :=
  ⟨parent, kind, initial, none, transitions, [], []⟩

/-- The root `r` with the atomic `a` and the parallel `p`, whose regions are `x` (`u`, `v` and a
history state `h`) and `y` (`w`). On `d` the state `a` goes into the region `x`, on `e` to `p`
itself. -/
def player : ChartDef Name where
  states :=
    [(['r'], state none .compound (some ['a']) []),
      (['a'], state (some ['r']) .atomic none [(['d'], goTo ['v']), (['e'], goTo ['p'])]),
      (['p'], state (some ['r']) .parallel none [(['b'], goTo ['a'])]),
      (['x'], state (some ['p']) .compound (some ['u']) []),
      (['u'], state (some ['x']) .atomic none [(['f'], goTo ['v'])]),
      (['v'], state (some ['x']) .atomic none [(['f'], goTo ['h'])]),
      (['h'], state (some ['x']) (.history .shallow) none []),
      (['y'], state (some ['p']) .compound (some ['w']) []),
      (['w'], state (some ['y']) .atomic none [])]
  root := ['r']
  distinct := by decide
  declared := by decide
  rooted := by decide

def rank : Name → Nat
  | ['r'] => 0
  | ['a'] | ['p'] => 1
  | ['x'] | ['y'] => 2
  | _ => 3

theorem wellFormed_player : player.WellFormed := by
  refine ⟨isTree_of_rank rank (by decide +kernel), by decide +kernel, ?_⟩
  have hnone : ∀ e ∈ player.states, e.2.default = none := by decide +kernel
  intro e he _ d hd
  rw [hnone e he] at hd
  cases hd

theorem plainHistory_player : player.PlainHistory :=
  ⟨by decide +kernel, by decide +kernel, by decide +kernel, by decide +kernel, by decide +kernel⟩

def noGuards : Guards Name := fun _ => none

/-- From `a` into the whole of `p`, and on in the region `x`. -/
theorem legal_run_player :
    let machine := ((new player).step player (['e'], noGuards)).step player (['f'], noGuards)
    machine.config.toList = [['p'], ['r'], ['v'], ['w'], ['x'], ['y']] ∧
      player.Legal {s | s ∈ machine.config} := by
  intro machine
  refine ⟨by decide +kernel, legal_run wellFormed_player plainHistory_player ?_⟩
  refine (Reach.start.next (['e'], noGuards) ?_).next (['f'], noGuards) ?_
  · exact ⟨by decide +kernel, by decide +kernel⟩
  · exact ⟨by decide +kernel, by decide +kernel⟩

/-- On `d` the chart enters `p`, `x` and `v`, and nothing of the other region. -/
theorem target_inside_parallel :
    let machine := (new player).step player (['d'], noGuards)
    player.WellFormed ∧ machine.config.toList = [['p'], ['r'], ['v'], ['x']] ∧
      ¬player.Legal {s | s ∈ machine.config} := by
  intro machine
  refine ⟨wellFormed_player, by decide +kernel, fun h => ?_⟩
  have hp : ['p'] ∈ machine.config := by decide +kernel
  have hy : ['y'] ∈ machine.config :=
    (h.filled ['p'] hp).parallel (by decide +kernel) ['y'] (by decide +kernel) (by decide +kernel)
  exact absurd hy (by decide +kernel)

end StateChart

end Lazily.Statechart
