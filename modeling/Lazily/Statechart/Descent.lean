import Lazily.Statechart.Configuration
import Lazily.Statechart.Engine

/-!
# Entering states

`WellFormed` is what a chart has to be for its references to make sense, `PlainHistory` where its
history states may stand. In such a chart the default descent from a state is a fill of it
(`fill_defaults`), and so is what a recorded history state brings back (`fill_restore`).
-/

namespace Lazily.Statechart

open Lib Lib.SortedSet

variable {σ : Type} [LinearOrder σ]

namespace ChartDef

variable (chart : ChartDef σ)

/-- The parents form a tree, the initial state of a compound state is one of its children, and the
default of a history state is a descendant of its region. -/
structure WellFormed : Prop where
  tree : chart.IsTree
  initial : ∀ e ∈ chart.states, e.2.kind = .compound →
    ∃ i ∈ e.2.initial, chart.parentOf i = some e.1
  default : ∀ e ∈ chart.states, e.2.kind.isHistory = true → ∀ d ∈ e.2.default,
    Below chart.parentOf d (chart.regionOf e.1)

/-- History states are leaves below compound states, neither initial nor default, and the way to a
default is direct. -/
structure PlainHistory : Prop where
  root : chart.Proper chart.root
  parent : ∀ e ∈ chart.states, ∀ p ∈ e.2.parent, chart.Proper p
  initial : ∀ e ∈ chart.states, e.2.kind = .compound → ∀ i ∈ e.2.initial, chart.Proper i
  region : ∀ e ∈ chart.states, e.2.kind.isHistory = true → ∀ p ∈ e.2.parent,
    chart.kind p = .compound
  default : ∀ e ∈ chart.states, e.2.kind.isHistory = true → ∀ d ∈ e.2.default,
    chart.Proper d ∧ chart.Direct (chart.regionOf e.1) d

/-- The states that are entered with a state. -/
inductive Defaults : σ → σ → Prop
  | self (s : σ) : Defaults s s
  | initial {s i x : σ} : chart.kind s = .compound → chart.initialOf s = some i → Defaults i x →
    Defaults s x
  | region {s c x : σ} : chart.kind s = .parallel → chart.parentOf c = some s → Defaults c x →
    Defaults s x

variable {chart} {s t c p x : σ}

/-! ## The conditions by state -/

theorem exists_of_compound (h : chart.kind s = .compound) : ∃ d, (s, d) ∈ chart.states := by
  refine exists_of_kind fun hk => ?_
  rw [hk] at h
  cases h

theorem WellFormed.initial_of (hwf : chart.WellFormed) (hk : chart.kind s = .compound) :
    ∃ i, chart.initialOf s = some i ∧ chart.parentOf i = some s := by
  obtain ⟨d, hd⟩ := exists_of_compound hk
  obtain ⟨hkind, -, hinit, -⟩ := fields_of_mem hd
  obtain ⟨i, hi, hp⟩ := hwf.initial (s, d) hd (hkind.symm.trans hk)
  exact ⟨i, hinit.trans hi, hp⟩

theorem exists_of_isHistory (h : (chart.kind s).isHistory = true) : ∃ d, (s, d) ∈ chart.states := by
  refine exists_of_kind fun hk => ?_
  rw [hk] at h
  cases h

theorem WellFormed.default_of (hwf : chart.WellFormed) (hh : (chart.kind s).isHistory = true)
    (hd : chart.defaultOf s = some t) : Below chart.parentOf t (chart.regionOf s) := by
  obtain ⟨d, hmem⟩ := exists_of_isHistory hh
  obtain ⟨hkind, -, -, hdefault⟩ := fields_of_mem hmem
  exact hwf.default (s, d) hmem (hkind ▸ hh) t (hdefault.symm.trans hd)

section

variable (hplain : chart.PlainHistory)
include hplain

theorem PlainHistory.parent_of (hp : chart.parentOf c = some p) : chart.Proper p := by
  obtain ⟨d, hd, hdp⟩ := Option.bind_eq_some_iff.1 hp
  exact hplain.parent (c, d) (stateOf_eq_some.1 hd) p hdp

theorem PlainHistory.initial_of (hk : chart.kind s = .compound)
    (hi : chart.initialOf s = some c) : chart.Proper c := by
  obtain ⟨d, hd⟩ := exists_of_compound hk
  obtain ⟨hkind, -, hinit, -⟩ := fields_of_mem hd
  exact hplain.initial (s, d) hd (hkind.symm.trans hk) c (hinit.symm.trans hi)

theorem PlainHistory.region_of (hp : chart.parentOf s = some p)
    (hh : (chart.kind s).isHistory = true) : chart.kind p = .compound := by
  obtain ⟨d, hmem⟩ := exists_of_isHistory hh
  obtain ⟨hkind, hparent, -, -⟩ := fields_of_mem hmem
  exact hplain.region (s, d) hmem (hkind ▸ hh) p (hparent.symm.trans hp)

theorem PlainHistory.default_of
    (hh : (chart.kind s).isHistory = true) (hd : chart.defaultOf s = some t) :
    chart.Proper t ∧ chart.Direct (chart.regionOf s) t := by
  obtain ⟨d, hmem⟩ := exists_of_isHistory hh
  obtain ⟨hkind, -, -, hdefault⟩ := fields_of_mem hmem
  exact hplain.default (s, d) hmem (hkind ▸ hh) t (hdefault.symm.trans hd)

/-! ## The default descent -/

omit hplain in
theorem Defaults.trans (h : chart.Defaults s t) (h' : chart.Defaults t x) : chart.Defaults s x := by
  induction h with
  | self s => exact h'
  | initial hk hi _ ih => exact .initial hk hi (ih h')
  | region hk hc _ ih => exact .region hk hc (ih h')

omit hplain in
theorem WellFormed.initial_parent (hwf : chart.WellFormed) (hk : chart.kind s = .compound)
    (hi : chart.initialOf s = some c) : chart.parentOf c = some s := by
  obtain ⟨i, hi', hp⟩ := hwf.initial_of hk
  rw [hi] at hi'
  cases hi'
  exact hp

omit hplain in
/-- The descent goes down. -/
theorem Defaults.under (hwf : chart.WellFormed) (h : chart.Defaults s x) :
    Under chart.parentOf x s := by
  induction h with
  | self s => exact .refl s
  | initial hk hi _ ih => exact ih.trans (below_of_child (hwf.initial_parent hk hi)).under
  | region hk hc _ ih => exact ih.trans (below_of_child hc).under

omit hplain in
/-- How a state other than the first came into the descent: as the initial state or as a region of
its parent, which is in the descent. -/
theorem Defaults.parent (hwf : chart.WellFormed) (h : chart.Defaults s x) (hne : x ≠ s)
    (hp : chart.parentOf x = some p) :
    chart.Defaults s p ∧ (chart.kind p = .compound ∧ chart.initialOf p = some x ∨
      chart.kind p = .parallel) := by
  induction h with
  | self s => exact absurd rfl hne
  | @initial s i x hk hi hix ih =>
    by_cases hxi : x = i
    · subst hxi
      have hps : p = s := Option.some.inj (hp.symm.trans (hwf.initial_parent hk hi))
      subst hps
      exact ⟨.self p, .inl ⟨hk, hi⟩⟩
    · obtain ⟨hip, hkind⟩ := ih hxi hp
      exact ⟨.initial hk hi hip, hkind⟩
  | @region s c x hk hc hcx ih =>
    by_cases hxc : x = c
    · subst hxc
      have hps : p = s := Option.some.inj (hp.symm.trans hc)
      subst hps
      exact ⟨.self p, .inr hk⟩
    · obtain ⟨hcp, hkind⟩ := ih hxc hp
      exact ⟨.region hk hc hcp, hkind⟩

theorem PlainHistory.proper_region (hc : chart.parentOf c = some p)
    (hk : chart.kind p = .parallel) : chart.Proper c := by
  by_contra hh
  have hcompound := hplain.region_of hc (by simpa [Proper] using hh)
  rw [hk] at hcompound
  cases hcompound

theorem Defaults.proper (h : chart.Defaults s x) (hs : chart.Proper s) : chart.Proper x := by
  induction h with
  | self s => exact hs
  | initial hk hi _ ih => exact ih (hplain.initial_of hk hi)
  | region hk hc _ ih => exact ih (hplain.proper_region hc hk)

end

/-- **The default descent fills.** -/
theorem fill_defaults (hwf : chart.WellFormed) (hplain : chart.PlainHistory)
    (ht : chart.Proper t) : chart.Fill t {x | chart.Defaults t x} := by
  refine ⟨fun s hs => hs.under hwf, fun s hs hne p hp => .inl (hs.parent hwf hne hp).1,
    fun s hs => ?_, fun s hs => hs.proper hplain ht⟩
  have hds : chart.Defaults t s := by
    rcases hs with hs | rfl
    · exact hs
    · exact .self s
  refine ⟨fun hk => ?_, fun hk c hc _ => hds.trans (.region hk hc (.self c))⟩
  obtain ⟨i, hi, hip⟩ := hwf.initial_of hk
  refine ⟨i, ⟨hds.trans (.initial hk hi (.self i)), hip, hplain.initial_of hk hi⟩, ?_⟩
  rintro c ⟨hc, hcp, -⟩
  have hne : c ≠ t := by
    rintro rfl
    exact (isForest hwf.tree).not_under_of_below (below_of_child hcp) (hds.under hwf)
  rcases (Defaults.parent hwf hc hne hcp).2 with ⟨-, hc'⟩ | hk'
  · exact Option.some.inj (hc'.symm.trans hi)
  · rw [hk] at hk'
    cases hk'

/-! ## `enterSubtree` -/

theorem length_ancestors_child (htree : chart.IsTree) (hc : chart.parentOf c = some p) :
    (chart.ancestorsInclusive c).length = (chart.ancestorsInclusive p).length + 1 := by
  have hchain := (isForest htree).chain_eq chart.fuel_lt c
  rw [hc, Option.elim_some] at hchain
  rw [ancestorsInclusive, hchain, List.length_cons, ancestorsInclusive]

theorem length_ancestors_lt (htree : chart.IsTree) (s : σ) :
    (chart.ancestorsInclusive s).length < chart.fuel := by
  have hle := (isForest htree).length_chain_le chart.fuel s
  have hlt := chart.fuel_lt
  unfold ancestorsInclusive
  omega

/-- The descent by the kind of its first state. -/
theorem defaults_iff : chart.Defaults s x ↔ x = s ∨
    (chart.kind s = .compound ∧ ∃ i, chart.initialOf s = some i ∧ chart.Defaults i x) ∨
    (chart.kind s = .parallel ∧ ∃ c ∈ chart.children s, chart.Defaults c x) := by
  constructor
  · intro h
    cases h with
    | self => exact .inl rfl
    | initial hk hi hix => exact .inr (.inl ⟨hk, _, hi, hix⟩)
    | region hk hc hcx => exact .inr (.inr ⟨hk, _, mem_children.2 hc, hcx⟩)
  · rintro (rfl | ⟨hk, i, hi, hix⟩ | ⟨hk, c, hc, hcx⟩)
    · exact .self x
    · exact .initial hk hi hix
    · exact .region hk (mem_children.1 hc) hcx

/-- The states that `enterSubtree` enters, given as much fuel as there may be levels left. -/
theorem mem_enterSubtree (hwf : chart.WellFormed) :
    ∀ (fuel : Nat) (s : σ) (acc : Config σ × List σ),
      chart.fuel ≤ fuel + (chart.ancestorsInclusive s).length →
      (x ∈ (chart.enterSubtree fuel s acc).1 ↔ x ∈ acc.1 ∨ chart.Defaults s x)
  | 0, s, acc, hfuel => by
    have hlt := length_ancestors_lt hwf.tree s
    omega
  | fuel + 1, s, acc, hfuel => by
    have hchild : ∀ c, chart.parentOf c = some s →
        chart.fuel ≤ fuel + (chart.ancestorsInclusive c).length := by
      intro c hc
      have hlen := length_ancestors_child hwf.tree hc
      omega
    -- one region after another
    have hregions : ∀ (l : List σ) (acc : Config σ × List σ), (∀ c ∈ l, chart.parentOf c = some s) →
        (x ∈ (l.foldl (fun acc region => chart.enterSubtree fuel region acc) acc).1 ↔
          x ∈ acc.1 ∨ ∃ c ∈ l, chart.Defaults c x) := by
      intro l
      induction l with
      | nil => simp
      | cons c l ih =>
        intro acc hl
        obtain ⟨hc, hl⟩ := List.forall_mem_cons.1 hl
        rw [List.foldl_cons, ih _ hl, mem_enterSubtree hwf fuel c acc (hchild c hc), or_assoc]
        simp only [List.mem_cons, exists_eq_or_imp]
    rw [defaults_iff]
    unfold enterSubtree
    cases hk : chart.kind s with
    | atomic | final | history =>
      simp only [mem_insert_iff, reduceCtorEq, false_and, or_false]
      exact or_comm
    | compound =>
      obtain ⟨i, hi, hp⟩ := hwf.initial_of hk
      simp only [hi, mem_enterSubtree hwf fuel i _ (hchild i hp), mem_insert_iff, reduceCtorEq,
        true_and, false_and, or_false, Option.some_inj, exists_eq_left']
      rw [or_assoc, or_left_comm]
    | parallel =>
      simp only [hregions _ _ fun c hc => mem_children.1 hc, mem_insert_iff, reduceCtorEq,
        true_and, false_and, false_or]
      rw [or_assoc, or_left_comm]

theorem mem_enterInto (hwf : chart.WellFormed) {enter : Config σ} :
    x ∈ chart.enterInto s enter ↔ x ∈ enter ∨ chart.Defaults s x :=
  mem_enterSubtree hwf chart.fuel s (enter, []) (Nat.le_add_right _ _)

/-! ## History -/

/-- What may be recorded under a history state: a child of its region, or a fill of it. -/
def Restorable (chart : ChartDef σ) (hist : σ) : Recording σ → Prop
  | .shallow child => chart.parentOf child = some (chart.regionOf hist) ∧ chart.Proper child
  | .deep set => chart.Fill (chart.regionOf hist) {s | s ∈ set}

theorem mem_pathBelow_child (htree : chart.IsTree) (hc : chart.parentOf c = some p) :
    x ∈ chart.pathBelow p c ↔ x = c := by
  rw [mem_pathBelow htree (below_of_child hc).under]
  constructor
  · rintro ⟨hcx, hxp⟩
    rcases under_iff.1 hcx with heq | hb
    · exact heq.symm
    · exact absurd ((below_iff_parent hc).1 hb) ((isForest htree).not_under_of_below hxp)
  · rintro rfl
    exact ⟨.refl x, below_of_child hc⟩

/-- The way to a child of a state that is not parallel is direct. -/
theorem direct_child (htree : chart.IsTree) (hk : chart.kind p ≠ .parallel)
    (hc : chart.parentOf c = some p) : chart.Direct p c := by
  intro d hd q hq hkq
  -- the way is the child alone
  rw [mem_pathBelow_child htree hc] at hd
  subst hd
  have hqp : q = p := Option.some.inj (hq.symm.trans hc)
  exact absurd (hqp ▸ hkq) hk

variable (hplain : chart.PlainHistory)
include hplain

theorem proper_of_under (ht : chart.Proper t) (h : Under chart.parentOf t s) : chart.Proper s := by
  induction h with
  | refl => exact ht
  | tail _ hp _ => exact hplain.parent_of hp

/-- Entering a state by a direct way. -/
theorem fill_enter (hwf : chart.WellFormed) (ht : chart.Proper t)
    (htop : Under chart.parentOf t p) (hdirect : chart.Direct p t) :
    chart.Fill p {x | x ∈ chart.enterInto t (SortedSet.insertAll ∅ (chart.pathBelow p t))} := by
  convert (fill_defaults hwf hplain ht).path hwf.tree htop hdirect
    (fun s hs _ => proper_of_under hplain ht hs) using 1
  ext x
  simp [mem_enterInto hwf, mem_pathBelow hwf.tree htop]

/-- **What a history state brings back fills its region.** -/
theorem fill_restore (hwf : chart.WellFormed) {history : History σ}
    {hist region : σ} (hhist : (chart.kind hist).isHistory = true)
    (hregion : chart.parentOf hist = some region)
    (hrec : ∀ r, history hist = some r → chart.Restorable hist r) :
    ∃ set : Set σ, chart.Fill region set ∧ ∀ enter x,
      x ∈ chart.restoreViaHistory history hist region enter ↔ x ∈ enter ∨ x ∈ set := by
  have hof : chart.regionOf hist = region := by rw [regionOf, hregion, Option.getD_some]
  have hkind := hplain.region_of hregion hhist
  have hnot : chart.kind region ≠ .parallel := by simp [hkind]
  have hfill : ∀ t, chart.Proper t → Below chart.parentOf t region → chart.Direct region t →
      ∃ set : Set σ, chart.Fill region set ∧ ∀ enter x,
        x ∈ chart.enterInto t (SortedSet.insertAll enter (chart.pathBelow region t)) ↔
          x ∈ enter ∨ x ∈ set := by
    intro t ht hb hdirect
    refine ⟨_, fill_enter hplain hwf ht hb.under hdirect, fun enter x => ?_⟩
    simp [mem_enterInto hwf, or_assoc]
  unfold restoreViaHistory
  cases hh : history hist with
  | some r =>
    have hr := hrec r hh
    cases r with
    | shallow child =>
      obtain ⟨hchild, hproper⟩ := hr
      rw [hof] at hchild
      obtain ⟨set, hset, hmem⟩ := hfill child hproper (below_of_child hchild)
        (direct_child hwf.tree hnot hchild)
      refine ⟨set, hset, fun enter x => ?_⟩
      rw [← hmem enter x]
      simp only [mem_enterInto hwf, mem_insert_iff, mem_insertAll_iff,
        mem_pathBelow_child hwf.tree hchild, or_comm]
    | deep set =>
      refine ⟨{s | s ∈ set}, hof ▸ hr, fun enter x => ?_⟩
      simp
  | none =>
    cases hd : chart.defaultOf hist with
    | some d =>
      obtain ⟨hproper, hdirect⟩ := hplain.default_of hhist hd
      have hb := hwf.default_of hhist hd
      rw [hof] at hdirect hb
      simpa using hfill d hproper hb hdirect
    | none =>
      obtain ⟨i, hi, hp⟩ := hwf.initial_of hkind
      simpa [hi] using hfill i (hplain.initial_of hkind hi) (below_of_child hp)
        (direct_child hwf.tree hnot hp)

end ChartDef

end Lazily.Statechart
