import Lazily.Statechart.Chart
import Mathlib.Data.Set.Insert

/-!
# Legal configurations

`Legal`: what a set of active states has to be. `Fill top set`: the same for what is active below
one state. A legal configuration stays legal when what is below one of its states is replaced by a
fill (`Legal.replace`), or below several that are not above each other (`Legal.replaceAll`). Fills
come from a path down to a filled state (`Fill.path`), and from legal configurations (`Legal.fill`).
-/

namespace Lazily.Statechart

open Lib List

variable {σ : Type} [LinearOrder σ]

namespace ChartDef

variable (chart : ChartDef σ)

def Proper (s : σ) : Prop := (chart.kind s).isHistory = false

/-- A compound state has exactly one active child, a parallel state all of them. -/
structure Filled (active : Set σ) (s : σ) : Prop where
  compound : chart.kind s = .compound →
    ∃! c, c ∈ active ∧ chart.parentOf c = some s ∧ chart.Proper c
  parallel : chart.kind s = .parallel → ∀ c, chart.parentOf c = some s → chart.Proper c → c ∈ active

/-- A legal configuration: it has the root, with each state its parent, the right children of each
state, and no pseudo-state. -/
structure Legal (active : Set σ) : Prop where
  root : chart.root ∈ active
  parent : ∀ s ∈ active, ∀ p, chart.parentOf s = some p → p ∈ active
  filled : ∀ s ∈ active, chart.Filled active s
  proper : ∀ s ∈ active, chart.Proper s

/-- What may be active under `top`. -/
structure Fill (top : σ) (set : Set σ) : Prop where
  under : ∀ s ∈ set, Under chart.parentOf s top
  parent : ∀ s ∈ set, s ≠ top → ∀ p, chart.parentOf s = some p → p ∈ set ∨ p = top
  filled : ∀ s, s ∈ set ∨ s = top → chart.Filled set s
  proper : ∀ s ∈ set, chart.Proper s

/-- On the way from `top` down to `s` no parallel state has a region beside the way. -/
def Direct (top s : σ) : Prop :=
  ∀ c ∈ chart.pathBelow top s, ∀ p ∈ chart.parentOf c, chart.kind p = .parallel →
    ∀ c' ∈ chart.children p, chart.Proper c' → c' = c

instance : DecidablePred chart.Proper := fun s =>
  inferInstanceAs (Decidable ((chart.kind s).isHistory = false))

instance (top s : σ) : Decidable (chart.Direct top s) :=
  inferInstanceAs (Decidable (∀ c ∈ chart.pathBelow top s, ∀ p ∈ chart.parentOf c,
    chart.kind p = .parallel → ∀ c' ∈ chart.children p, chart.Proper c' → c' = c))

variable {chart} {active set : Set σ} {top s t c p : σ}

/-- Only the children of a state decide whether it is filled. -/
theorem Filled.congr (h : chart.Filled active s)
    (hset : ∀ c, chart.parentOf c = some s → (c ∈ active ↔ c ∈ set)) : chart.Filled set s := by
  refine ⟨fun hk => ?_, fun hk c hc hp => (hset c hc).1 (h.parallel hk c hc hp)⟩
  obtain ⟨c, ⟨hmem, hc, hp⟩, huniq⟩ := h.compound hk
  refine ⟨c, ⟨(hset c hc).1 hmem, hc, hp⟩, fun c' hc' => ?_⟩
  exact huniq c' ⟨(hset c' hc'.2.1).2 hc'.1, hc'.2⟩

theorem Legal.under (h : chart.Legal active) (hs : s ∈ active) (hu : Under chart.parentOf s t) :
    t ∈ active := by
  induction hu with
  | refl => exact hs
  | tail _ hp ih => exact h.parent _ ih _ hp

/-! ## Replacing what is below a state -/

/-- What is active after everything below `top` has been replaced. -/
def replace (chart : ChartDef σ) (active : Set σ) (top : σ) (set : Set σ) : Set σ :=
  {s | s ∈ active ∧ ¬Below chart.parentOf s top ∨ s ∈ set}

theorem Legal.replace (htree : chart.IsTree) (h : chart.Legal active) (htop : top ∈ active)
    (hfill : chart.Fill top set) : chart.Legal (chart.replace active top set) := by
  have hroot : ¬Below chart.parentOf chart.root top :=
    not_below_of_none ((eq_root_iff chart.declared_root).2 rfl)
  have hkeep : top ∈ chart.replace active top set := .inl ⟨htop, htree top⟩
  refine ⟨.inl ⟨h.root, hroot⟩, fun s hs p hp => ?_, fun s hs => ?_, fun s hs => ?_⟩
  · rcases hs with ⟨hs, hb⟩ | hs
    · exact .inl ⟨h.parent s hs p hp, fun hpb => hb ((below_iff_parent hp).2 hpb.under)⟩
    · by_cases hst : s = top
      · subst hst
        exact .inl ⟨h.parent s htop p hp, fun hpb => htree s ((below_iff_parent hp).2 hpb.under)⟩
      · rcases hfill.parent s hs hst p hp with hpm | rfl
        · exact .inr hpm
        · exact hkeep
  · -- the children of a state are all new if it is under `top`, and all old otherwise
    by_cases hu : Under chart.parentOf s top
    · have hsf : s ∈ set ∨ s = top := by
        rcases hs with ⟨-, hb⟩ | hs
        · exact .inr ((under_iff.1 hu).resolve_right hb)
        · exact .inl hs
      refine (hfill.filled s hsf).congr fun c hc => ⟨fun hmem => .inr hmem, fun hmem => ?_⟩
      exact hmem.resolve_left fun hold => hold.2 ((below_iff_parent hc).2 hu)
    · have hsa : s ∈ active := by
        rcases hs with ⟨hs, -⟩ | hs
        · exact hs
        · exact absurd (hfill.under s hs) hu
      refine (h.filled s hsa).congr fun c hc => ⟨fun hmem => ?_, fun hmem => ?_⟩
      · exact .inl ⟨hmem, fun hb => hu ((below_iff_parent hc).1 hb)⟩
      · rcases hmem with ⟨hmem, -⟩ | hmem
        · exact hmem
        · rcases under_iff.1 (hfill.under c hmem) with rfl | hb
          · exact htop
          · exact absurd ((below_iff_parent hc).1 hb) hu
  · rcases hs with ⟨hs, -⟩ | hs
    · exact h.proper s hs
    · exact hfill.proper s hs

/-- Neither state is above the other. -/
def Apart (chart : ChartDef σ) (s t : σ) : Prop :=
  ¬Under chart.parentOf s t ∧ ¬Under chart.parentOf t s

/-- Replacing below several states none of which is above another. -/
theorem Legal.replaceAll (htree : chart.IsTree) {ι : Type} {top : ι → σ} {set : ι → Set σ} :
    ∀ (done : List ι) {active : Set σ}, chart.Legal active → (∀ i ∈ done, top i ∈ active) →
      (∀ i ∈ done, chart.Fill (top i) (set i)) →
      done.Pairwise (fun i j => chart.Apart (top i) (top j)) →
      chart.Legal {s | (s ∈ active ∧ ∀ i ∈ done, ¬Below chart.parentOf s (top i)) ∨
        ∃ i ∈ done, s ∈ set i}
  | [], active, h, _, _, _ => by simpa using h
  | i :: done, active, h, htop, hfill, hapart => by
    obtain ⟨htopi, htop⟩ := forall_mem_cons.1 htop
    obtain ⟨hfilli, hfill⟩ := forall_mem_cons.1 hfill
    obtain ⟨hi, hapart⟩ := pairwise_cons.1 hapart
    have hstep := h.replace htree htopi hfilli
    have hrest := Legal.replaceAll htree done hstep
      (fun j hj => .inl ⟨htop j hj, fun hb => (hi j hj).2 hb.under⟩) hfill hapart
    convert hrest using 1
    ext s
    have hset : s ∈ set i → ∀ j ∈ done, ¬Below chart.parentOf s (top j) := by
      intro hs j hj hb
      rcases (hfilli.under s hs).total hb.under with hu | hu
      · exact (hi j hj).1 hu
      · exact (hi j hj).2 hu
    simp only [mem_cons, forall_eq_or_imp, exists_eq_or_imp, ChartDef.replace]
    constructor
    · rintro (⟨hs, hb, hbs⟩ | hs | hs)
      · exact .inl ⟨.inl ⟨hs, hb⟩, hbs⟩
      · exact .inl ⟨.inr hs, hset hs⟩
      · exact .inr hs
    · rintro (⟨⟨hs, hb⟩ | hs, hbs⟩ | hs)
      · exact .inl ⟨hs, hb, hbs⟩
      · exact .inr (.inl hs)
      · exact .inr (.inr hs)

/-! ## Fills -/

/-- What a legal configuration has below one of its states. -/
theorem Legal.fill (h : chart.Legal active) (htop : top ∈ active) :
    chart.Fill top {s | s ∈ active ∧ Below chart.parentOf s top} := by
  refine ⟨fun s hs => hs.2.under, fun s hs _ p hp => ?_, fun s hs => ?_,
    fun s hs => h.proper s hs.1⟩
  · rcases under_iff.1 ((below_iff_parent hp).1 hs.2) with heq | hb
    · exact .inr heq
    · exact .inl ⟨h.parent s hs.1 p hp, hb⟩
  · have hsa : s ∈ active ∧ Under chart.parentOf s top := by
      rcases hs with hs | rfl
      · exact ⟨hs.1, hs.2.under⟩
      · exact ⟨htop, .refl s⟩
    refine (h.filled s hsa.1).congr fun c hc => ⟨fun hmem => ⟨hmem, ?_⟩, fun hmem => hmem.1⟩
    exact (below_iff_parent hc).2 hsa.2

theorem Fill.declared (h : chart.Fill top set) (htop : chart.Declared top) (hs : s ∈ set) :
    chart.Declared s := by
  rcases under_iff.1 (h.under s hs) with rfl | hb
  · exact htop
  · obtain ⟨p, hp, -⟩ := Relation.TransGen.head'_iff.1 hb
    exact mem_states_of_parentOf hp

/-- A fill of the root that has the root is a legal configuration. -/
theorem Fill.legal (h : chart.Fill chart.root set) (hroot : chart.root ∈ set) :
    chart.Legal set := by
  refine ⟨hroot, fun s hs p hp => ?_, fun s hs => h.filled s (.inl hs), h.proper⟩
  by_cases hsr : s = chart.root
  · rw [hsr, (eq_root_iff chart.declared_root).2 rfl] at hp
    cases hp
  · rcases h.parent s hs hsr p hp with hpm | rfl
    · exact hpm
    · exact hroot

/-- A direct path down to a filled state is a fill. -/
theorem Fill.path (htree : chart.IsTree) (hfill : chart.Fill t set)
    (ht : Under chart.parentOf t top) (hdirect : chart.Direct top t)
    (hproper : ∀ s, Under chart.parentOf t s → Below chart.parentOf s top → chart.Proper s) :
    chart.Fill top {s | Under chart.parentOf t s ∧ Below chart.parentOf s top ∨ s ∈ set} := by
  have hforest := isForest htree
  have hpath : ∀ s, Under chart.parentOf t s → Under chart.parentOf s top → s ≠ top →
      s ∈ {s | Under chart.parentOf t s ∧ Below chart.parentOf s top ∨ s ∈ set} :=
    fun s hts hst hne => .inl ⟨hts, (under_iff.1 hst).resolve_left hne⟩
  -- a state of the path other than its end has its child on the path, and no other active child
  have hstep : ∀ s, Below chart.parentOf t s → Under chart.parentOf s top →
      chart.Filled {s | Under chart.parentOf t s ∧ Below chart.parentOf s top ∨ s ∈ set} s := by
    intro s hts hst
    obtain ⟨c, hc, htc⟩ := hts.child
    have hcs : Below chart.parentOf c top := (below_iff_parent hc).2 hst
    have honly : ∀ c', chart.parentOf c' = some s →
        (Under chart.parentOf t c' ∧ Below chart.parentOf c' top ∨ c' ∈ set) → c' = c := by
      intro c' hc' hmem
      have htc' : Under chart.parentOf t c' := by
        rcases hmem with ⟨hu, -⟩ | hmem
        · exact hu
        · rcases under_iff.1 (hfill.under c' hmem) with rfl | hb
          · exact .refl c'
          · exact absurd ((below_iff_parent hc').1 hb) (hforest.not_under_of_below hts)
      rcases htc'.total htc with hu | hu
      · rcases under_iff.1 hu with heq | hb
        · exact heq
        · exact absurd ((below_iff_parent hc').1 hb)
            (hforest.not_under_of_below (below_of_child hc))
      · rcases under_iff.1 hu with heq | hb
        · exact heq.symm
        · exact absurd ((below_iff_parent hc).1 hb)
            (hforest.not_under_of_below (below_of_child hc'))
    refine ⟨fun _ => ⟨c, ⟨.inl ⟨htc, hcs⟩, hc, hproper c htc hcs⟩, fun c' h' => ?_⟩, ?_⟩
    · exact honly c' h'.2.1 h'.1
    · intro hk c' hc' hp'
      rw [hdirect c ((mem_pathBelow htree ht).2 ⟨htc, hcs⟩) s hc hk c' (mem_children.2 hc') hp']
      exact .inl ⟨htc, hcs⟩
  refine ⟨fun s hs => ?_, fun s hs hne p hp => ?_, fun s hs => ?_, fun s hs => ?_⟩
  · rcases hs with ⟨-, hb⟩ | hs
    · exact hb.under
    · exact (hfill.under s hs).trans ht
  · have hsp : Under chart.parentOf t p → Under chart.parentOf p top →
        p ∈ {s | Under chart.parentOf t s ∧ Below chart.parentOf s top ∨ s ∈ set} ∨ p = top := by
      intro htp hpt
      by_cases heq : p = top
      · exact .inr heq
      · exact .inl (hpath p htp hpt heq)
    rcases hs with ⟨hts, hb⟩ | hs
    · exact hsp (hts.trans (below_of_child hp).under) ((below_iff_parent hp).1 hb)
    · by_cases hst : s = t
      · subst hst
        exact hsp (below_of_child hp).under
          ((below_iff_parent hp).1 ((under_iff.1 ht).resolve_left hne))
      · rcases hfill.parent s hs hst p hp with hpm | rfl
        · exact .inl (.inr hpm)
        · exact hsp (.refl p) ht
  · have hcases : (Below chart.parentOf t s ∧ Under chart.parentOf s top) ∨ s ∈ set ∨ s = t := by
      rcases hs with (⟨hts, hb⟩ | hs) | rfl
      · rcases under_iff.1 hts with rfl | htb
        · exact .inr (.inr rfl)
        · exact .inl ⟨htb, hb.under⟩
      · exact .inr (.inl hs)
      · rcases under_iff.1 ht with rfl | htb
        · exact .inr (.inr rfl)
        · exact .inl ⟨htb, .refl s⟩
    rcases hcases with ⟨htb, hst⟩ | hs
    · exact hstep s htb hst
    · have hst : Under chart.parentOf s t := by
        rcases hs with hs | rfl
        · exact hfill.under s hs
        · exact .refl s
      refine (hfill.filled s hs).congr fun c hc => ⟨fun hmem => .inr hmem, fun hmem => ?_⟩
      refine hmem.resolve_left fun hold => ?_
      exact hforest.not_under_of_below ((below_iff_parent hc).2 hst) hold.1
  · rcases hs with ⟨hts, hb⟩ | hs
    · exact hproper s hts hb
    · exact hfill.proper s hs

end ChartDef

end Lazily.Statechart
