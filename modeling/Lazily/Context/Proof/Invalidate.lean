import Lazily.Context.Proof.Walk

/-!
# What an invalidation guarantees

`Invalidates c c' effects roots`: the walk (or the sequence of walks) from `roots` took `c` to `c'`
and collected `effects`. Whoever read a root's cell, or a slot that lost its value, has been told to
recompute (`Told`); whoever read a slot that is no longer up to date has been warned to look
(`Warned`). That is all the cache needs: `Coherent.invalidates` discharges the cells of `D` whose
dependents are among the roots.
-/

namespace Lazily

open Lib Frontier List Bool

variable {τ V : Type}

namespace Context

/-- `y` no longer relies on its recorded reads: it recomputes, or is scheduled with force. -/
structure Told (c : Context τ V) (effects : List (SlotId × Bool)) (y : SlotId) : Prop where
  slot : c.Untrusted y
  effect : ∀ e, c.nodes y = some (.effect e) → (y, true) ∈ effects

/-- `y` no longer takes its dependencies for current: it refreshes them first, or is scheduled. -/
structure Warned (c : Context τ V) (effects : List (SlotId × Bool)) (y : SlotId) : Prop where
  slot : ∀ s, c.nodes y = some (.computed s) → c.upToDate s = false
  effect : ∀ e, c.nodes y = some (.effect e) → ∃ f, (y, f) ∈ effects

structure Invalidates (c c' : Context τ V) (effects : List (SlotId × Bool)) (roots : List SlotId) :
    Prop where
  frame : c' = { c with nodes := c'.nodes }
  weaker : ∀ i, Weaker (c.nodes i) (c'.nodes i)
  root : ∀ r ∈ roots, Told c' effects r
  stale : ∀ x a b, c.nodes x = some (.computed a) → c'.nodes x = some (.computed b) →
    c.upToDate a = true → c'.upToDate b = false → ∀ y ∈ a.dependents, Warned c' effects y
  taken : ∀ x v, c.valueAt x = some v → c'.valueAt x = none →
    ∀ y ∈ c.dependentsOf x, Told c' effects y
  collected : ∀ p ∈ effects, ∃ e, c.nodes p.1 = some (.effect e)
  apart : ∀ S, Frontier.ClosedSet c S → (∀ r ∈ roots, ¬ S r) →
    (∀ p ∈ effects, ¬ S p.1) ∧ ∀ i, S i → c'.nodes i = c.nodes i

section Views

variable {c c' : Context τ V} {effects : List (SlotId × Bool)} {roots : List SlotId}

section

variable (h : Invalidates c c' effects roots)
include h

theorem Invalidates.upToDate : c'.upToDate = c.upToDate := by
  rw [h.frame]
  rfl

theorem Invalidates.trusted : c'.trusted = c.trusted := by
  rw [h.frame]
  rfl

theorem Invalidates.dependenciesOf (i : SlotId) : c'.dependenciesOf i = c.dependenciesOf i := by
  simp only [Context.dependenciesOf, (h.weaker i).dependencies]

theorem Invalidates.dependentsOf (i : SlotId) : c'.dependentsOf i = c.dependentsOf i := by
  simp only [Context.dependentsOf, (h.weaker i).dependents]

end

variable {n : Option (Node τ V)} {a b : ComputedNode τ V} {y : SlotId}

theorem Weaker.value {n' : Option (Node τ V)} (h : Weaker n n') :
    n'.bind Node.value? = n.bind Node.value? ∨ n'.bind Node.value? = none := by
  cases h with
  | same => exact .inl rfl
  | slot s value dirty force h =>
    rcases h with h | ⟨h, -⟩
    · exact .inr h
    · exact .inl h

variable (h : Weaker (some (.computed a)) (some (.computed b)))
include h

/-- A slot that is still trusted was trusted before, with the same value. -/
theorem Weaker.trusted (hb : c.trusted b = true) : c.trusted a = true ∧ a.value = b.value := by
  obtain ⟨b', hb', heq, hv⟩ := h.computed
  cases hb'
  have hsome := trusted_value hb
  rcases hv with hv | ⟨hv, -, hf⟩
  · rw [hv] at hsome
    cases hsome
  · refine ⟨?_, hv.symm⟩
    have hver : b.verifiedAt = a.verifiedAt := by rw [heq]
    unfold Context.trusted at hb ⊢
    rw [hv, hver] at hb
    cases hm : c.revisionMode with
    | true => simpa [hm] using hb
    | false =>
      simp only [hm, false_eq_true, if_false, and_eq_true, not_eq_true'] at hb ⊢
      exact hb.imp_right hf

theorem Weaker.slots :
    b = { a with value := b.value, dirty := b.dirty, forceRecompute := b.forceRecompute } := by
  obtain ⟨b', hb', heq, -⟩ := h.computed
  cases hb'
  exact heq

omit h in
theorem Invalidates.of_computed (h : Invalidates c c' effects roots)
    (hb : c'.nodes y = some (.computed b)) :
    ∃ a, c.nodes y = some (.computed a) ∧ Weaker (some (.computed a)) (some (.computed b)) := by
  have hw := hb ▸ h.weaker y
  obtain ⟨a, ha⟩ := hw.of_computed
  exact ⟨a, ha, ha ▸ hw⟩

theorem Weaker.upToDate (hb : c.upToDate b = true) : c.upToDate a = true := by
  obtain ⟨b', hb', heq, hv⟩ := h.computed
  cases hb'
  have hsome := upToDate_value hb
  rcases hv with hv | ⟨hv, hd, hf⟩
  · rw [hv] at hsome
    cases hsome
  · have hver : b.verifiedAt = a.verifiedAt := by rw [heq]
    unfold Context.upToDate at hb ⊢
    rw [hv, hver] at hb
    cases hm : c.revisionMode with
    | true => simpa [hm] using hb
    | false =>
      simp only [hm, false_eq_true, if_false, and_eq_true, not_eq_true'] at hb ⊢
      exact ⟨hb.1, hd hb.2.1, hf hb.2.2⟩

end Views

end Context

open Context

/-! ## The walks are invalidations -/

theorem Frontier.Inv.invalidates {F : Frontier τ V} {c : Context τ V} {roots : List SlotId}
    {s : Context τ V × List (SlotId × Bool)} (h : F.Inv c roots s [])
    (hweak : ∀ a, F.weak a → c.upToDate a = false)
    (hstrong : ∀ a, F.strong a → c.trusted a = false) : Invalidates c s.1 s.2 roots := by
  have hup : s.1.upToDate = c.upToDate := by rw [h.frame]; rfl
  have htr : s.1.trusted = c.trusted := by rw [h.frame]; rfl
  have told : ∀ y, F.Visited s y true → Told s.1 s.2 y := fun y hy =>
    ⟨fun b hb => htr ▸ hstrong b ((hy.1 b hb).2 rfl), fun e he => by simpa using hy.2 e he⟩
  refine ⟨h.frame, h.weaker, fun r hr => told r ((h.root r hr).resolve_left not_mem_nil),
    fun x a b ha hb hua hub y hy => ?_, fun x v hv hv' y hy => ?_, h.effects,
    fun S hS hr => (h.apart S hS hr).2⟩
  · -- the slot changed, so the walk has reached it
    have hwb : F.weak b := by
      rcases h.nodes x with h' | ⟨a', b', -, hb', hw⟩
      · rw [h', ha] at hb
        cases hb
        rw [hup, hua] at hub
        cases hub
      · rw [hb] at hb'
        cases hb'
        exact hw
    have hna : ¬ F.weak a := fun hw => by rw [hweak a hw] at hua; cases hua
    have hvis := (h.spread x a b ha hb hna hwb y hy).resolve_left not_mem_nil
    exact ⟨fun b' hb' => hup ▸ hweak b' (hvis.1 b' hb').1, fun e he => ⟨_, hvis.2 e he⟩⟩
  · obtain hF | hF : F.force = false ∨ F.force = true := by cases F.force <;> simp
    · rw [h.keeps hF x, hv] at hv'
      cases hv'
    · rcases h.nodes x with h' | ⟨a, b, ha, hb, hw⟩
      · rw [valueAt, h', ← valueAt, hv] at hv'
        cases hv'
      · rw [valueAt_computed ha] at hv
        have hna : ¬ F.weak a := F.takes hF a (by simp [hv])
        rw [dependentsOf_computed ha] at hy
        exact told y (hF ▸ (h.spread x a b ha hb hna hw y hy).resolve_left not_mem_nil)

namespace Context

variable {c c1 c2 c' : Context τ V} {e : EffectNode τ V} {n : Option (Node τ V)}
  {a b : ComputedNode τ V} {y : SlotId}

theorem potential_mark_le (c : Context τ V) : mark.potential c.nextId c ≤ 2 * c.edgeCount :=
  potential_le (fun b => by simp only [mark]; split <;> split <;> omega) c

theorem invalidates_of_mark (hmode : c.revisionMode = false) {roots : List SlotId}
    {s : Context τ V × List (SlotId × Bool)} (h : mark.Inv c roots s []) :
    Invalidates c s.1 s.2 roots := by
  refine h.invalidates (fun a ha => ?_) (fun a ha => ?_)
  · have hd : a.dirty = true := ha
    simp [upToDate, hmode, hd]
  · have hf : a.forceRecompute = true := ha
    simp [trusted, hmode, hf]

section

variable (hlive : ∀ j, c.nextId ≤ j → c.nodes j = none)
include hlive

theorem markFrontier_walk (roots : List SlotId) : mark.Inv c roots (c.markFrontier roots) [] := by
  have hpot := potential_mark_le c
  have hwalk := mark.walk hlive roots (Nat.add_le_add_left hpot roots.length)
  rw [mark_visit] at hwalk
  exact hwalk

theorem markFrontier_invalidates (hmode : c.revisionMode = false) (roots : List SlotId) :
    Invalidates c (c.markFrontier roots).1 (c.markFrontier roots).2 roots :=
  invalidates_of_mark hmode (markFrontier_walk hlive roots)

theorem clearFrontier_invalidates (roots : List SlotId) :
    Invalidates c (c.clearFrontier roots).1 (c.clearFrontier roots).2 roots := by
  have hpot : clear.potential c.nextId c ≤ 1 * c.edgeCount :=
    potential_le (fun b => by simp only [clear]; split <;> omega) c
  rw [Nat.one_mul] at hpot
  have hwalk := clear.walk hlive roots (Nat.add_le_add_left hpot roots.length)
  rw [clear_visit] at hwalk
  refine hwalk.invalidates (fun a ha => ?_) (fun a ha => ?_)
  · have hv : a.value = none := ha
    simp [upToDate, hv]
  · have hv : a.value = none := ha
    simp [trusted, hv]

end

/-! ## Sequences of walks -/

theorem Told.weaken {effects effects' : List (SlotId × Bool)} (h : Told c effects y)
    (hsub : effects ⊆ effects') : Told c effects' y :=
  ⟨h.slot, fun e he => hsub (h.effect e he)⟩

theorem Warned.weaken {effects effects' : List (SlotId × Bool)} (h : Warned c effects y)
    (hsub : effects ⊆ effects') : Warned c effects' y :=
  ⟨h.slot, fun e he => (h.effect e he).imp fun _ hf => hsub hf⟩

theorem Weaker.of_none (h : Weaker none n) : n = none := by
  cases h with
  | same => rfl

theorem Weaker.source {s : SourceNode τ V} (h : Weaker (some (.source s)) n) :
    n = some (.source s) := by
  cases h with
  | same => rfl

theorem Weaker.effect (h : Weaker n (some (.effect e))) : n = some (.effect e) := by
  cases h with
  | same => rfl

theorem Weaker.of_effect (h : Weaker (some (.effect e)) n) : n = some (.effect e) := by
  cases h with
  | same => rfl

section Trans

variable {effects1 effects2 : List (SlotId × Bool)} {roots1 roots2 : List SlotId}

theorem Invalidates.told (h : Invalidates c1 c2 effects2 roots2) (ht : Told c1 effects1 y) :
    Told c2 effects1 y := by
  refine ⟨fun b hb => ?_, fun e he => ?_⟩
  · obtain ⟨a, ha, hw⟩ := h.of_computed hb
    rw [h.trusted]
    by_contra hb'
    rw [not_eq_false] at hb'
    exact absurd (ht.slot a ha) (by simp [(hw.trusted hb').1])
  · exact ht.effect e ((he ▸ h.weaker y).effect)

theorem Invalidates.warned (h : Invalidates c1 c2 effects2 roots2) (ht : Warned c1 effects1 y) :
    Warned c2 effects1 y := by
  refine ⟨fun b hb => ?_, fun e he => ?_⟩
  · obtain ⟨a, ha, hw⟩ := h.of_computed hb
    rw [h.upToDate]
    by_contra hb'
    rw [not_eq_false] at hb'
    exact absurd (ht.slot a ha) (by simp [hw.upToDate hb'])
  · exact ht.effect e ((he ▸ h.weaker y).effect)

theorem Invalidates.trans (h1 : Invalidates c c1 effects1 roots1)
    (h2 : Invalidates c1 c2 effects2 roots2) :
    Invalidates c c2 (effects1 ++ effects2) (roots1 ++ roots2) := by
  have left : effects1 ⊆ effects1 ++ effects2 := subset_append_left ..
  have right : effects2 ⊆ effects1 ++ effects2 := subset_append_right ..
  constructor
  · rw [h2.frame, h1.frame]
  · exact fun i => (h1.weaker i).trans (h2.weaker i)
  · intro r hr
    rcases mem_append.1 hr with hr | hr
    · exact (h2.told (h1.root r hr)).weaken left
    · exact (h2.root r hr).weaken right
  · intro x a b ha hb hua hub y hy
    obtain ⟨a1, ha1, heq, -⟩ := (ha ▸ h1.weaker x).computed
    cases hua1 : c1.upToDate a1 with
    | false => exact (h2.warned (h1.stale x a a1 ha ha1 hua hua1 y hy)).weaken left
    | true =>
      refine (h2.stale x a1 b ha1 hb hua1 hub y ?_).weaken right
      rw [heq]
      exact hy
  · intro x v hv hv' y hy
    rcases (h1.weaker x).value with hval | hval
    · refine (h2.taken x v (hval.trans hv) hv' y ?_).weaken right
      rw [h1.dependentsOf]
      exact hy
    · exact (h2.told (h1.taken x v hv hval y hy)).weaken left
  · intro p hp
    rcases mem_append.1 hp with hp | hp
    · exact h1.collected p hp
    · obtain ⟨e, he⟩ := h2.collected p hp
      exact ⟨e, (he ▸ h1.weaker p.1).effect⟩
  · intro S hS hr
    obtain ⟨he1, hs1⟩ := h1.apart S hS fun r hr' => hr r (mem_append_left _ hr')
    have hS1 : Frontier.ClosedSet c1 S := fun x y hy => hS x y (h1.dependentsOf x ▸ hy)
    obtain ⟨he2, hs2⟩ := h2.apart S hS1 fun r hr' => hr r (mem_append_right _ hr')
    refine ⟨fun p hp => ?_, fun i hi => (hs2 i hi).trans (hs1 i hi)⟩
    rcases mem_append.1 hp with hp | hp
    · exact he1 p hp
    · exact he2 p hp

end Trans

/-! ## Coherence -/

section Coherence

variable {D E : SlotId → Prop} {effects : List (SlotId × Bool)} {roots : List SlotId}

theorem Shaped.invalidates (hc : Shaped c) (h : Invalidates c c' effects roots) : Shaped c' := by
  refine hc.carry (hc.toLinked.congr h.dependenciesOf h.dependentsOf) (fun i hi => ?_)
    (by rw [h.frame]) (fun x b hb => ?_) ?_
  · have hn : c.nodes i = none := hc.live i (by rw [h.frame] at hi; exact hi)
    exact (hn ▸ h.weaker i).of_none
  · obtain ⟨a, ha, hw⟩ := h.of_computed hb
    exact ⟨a, ha, by rw [hw.slots], by rw [hw.slots]⟩
  · -- a slot is up to date only if nothing below it has become stale
    intro x b hb hub
    obtain ⟨a, ha, hw⟩ := h.of_computed hb
    have hg := hc.grounded x a ha (hw.upToDate (h.upToDate ▸ hub))
    induction hg generalizing a b with
    | source hs =>
      rw [ha] at hs
      cases hs
    | @computed x s hs hu hd ih =>
      rw [ha] at hs
      cases hs
      refine .computed hb hub fun d hdb => ?_
      have hda : d ∈ s.dependencies := by rw [hw.slots] at hdb; exact hdb
      obtain ⟨t, ht⟩ | ⟨t, ht, hut, -⟩ := (hd d hda).cases'
      · exact .source (ht ▸ h.weaker d).source
      · obtain ⟨t', ht', -⟩ := (ht ▸ h.weaker d).computed
        refine ih d hda t' ht' ?_ t ht (ht ▸ ht' ▸ h.weaker d)
        by_contra hnt
        have hmem : x ∈ t.dependents := by
          rw [← dependentsOf_computed ht, ← hc.edge, dependenciesOf_computed ha]
          exact hda
        have := (h.stale d t t' ht ht' hut (by simpa using hnt) x hmem).slot b hb
        rw [hub] at this
        cases this

/-- A slot that is still trusted has not been told, so its reads hold. -/
theorem ReadsHold.invalidates (hc : Shaped c) (h : Invalidates c c' effects roots)
    (hE : ∀ d, E d → ∀ y ∈ c.dependentsOf d, y ∈ roots) {x : SlotId} {v : V}
    (ha : c.nodes x = some (.computed a)) (hb : c'.nodes x = some (.computed b))
    (hw : Weaker (some (.computed a)) (some (.computed b))) (htb : c'.trusted b = true)
    (hold : ReadsHold c (fun i => D i ∨ E i) a v) : ReadsHold c' D b v := by
  obtain ⟨l, hpath, hl⟩ := hold
  refine ⟨l, by rw [hw.slots]; exact hpath, fun p hp => ?_⟩
  obtain ⟨hdep, hread⟩ := hl p hp
  have hmem : x ∈ c.dependentsOf p.1.id := by
    rw [← hc.edge, dependenciesOf_computed ha]
    exact hdep
  have untold : ¬ Told c' effects x := fun ht => by
    rw [ht.slot b hb] at htb
    cases htb
  refine ⟨by rw [hw.slots]; exact hdep, ?_⟩
  rcases hread with hread | hD | hE'
  · rcases (h.weaker p.1.id).value with hval | hval
    · exact .inl (hval.trans hread)
    · exact absurd (h.taken _ _ hread hval x hmem) untold
  · exact .inr hD
  · exact absurd (h.root x (hE _ hE' x hmem)) untold

/-- The invalidation walks discharge the cells whose readers are all among the roots; the reads of
the roots do not matter. -/
theorem Shaped.invalidates_coherent (hc : Shaped c) (h : Invalidates c c' effects roots)
    (hreads : ∀ x s v, x ∉ roots → c.nodes x = some (.computed s) → c.trusted s = true →
      s.value = some v → ReadsHold c (fun i => D i ∨ E i) s v)
    (hE : ∀ d, E d → ∀ y ∈ c.dependentsOf d, y ∈ roots) : Coherent D c' := by
  refine ⟨hc.invalidates h, fun x b v hb htb hv => ?_⟩
  obtain ⟨a, ha, hw⟩ := h.of_computed hb
  obtain ⟨hta, hval⟩ := hw.trusted (h.trusted ▸ htb)
  have hx : x ∉ roots := fun hx => by
    rw [(h.root x hx).slot b hb] at htb
    cases htb
  exact (hreads x a v hx ha hta (hval.trans hv)).invalidates hc h hE ha hb hw htb

theorem Coherent.invalidates (hc : Coherent (fun i => D i ∨ E i) c)
    (h : Invalidates c c' effects roots) (hE : ∀ d, E d → ∀ y ∈ c.dependentsOf d, y ∈ roots) :
    Coherent D c' :=
  hc.invalidates_coherent h (fun x s v _ => hc.reads x s v) hE

end Coherence

end Context

end Lazily
