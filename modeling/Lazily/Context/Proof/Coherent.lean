import Lazily.Context.Program

/-!
# The cache invariant

`Coherent D c` is what both engines keep true of the arena between any two steps:

* dependency lists and dependent lists are the two directions of one relation;
* a slot whose cached value stands (`upToDate`) rests on cells whose values stand, down to the
  sources (`Grounded`);
* a value that may still be reused (`trusted`) was computed by a run of the closure whose reads are
  all recorded as dependencies and would return the same values today, except at the cells in `D`.

`D` holds the cells whose readers have not been told yet: the sources written in an open batch, or
a cell between the store of its new value and the walk that invalidates its dependents.

With `D` empty a grounded cell holds its value from scratch (`Coherent.fromScratch`).
-/

namespace Lazily

open Lib Nat Node

variable {τ V : Type}

namespace Context

variable (c : Context τ V)

/-- May the cached value be reused once the dependencies are known to be unchanged? -/
def trusted (s : ComputedNode τ V) : Bool :=
  s.value.isSome && (if c.revisionMode then s.verifiedAt == c.revision else !s.forceRecompute)

/-- A source, or a slot whose value stands. -/
def fresh (id : SlotId) : Bool :=
  match c.nodes id with
  | some (.source _) => true
  | some (.computed s) => c.upToDate s
  | _ => false

/-- The stored value stands: a source, or an up-to-date slot over grounded cells. -/
inductive Grounded (c : Context τ V) : SlotId → Prop
  | source {id : SlotId} {s : SourceNode τ V} : c.nodes id = some (.source s) → Grounded c id
  | computed {id : SlotId} {s : ComputedNode τ V} : c.nodes id = some (.computed s) →
      c.upToDate s = true → (∀ d ∈ s.dependencies, Grounded c d) → Grounded c id

/-- A run of the closure that returned `v`, whose reads still hold outside `D`. -/
def ReadsHold (D : SlotId → Prop) (s : ComputedNode τ V) (v : V) : Prop :=
  ∃ l, ReadTree.Path s.compute l v ∧
    ∀ p ∈ l, p.1.id ∈ s.dependencies ∧ (c.valueAt p.1.id = some p.2 ∨ D p.1.id)

/-- The edge lists are simple, and two directions of one relation. -/
structure Linked (dependencies dependents : SlotId → List SlotId) : Prop where
  edge : ∀ d x, d ∈ dependencies x ↔ x ∈ dependents d
  nodupDependencies : ∀ x, (dependencies x).Nodup
  nodupDependents : ∀ x, (dependents x).Nodup

theorem Linked.congr {dependencies dependents dependencies' dependents' : SlotId → List SlotId}
    (h : Linked dependencies dependents) (hdeps : ∀ i, dependencies' i = dependencies i)
    (hdependents : ∀ i, dependents' i = dependents i) : Linked dependencies' dependents' := by
  rwa [funext hdeps, funext hdependents]

/-- The first two points of the cache invariant (module doc). -/
structure Shaped (c : Context τ V) : Prop extends Linked c.dependenciesOf c.dependentsOf where
  live : ∀ i, c.nextId ≤ i → c.nodes i = none
  verified : ∀ x s, c.nodes x = some (.computed s) → s.verifiedAt ≤ c.revision
  guard : ∀ x s equals, c.nodes x = some (.computed s) → s.equals = some equals →
    ∀ old new, equals old new = true → old = new
  grounded : ∀ x s, c.nodes x = some (.computed s) → c.upToDate s = true → Grounded c x

/-- The cache invariant (module doc). -/
structure Coherent (D : SlotId → Prop) (c : Context τ V) : Prop extends Shaped c where
  reads : ∀ x s v, c.nodes x = some (.computed s) → c.trusted s = true → s.value = some v →
    ReadsHold c D s v

variable {c : Context τ V} {s : ComputedNode τ V} {x : SlotId}

/-- The slots that are left keep their guards and the revision they were verified at. -/
theorem Shaped.carry {c c' : Context τ V} (hc : Shaped c)
    (hlinked : Linked c'.dependenciesOf c'.dependentsOf)
    (hlive : ∀ i, c'.nextId ≤ i → c'.nodes i = none) (hrevision : c'.revision = c.revision)
    (hslot : ∀ x s', c'.nodes x = some (.computed s') → ∃ s, c.nodes x = some (.computed s) ∧
      s'.verifiedAt = s.verifiedAt ∧ s'.equals = s.equals)
    (hgrounded : ∀ x s', c'.nodes x = some (.computed s') → c'.upToDate s' = true →
      Grounded c' x) : Shaped c' where
  toLinked := hlinked
  live := hlive
  verified x s' hs' := by
    obtain ⟨s, hs, hverified, -⟩ := hslot x s' hs'
    rw [hverified, hrevision]
    exact hc.verified x s hs
  guard x s' equals hs' heq := by
    obtain ⟨s, hs, -, hequals⟩ := hslot x s' hs'
    exact hc.guard x s equals hs (hequals ▸ heq)
  grounded := hgrounded

theorem Coherent.mono {D D' : SlotId → Prop} (h : Coherent D c) (hD : ∀ i, D i → D' i) :
    Coherent D' c :=
  { h with
    reads := fun x s v hs ht hv => by
      obtain ⟨l, hpath, hl⟩ := h.reads x s v hs ht hv
      exact ⟨l, hpath, fun p hp => ⟨(hl p hp).1, (hl p hp).2.imp_right (hD _)⟩⟩ }

/-! ## Small facts -/

section Views

variable {c : Context τ V} {x : SlotId}

theorem dependenciesOf_effect {e : EffectNode τ V} (h : c.nodes x = some (.effect e)) :
    c.dependenciesOf x = e.dependencies := by simp [dependenciesOf, h, dependencies]

theorem dependentsOf_source {s : SourceNode τ V} (h : c.nodes x = some (.source s)) :
    c.dependentsOf x = s.dependents := by simp [dependentsOf, h, dependents]

section

variable (h : c.nodes x = some (.computed s))
include h

theorem dependenciesOf_computed :
    c.dependenciesOf x = s.dependencies := by simp [dependenciesOf, h, dependencies]

theorem dependentsOf_computed :
    c.dependentsOf x = s.dependents := by simp [dependentsOf, h, dependents]

theorem valueAt_computed :
    c.valueAt x = s.value := by simp [valueAt, h, value?]

end

theorem valueAt_source {s : SourceNode τ V} (h : c.nodes x = some (.source s)) :
    c.valueAt x = some s.value := by simp [valueAt, h, value?]

theorem upToDate_value (h : c.upToDate s = true) : s.value.isSome = true :=
  (Bool.and_eq_true_iff.1 h).1

theorem trusted_of_upToDate (h : c.upToDate s = true) : c.trusted s = true := by
  unfold upToDate trusted at *
  split at h <;> simp_all

theorem trusted_value (h : c.trusted s = true) : s.value.isSome = true :=
  (Bool.and_eq_true_iff.1 h).1

end Views

/-! ## Grounded cells -/

section Grounded

variable {c : Context τ V} {e : EffectNode τ V}

theorem Grounded.cases' (h : Grounded c x) : (∃ s, c.nodes x = some (.source s)) ∨
      ∃ s, c.nodes x = some (.computed s) ∧ c.upToDate s = true ∧
        ∀ d ∈ s.dependencies, Grounded c d := by
  cases h with
  | source h => exact .inl ⟨_, h⟩
  | computed h hu hd => exact .inr ⟨_, h, hu, hd⟩

/-- If the node is a slot, its cached value may not be reused. -/
def Untrusted (c : Context τ V) (x : SlotId) : Prop :=
  ∀ s, c.nodes x = some (.computed s) → c.trusted s = false

theorem untrusted_computed (hs : c.nodes x = some (.computed s)) (ht : c.trusted s = false) :
    c.Untrusted x := fun _ hs' => by
  cases hs.symm.trans hs'
  exact ht

theorem untrusted_effect (he : c.nodes x = some (.effect e)) :
    c.Untrusted x := fun _ hs => by cases he.symm.trans hs

theorem not_grounded_effect (he : c.nodes x = some (.effect e)) : ¬ Grounded c x := fun hg => by
  obtain ⟨s, hs⟩ | ⟨s, hs, -⟩ := hg.cases' <;> rw [he] at hs <;> cases hs

theorem Grounded.dependencies {d : SlotId} (h : Grounded c x) (hd : d ∈ c.dependenciesOf x) :
    Grounded c d := by
  obtain ⟨s, hs⟩ | ⟨s, hs, -, hg⟩ := h.cases'
  · simp [dependenciesOf, hs, Node.dependencies] at hd
  · exact hg d (dependenciesOf_computed hs ▸ hd)

theorem Grounded.upToDate (h : Grounded c x) (hs : c.nodes x = some (.computed s)) :
    c.upToDate s = true := by
  obtain ⟨s', hs'⟩ | ⟨s', hs', hu, -⟩ := h.cases'
  · rw [hs] at hs'; cases hs'
  · rw [hs] at hs'; cases hs'; exact hu

/-- Groundedness only looks at grounded nodes: kind, currency and dependencies. -/
theorem Grounded.imp {c' : Context τ V}
    (hsrc : ∀ i s, c.nodes i = some (.source s) → ∃ s', c'.nodes i = some (.source s'))
    (hcomp : ∀ i s, Grounded c i → c.nodes i = some (.computed s) → ∃ s',
      c'.nodes i = some (.computed s') ∧ c'.upToDate s' = true ∧ s'.dependencies = s.dependencies)
    (h : Grounded c x) : Grounded c' x := by
  induction h with
  | source hs =>
    obtain ⟨s', hs'⟩ := hsrc _ _ hs
    exact .source hs'
  | @computed id s hs hu hd ih =>
    obtain ⟨s', hs', hu', hdep⟩ := hcomp id s (.computed hs hu hd) hs
    exact .computed hs' hu' fun d hd' => ih d (hdep ▸ hd')

end Grounded

theorem Coherent.grounded_of_fresh {D : SlotId → Prop} (hc : Coherent D c) {d : SlotId}
    (hd : c.fresh d = true) : Grounded c d := by
  unfold Context.fresh at hd
  split at hd
  · rename_i s hs
    exact .source hs
  · rename_i s hs
    exact hc.grounded d s hs hd
  · cases hd

/-! ## From scratch -/

theorem evalScratch_mono :
    ∀ {n m : Nat} {id : SlotId} {v : V}, n ≤ m → evalScratch c n id = some v →
      evalScratch c m id = some v
  | 0, _, _, _, _, h => by cases h
  | n + 1, 0, _, _, hle, _ => absurd hle (by omega)
  | n + 1, m + 1, id, v, hle, h => by
    unfold evalScratch at h ⊢
    cases hn : c.nodes id with
    | none => rw [hn] at h; cases h
    | some node =>
      rw [hn] at h
      cases node with
      | source s => exact h
      | computed s =>
        exact ReadTree.eval?_mono (fun k w hk => evalScratch_mono (le_of_succ_le_succ hle) hk) h
      | effect e => cases h

theorem fromScratch_unique {id : SlotId} {v w : V} (hv : FromScratch c id v)
    (hw : FromScratch c id w) : v = w := by
  obtain ⟨n, hn⟩ := hv
  obtain ⟨m, hm⟩ := hw
  have h := evalScratch_mono (le_max_left n m) hn
  rw [evalScratch_mono (le_max_right n m) hm] at h
  exact (Option.some.inj h).symm

theorem exists_fuel : ∀ {l : List (Cell τ × V)}, (∀ p ∈ l, FromScratch c p.1.id p.2) →
      ∃ fuel, ∀ p ∈ l, evalScratch c fuel p.1.id = some p.2
  | [], _ => ⟨0, by simp⟩
  | p :: l, h => by
    obtain ⟨n, hn⟩ := h p List.mem_cons_self
    obtain ⟨m, hm⟩ := exists_fuel fun q hq => h q (List.mem_cons_of_mem _ hq)
    refine ⟨max n m, fun q hq => ?_⟩
    rcases List.mem_cons.1 hq with rfl | hq
    · exact evalScratch_mono (le_max_left ..) hn
    · exact evalScratch_mono (le_max_right ..) (hm q hq)

/-- With nothing left to tell, a grounded cell holds its value from scratch. -/
theorem Coherent.fromScratch (h : Coherent (fun _ => False) c) (hx : Grounded c x) :
    ∀ {v : V}, c.valueAt x = some v → FromScratch c x v := by
  induction hx with
  | source hs =>
    intro v hv
    rw [valueAt_source hs] at hv
    exact ⟨1, by simp only [evalScratch, hs]; exact hv⟩
  | @computed x s hs hu hd ih =>
    intro v hv
    rw [valueAt_computed hs] at hv
    obtain ⟨l, hpath, hl⟩ := h.reads x s v hs (trusted_of_upToDate hu) hv
    obtain ⟨fuel, hfuel⟩ := exists_fuel fun p hp =>
      ih p.1.id (hl p hp).1 ((hl p hp).2.resolve_right id)
    refine ⟨fuel + 1, ?_⟩
    simp only [evalScratch, hs]
    exact hpath.eval? hfuel

end Context

end Lazily
