import Lazily.Context.Proof.Schedule
import Lazily.Lib.Reach

/-!
# Rewiring one node

Before a rerun a node's edges are taken off (`detach`), and each tracked read puts one back
(`registerDependency`). Both leave every node as it is but for its dependent list and, at the node
that reruns, its dependency list (`Rewires`). They keep the two directions of the edge relation in
step, so a node that does not rely on its recorded reads may be rewired (`Coherent.rewires`).
-/

namespace Lazily

open Lib Node

variable {τ V : Type}

/-- The kind of a node, and whether a computed cell is eager. -/
inductive Kind where
  | computed (eager : Bool)
  | source
  | effect
  deriving DecidableEq

def Node.kind : Node τ V → Kind
  | .computed s => .computed s.eager
  | .source _ => .source
  | .effect _ => .effect

namespace Context

/-! ## Kinds -/

def kindOf (c : Context τ V) (i : SlotId) : Option Kind := (c.nodes i).map Node.kind

section Kinds

variable {c c' : Context τ V} {i : SlotId}

theorem kindOf_effect : c.kindOf i = some .effect ↔ ∃ e, c.nodes i = some (.effect e) := by
  rcases hn : c.nodes i with _ | s | s | e <;> simp [kindOf, hn, kind]

end Kinds

/-! ## Edge lists -/

/-- Two nodes that differ in their edge lists at most. -/
inductive Relisted : Option (Node τ V) → Option (Node τ V) → Prop
  | none : Relisted none none
  | source (s : SourceNode τ V) (l : List SlotId) :
      Relisted (some (.source s)) (some (.source { s with dependents := l }))
  | computed (s : ComputedNode τ V) (l m : List SlotId) : Relisted (some (.computed s))
      (some (.computed { s with dependents := l, dependencies := m }))
  | effect (e : EffectNode τ V) (m : List SlotId) :
      Relisted (some (.effect e)) (some (.effect { e with dependencies := m }))

namespace Relisted

variable {n n1 n2 : Option (Node τ V)}

theorem refl : ∀ n : Option (Node τ V), Relisted n n
  | .none => .none
  | some (.source s) => .source s s.dependents
  | some (.computed s) => .computed s s.dependents s.dependencies
  | some (.effect e) => .effect e e.dependencies

theorem trans (h : Relisted n n1) (h' : Relisted n1 n2) : Relisted n n2 := by
  cases h <;> cases h'
  · exact .none
  · exact .source _ _
  · exact .computed _ _ _
  · exact .effect _ _

theorem to_none (h : Relisted .none n) : n = .none := by
  cases h
  rfl

theorem to_source {s : SourceNode τ V} (h : Relisted (some (.source s)) n) :
    ∃ l, n = some (.source { s with dependents := l }) := by
  cases h
  exact ⟨_, rfl⟩

theorem to_computed {s : ComputedNode τ V} (h : Relisted (some (.computed s)) n) :
    ∃ l m, n = some (.computed { s with dependents := l, dependencies := m }) := by
  cases h
  exact ⟨_, _, rfl⟩

theorem to_effect {e : EffectNode τ V} (h : Relisted (some (.effect e)) n) :
    ∃ m, n = some (.effect { e with dependencies := m }) := by
  cases h
  exact ⟨_, rfl⟩

theorem of_computed {s' : ComputedNode τ V} (h : Relisted n (some (.computed s'))) :
    ∃ s, n = some (.computed s) ∧
      s' = { s with dependents := s'.dependents, dependencies := s'.dependencies } := by
  cases h
  exact ⟨_, rfl, rfl⟩

theorem of_effect {e' : EffectNode τ V} (h : Relisted n (some (.effect e'))) :
    ∃ e, n = some (.effect e) ∧ e' = { e with dependencies := e'.dependencies } := by
  cases h
  exact ⟨_, rfl, rfl⟩

theorem kind (h : Relisted n n1) : n1.map kind = n.map kind := by
  cases h <;> rfl

theorem value (h : Relisted n n1) : n1.bind value? = n.bind value? := by
  cases h <;> rfl

theorem mapDependents (n : Option (Node τ V)) (f : List SlotId → List SlotId) :
    Relisted n (n.map (·.mapDependents f)) := by
  rcases n with _ | s | s | e
  · exact .none
  · exact .computed s _ _
  · exact .source s _
  · exact .effect e _

theorem mapDependencies (n : Option (Node τ V)) (f : List SlotId → List SlotId) :
    Relisted n (n.map (·.mapDependencies f)) := by
  rcases n with _ | s | s | e
  · exact .none
  · exact .computed s _ _
  · exact .source s _
  · exact .effect e _

end Relisted

theorem modifyNode_nodes (c : Context τ V) (j : SlotId) (f : Node τ V → Node τ V) (i : SlotId) :
    (c.modifyNode j f).nodes i = if i = j then (c.nodes i).map f else c.nodes i := by
  rw [modifyNode, setNode_nodes]
  split
  · rename_i h
    rw [h]
  · rfl

/-- Only edge lists differ. -/
structure Relists (c c' : Context τ V) : Prop where
  frame : c' = { c with nodes := c'.nodes }
  relisted : ∀ i, Relisted (c.nodes i) (c'.nodes i)

section Relists

variable {c c1 c' : Context τ V} {i : SlotId}

theorem Relists.refl (c : Context τ V) : Relists c c := ⟨rfl, fun _ => .refl _⟩

theorem Relists.trans (h1 : Relists c c1) (h2 : Relists c1 c') : Relists c c' :=
  ⟨by rw [h2.frame, h1.frame], fun i => (h1.relisted i).trans (h2.relisted i)⟩

theorem relists_modifyNode {f : Node τ V → Node τ V}
    (hf : ∀ n : Option (Node τ V), Relisted n (n.map f)) (c : Context τ V) (j : SlotId) :
    Relists c (c.modifyNode j f) := by
  refine ⟨rfl, fun i => ?_⟩
  rw [modifyNode_nodes]
  split
  · exact hf _
  · exact .refl _

theorem relists_removeDependentEdges (c : Context τ V) (y : SlotId) (l : List SlotId) :
    Relists c (c.removeDependentEdges y l) :=
  foldl_invariant (.refl c) fun c d h =>
    h.trans (relists_modifyNode (fun n => .mapDependents n (edgeRemove · y)) c d)

theorem relists_removeDependencyEdges (c : Context τ V) (y : SlotId) (l : List SlotId) :
    Relists c (c.removeDependencyEdges y l) :=
  foldl_invariant (.refl c) fun c d h =>
    h.trans (relists_modifyNode (fun n => .mapDependencies n (edgeRemove · y)) c d)

variable (h : Relists c c')
include h

theorem Relists.upToDate : c'.upToDate = c.upToDate := by
  rw [h.frame]
  rfl

theorem Relists.trusted : c'.trusted = c.trusted := by
  rw [h.frame]
  rfl

theorem Relists.kindOf : c'.kindOf = c.kindOf := funext fun i => (h.relisted i).kind

theorem Relists.valueAt (i : SlotId) : c'.valueAt i = c.valueAt i := (h.relisted i).value

end Relists

/-- Only edge lists differ, and of the dependency lists only that of `x`. -/
structure Rewires (x : SlotId) (c c' : Context τ V) : Prop extends Relists c c' where
  dependencies : ∀ i, i ≠ x → c'.dependenciesOf i = c.dependenciesOf i

section Rewires

variable {x i : SlotId} {c c1 c' : Context τ V} {D : SlotId → Prop}

theorem dependenciesOf_mapDependents (d : SlotId) (f : List SlotId → List SlotId) (i : SlotId) :
    (c.modifyNode d (·.mapDependents f)).dependenciesOf i = c.dependenciesOf i := by
  simp only [dependenciesOf, modifyNode_nodes]
  split
  · rcases c.nodes i with _ | (_ | _ | _) <;> rfl
  · rfl

theorem dependenciesOf_removeDependentEdges (y i : SlotId) (l : List SlotId) (c : Context τ V) :
    (c.removeDependentEdges y l).dependenciesOf i = c.dependenciesOf i :=
  foldl_invariant (I := fun c' : Context τ V => c'.dependenciesOf i = c.dependenciesOf i) rfl
    fun _ d h => (dependenciesOf_mapDependents d _ i).trans h

theorem rewires_mapDependencies (x : SlotId) (c : Context τ V) (f : List SlotId → List SlotId) :
    Rewires x c (c.modifyNode x (·.mapDependencies f)) where
  toRelists := relists_modifyNode (fun n => .mapDependencies n f) c x
  dependencies i hi := by simp [dependenciesOf, modifyNode_nodes, hi]

theorem Relists.rewires (h : Relists c c1) (hdeps : ∀ i, c1.dependenciesOf i = c.dependenciesOf i)
    (h' : Rewires x c1 c') : Rewires x c c' :=
  ⟨h.trans h'.toRelists, fun i hi => (h'.dependencies i hi).trans (hdeps i)⟩

theorem detach_rewires (c : Context τ V) (x : SlotId) : Rewires x c (c.detach x) where
  toRelists := (rewires_mapDependencies x c _).toRelists.trans (relists_removeDependentEdges _ x _)
  dependencies i hi :=
    (dependenciesOf_removeDependentEdges ..).trans
      ((rewires_mapDependencies x c _).dependencies i hi)

theorem registerDependency_rewires (c : Context τ V) (d x : SlotId) :
    Rewires x c (c.registerDependency d x) := by
  unfold registerDependency
  split
  · exact ⟨.refl c, fun _ _ => rfl⟩
  · exact (relists_modifyNode (fun n => .mapDependents n _) c d).rewires
      (dependenciesOf_mapDependents d _) (rewires_mapDependencies x _ _)

section

variable (h : Rewires x c c')
include h

theorem Rewires.none (i : SlotId) (hn : c.nodes i = none) :
    c'.nodes i = none := (hn ▸ h.relisted i).to_none

theorem Rewires.source (i : SlotId) (s : SourceNode τ V) (hs : c.nodes i = some (.source s)) :
    ∃ l, c'.nodes i = some (.source { s with dependents := l }) :=
  (hs ▸ h.relisted i).to_source

theorem Rewires.computed (i : SlotId) (s : ComputedNode τ V) (hs : c.nodes i = some (.computed s)) :
    ∃ l m, c'.nodes i = some (.computed { s with dependents := l, dependencies := m }) ∧
      (i ≠ x → m = s.dependencies) := by
  obtain ⟨l, m, hm⟩ := (hs ▸ h.relisted i).to_computed
  refine ⟨l, m, hm, fun hi => ?_⟩
  rw [← dependenciesOf_computed hs, ← h.dependencies i hi, dependenciesOf_computed hm]

theorem Rewires.effect (i : SlotId) (e : EffectNode τ V) (he : c.nodes i = some (.effect e)) :
    ∃ m, c'.nodes i = some (.effect { e with dependencies := m }) ∧
      (i ≠ x → m = e.dependencies) := by
  obtain ⟨m, hm⟩ := (he ▸ h.relisted i).to_effect
  refine ⟨m, hm, fun hi => ?_⟩
  rw [← dependenciesOf_effect he, ← h.dependencies i hi, dependenciesOf_effect hm]

/-! ## Backwards -/

theorem Rewires.of_computed {i : SlotId} {s' : ComputedNode τ V}
    (hs : c'.nodes i = some (.computed s')) : ∃ s, c.nodes i = some (.computed s) ∧
      s' = { s with dependents := s'.dependents, dependencies := s'.dependencies } ∧
      (i ≠ x → s'.dependencies = s.dependencies) := by
  obtain ⟨s, hn, hsame⟩ := (hs ▸ h.relisted i).of_computed
  refine ⟨s, hn, hsame, fun hi => ?_⟩
  rw [← dependenciesOf_computed hn, ← h.dependencies i hi, dependenciesOf_computed hs]

theorem Rewires.of_effect {i : SlotId} {e' : EffectNode τ V}
    (he : c'.nodes i = some (.effect e')) : ∃ e, c.nodes i = some (.effect e) ∧
      e' = { e with dependencies := e'.dependencies } ∧
      (i ≠ x → e'.dependencies = e.dependencies) := by
  obtain ⟨e, hn, hsame⟩ := (he ▸ h.relisted i).of_effect
  refine ⟨e, hn, hsame, fun hi => ?_⟩
  rw [← dependenciesOf_effect hn, ← h.dependencies i hi, dependenciesOf_effect he]

theorem Rewires.grounded
    (hx : ¬ Grounded c x ∨ ∃ s, c.nodes x = some (.source s)) (hg : Grounded c i) :
    Grounded c' i := by
  refine hg.imp (fun i s hs => ?_) (fun i s hg hs => ?_)
  · obtain ⟨l, hl⟩ := h.source i s hs
    exact ⟨_, hl⟩
  · obtain ⟨l, m, hm, hd⟩ := h.computed i s hs
    have hi : i ≠ x := by
      rintro rfl
      rcases hx with hx | ⟨s', hs'⟩
      · exact hx hg
      · rw [hs] at hs'
        cases hs'
    have hu := hg.upToDate hs
    exact ⟨_, hm, by rw [h.upToDate]; exact hu, hd hi⟩

end

/-- A node that does not rely on its recorded reads may be rewired. -/
theorem Coherent.rewires (hc : Coherent D c) (h : Rewires x c c') (hx : c.Untrusted x)
    (hlinked : Linked c'.dependenciesOf c'.dependentsOf) : Coherent D c' where
  toShaped := by
    refine hc.carry hlinked (fun i hi => h.none i (hc.live i (by rw [h.frame] at hi; exact hi)))
      (by rw [h.frame]) (fun i s' hs' => ?_) fun i s' hs' hu => ?_
    · obtain ⟨s, hs, hsame, -⟩ := h.of_computed hs'
      exact ⟨s, hs, by rw [hsame], by rw [hsame]⟩
    obtain ⟨s, hs, hsame, -⟩ := h.of_computed hs'
    rw [h.upToDate] at hu
    have hu' : c.upToDate s = true := by rw [hsame] at hu; exact hu
    have hxg : ¬ Grounded c x ∨ ∃ s, c.nodes x = some (.source s) := by
      refine or_iff_not_imp_right.2 fun hns hg => ?_
      obtain ⟨t, ht⟩ | ⟨t, ht, hut, -⟩ := hg.cases'
      · exact hns ⟨t, ht⟩
      · have := hx t ht
        rw [trusted_of_upToDate hut] at this
        cases this
    exact h.grounded hxg (hc.grounded i s hs hu')
  reads i s' v hs' ht hv := by
    obtain ⟨s, hs, hsame, hd⟩ := h.of_computed hs'
    rw [h.trusted] at ht
    have ht' : c.trusted s = true := by rw [hsame] at ht; exact ht
    have hi : i ≠ x := by
      rintro rfl
      rw [hx s hs] at ht'
      cases ht'
    obtain ⟨l, hpath, hl⟩ := hc.reads i s v hs ht' (by rw [hsame] at hv; exact hv)
    refine ⟨l, by rw [hsame]; exact hpath, fun p hp => ?_⟩
    rw [hd hi, h.valueAt]
    exact hl p hp

end Rewires

/-! ## Edges -/

section Edges

variable {c : Context τ V} {f : List SlotId → List SlotId} {x d i : SlotId} {D : SlotId → Prop}

def Readable (c : Context τ V) (d : SlotId) : Prop :=
  (∃ s, c.nodes d = some (.source s)) ∨ ∃ s, c.nodes d = some (.computed s)

def Reader (c : Context τ V) (x : SlotId) : Prop :=
  (∃ s, c.nodes x = some (.computed s)) ∨ ∃ e, c.nodes x = some (.effect e)

theorem readable_of_mem (h : x ∈ c.dependentsOf d) : Readable c d := by
  rcases hn : c.nodes d with _ | (s | s | e)
  · simp [dependentsOf, hn] at h
  · exact .inr ⟨s, hn⟩
  · exact .inl ⟨s, hn⟩
  · simp [dependentsOf, hn, dependents] at h

theorem readable_iff_kindOf : Readable c d ↔ c.kindOf d ≠ none ∧ c.kindOf d ≠ some .effect := by
  cases h : c.nodes d with
  | none => simp [Readable, kindOf, h]
  | some n => cases n <;> simp [Readable, kindOf, h, kind]

theorem dependentsOf_mapDependencies (x : SlotId) (f : List SlotId → List SlotId) (i : SlotId) :
    (c.modifyNode x (·.mapDependencies f)).dependentsOf i = c.dependentsOf i := by
  simp only [dependentsOf, modifyNode_nodes]
  split
  · rcases c.nodes i with _ | (_ | _ | _) <;> rfl
  · rfl

theorem dependentsOf_mapDependents (hf : Readable c d ∨ f [] = [])
    (i : SlotId) : (c.modifyNode d (·.mapDependents f)).dependentsOf i =
      if i = d then f (c.dependentsOf i) else c.dependentsOf i := by
  simp only [dependentsOf, modifyNode_nodes]
  split
  · rename_i hi
    subst hi
    rcases hf with (⟨s, hs⟩ | ⟨s, hs⟩) | hf
    · simp [hs, mapDependents, dependents]
    · simp [hs, mapDependents, dependents]
    · rcases hn : c.nodes i with _ | (s | s | e) <;>
        simp [mapDependents, dependents, hf]
  · rfl

theorem dependenciesOf_mapDependencies (hf : Reader c x ∨ f [] = [])
    (i : SlotId) : (c.modifyNode x (·.mapDependencies f)).dependenciesOf i =
      if i = x then f (c.dependenciesOf i) else c.dependenciesOf i := by
  simp only [dependenciesOf, modifyNode_nodes]
  split
  · rename_i hi
    subst hi
    rcases hf with (⟨s, hs⟩ | ⟨s, hs⟩) | hf
    · simp [hs, mapDependencies, dependencies]
    · simp [hs, mapDependencies, dependencies]
    · rcases hn : c.nodes i with _ | (s | s | e) <;>
        simp [mapDependencies, dependencies, hf]
  · rfl

/-- Steps that each take `y` off the list of one node, seen at node `i`. -/
theorem foldl_edgeRemove (edges : Context τ V → List SlotId)
    {step : Context τ V → SlotId → Context τ V} {y i : SlotId}
    (hstep : ∀ c d, edges (step c d) = if i = d then edgeRemove (edges c) y else edges c) :
    ∀ (l : List SlotId) (c : Context τ V), (edges c).Nodup → (edges (l.foldl step c)).Nodup ∧
      ∀ z, z ∈ edges (l.foldl step c) ↔ z ∈ edges c ∧ ¬ (z = y ∧ i ∈ l)
  | [], c, h => ⟨h, fun z => by simp⟩
  | d :: l, c, h => by
    have hnodup : (edges (step c d)).Nodup := by
      rw [hstep]
      split
      · exact nodup_edgeRemove h
      · exact h
    obtain ⟨hn, hm⟩ := foldl_edgeRemove edges hstep l _ hnodup
    refine ⟨hn, fun z => (hm z).trans ?_⟩
    rw [hstep]
    by_cases hi : i = d
    · simp only [hi, if_true, mem_edgeRemove h, List.mem_cons, true_or]
      tauto
    · simp [hi]

/-- `remove_dependent_edges_locked` takes `y` off the lists of `l`. -/
theorem dependentsOf_removeDependentEdges (y i : SlotId) (l : List SlotId) (c : Context τ V)
    (h : (c.dependentsOf i).Nodup) : ((c.removeDependentEdges y l).dependentsOf i).Nodup ∧
      ∀ z, z ∈ (c.removeDependentEdges y l).dependentsOf i ↔
        z ∈ c.dependentsOf i ∧ ¬ (z = y ∧ i ∈ l) :=
  foldl_edgeRemove (·.dependentsOf i) (fun _ _ => dependentsOf_mapDependents (.inr rfl) i) l c h

theorem dependenciesOf_detach (x i : SlotId) :
    (c.detach x).dependenciesOf i = if i = x then [] else c.dependenciesOf i := by
  rw [detach, dependenciesOf_removeDependentEdges, dependenciesOf_mapDependencies (.inr rfl)]

section

variable (h : Linked c.dependenciesOf c.dependentsOf)
include h

theorem detach_dependents (x i : SlotId) : ((c.detach x).dependentsOf i).Nodup ∧
      ∀ z, z ∈ (c.detach x).dependentsOf i ↔ z ∈ c.dependentsOf i ∧ z ≠ x := by
  have hsame : (c.modifyNode x (·.mapDependencies fun _ => [])).dependentsOf i = c.dependentsOf i :=
    dependentsOf_mapDependencies x _ i
  obtain ⟨hn, hm⟩ := dependentsOf_removeDependentEdges x i (c.dependenciesOf x)
    (c.modifyNode x (·.mapDependencies fun _ => [])) (hsame ▸ h.nodupDependents i)
  refine ⟨hn, fun z => (hm z).trans ?_⟩
  rw [hsame, h.edge]
  constructor
  · rintro ⟨hz, hne⟩
    exact ⟨hz, fun hzx => hne ⟨hzx, hzx ▸ hz⟩⟩
  · rintro ⟨hz, hne⟩
    exact ⟨hz, fun h => hne h.1⟩

theorem Linked.detach (x : SlotId) :
    Linked (c.detach x).dependenciesOf (c.detach x).dependentsOf where
  edge d y := by
    rw [dependenciesOf_detach, (detach_dependents h x d).2]
    by_cases hy : y = x
    · simp [hy]
    · simp [hy, h.edge]
  nodupDependencies y := by
    rw [dependenciesOf_detach]
    split
    · exact List.nodup_nil
    · exact h.nodupDependencies y
  nodupDependents y := (detach_dependents h x y).1

omit h in
/-- Taking the edges off a node that is about to rerun. -/
theorem Coherent.detach (hc : Coherent D c) (hx : c.Untrusted x) : Coherent D (c.detach x) :=
  hc.rewires (detach_rewires c x) hx (hc.toLinked.detach x)

omit h in
theorem dependenciesOf_registerDependency (hdx : d ≠ x) (hx : Reader c x) (i : SlotId) :
    (c.registerDependency d x).dependenciesOf i =
      if i = x then edgeInsert (c.dependenciesOf i) d else c.dependenciesOf i := by
  have hx' : Reader (c.modifyNode d (·.mapDependents (edgeInsert · x))) x := by
    have hne : x ≠ d := fun h => hdx h.symm
    simp only [Reader, modifyNode_nodes, hne]
    exact hx
  rw [registerDependency, if_neg hdx, dependenciesOf_mapDependencies (.inl hx'),
    dependenciesOf_mapDependents]

omit h in
theorem dependentsOf_registerDependency (hdx : d ≠ x) (hd : Readable c d) (i : SlotId) :
    (c.registerDependency d x).dependentsOf i =
      if i = d then edgeInsert (c.dependentsOf i) x else c.dependentsOf i := by
  rw [registerDependency, if_neg hdx, dependentsOf_mapDependencies,
    dependentsOf_mapDependents (.inl hd)]

theorem Linked.registerDependency (hdx : d ≠ x) (hd : Readable c d) (hr : Reader c x) :
    Linked (c.registerDependency d x).dependenciesOf (c.registerDependency d x).dependentsOf where
  edge d' y := by
    rw [dependenciesOf_registerDependency hdx hr, dependentsOf_registerDependency hdx hd]
    by_cases hy : y = x <;> by_cases hd' : d' = d <;>
      simp [hy, hd', mem_edgeInsert, h.edge]
  nodupDependencies y := by
    rw [dependenciesOf_registerDependency hdx hr]
    split
    · exact nodup_edgeInsert (h.nodupDependencies y)
    · exact h.nodupDependencies y
  nodupDependents y := by
    rw [dependentsOf_registerDependency hdx hd]
    split
    · exact nodup_edgeInsert (h.nodupDependents y)
    · exact h.nodupDependents y

end

/-- Recording a read of a node that is running. -/
theorem Coherent.registerDependency (hc : Coherent D c) (hd : Readable c d) (hr : Reader c x)
    (hx : c.Untrusted x) : Coherent D (c.registerDependency d x) := by
  by_cases hdx : d = x
  · rw [Context.registerDependency, if_pos hdx]
    exact hc
  · exact hc.rewires (registerDependency_rewires c d x) hx
      (hc.toLinked.registerDependency hdx hd hr)

end Edges

end Context

end Lazily
