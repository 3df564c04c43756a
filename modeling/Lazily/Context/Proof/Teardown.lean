import Lazily.Context.Proof.Rewire

/-!
# What the disposal of a node does to the edges

The edges of an arena, with its live slots and the supply of ids, are its `Wiring`; `Wired` says
that they are two directions of one relation between live nodes. Flags, values, queues and walks
leave the wiring as it is. The disposal of a node cuts exactly that node out of it (`Cut`), for a
cell with readers as for an effect (`cuts_disposeCell`, `cuts_disposeSlot`, `cuts_disposeEffect`).
-/

namespace Lazily

open Lib Worklist

variable {τ V : Type}

namespace Context

/-- The edges, the live slots and the supply of ids. -/
structure Wiring where
  nextId : Nat
  freeIds : List SlotId
  alive : SlotId → Bool
  dependencies : SlotId → List SlotId
  dependents : SlotId → List SlotId

def wiring (c : Context τ V) : Wiring where
  nextId := c.nextId
  freeIds := c.freeIds
  alive := c.alive
  dependencies := c.dependenciesOf
  dependents := c.dependentsOf

/-- Edges are symmetric and simple, between live nodes; free ids are free. -/
structure Wired (w : Wiring) : Prop extends Linked w.dependencies w.dependents where
  live : ∀ i, w.alive i = true → i < w.nextId
  free : ∀ i ∈ w.freeIds, w.alive i = false ∧ i < w.nextId
  nodupFree : w.freeIds.Nodup
  source : ∀ d x, d ∈ w.dependencies x → w.alive x = true
  target : ∀ d x, x ∈ w.dependents d → w.alive d = true

/-- `w'` is `w` without the node at `x`. -/
structure Cut (x : SlotId) (w w' : Wiring) : Prop where
  nextId : w'.nextId = w.nextId
  freeIds : w'.freeIds = x :: w.freeIds
  alive : ∀ i, w'.alive i = true ↔ w.alive i = true ∧ i ≠ x
  dependencies : ∀ i d, d ∈ w'.dependencies i ↔ d ∈ w.dependencies i ∧ i ≠ x ∧ d ≠ x
  dependents : ∀ i y, y ∈ w'.dependents i ↔ y ∈ w.dependents i ∧ i ≠ x ∧ y ≠ x
  nodupDependencies : ∀ i, (w'.dependencies i).Nodup
  nodupDependents : ∀ i, (w'.dependents i).Nodup

/-- The edges that are left when a node goes. -/
theorem Linked.cut {dependencies dependents dependencies' dependents' : SlotId → List SlotId}
    {x : SlotId} (h : Linked dependencies dependents)
    (hdeps : ∀ i d, d ∈ dependencies' i ↔ d ∈ dependencies i ∧ i ≠ x ∧ d ≠ x)
    (hdependents : ∀ i y, y ∈ dependents' i ↔ y ∈ dependents i ∧ i ≠ x ∧ y ≠ x)
    (hnodup : ∀ i, (dependencies' i).Nodup) (hnodup' : ∀ i, (dependents' i).Nodup) :
    Linked dependencies' dependents' := by
  refine ⟨fun d y => ?_, hnodup, hnodup'⟩
  rw [hdeps, hdependents, h.edge, and_comm (a := y ≠ x)]

variable {w : Wiring} {i : SlotId} {n : Node τ V}

theorem Cut.wired {x : SlotId} {w' : Wiring} (h : Cut x w w') (hw : Wired w)
    (hx : w.alive x = true) : Wired w' where
  live i hi := h.nextId ▸ hw.live i ((h.alive i).1 hi).1
  free i hi := by
    have hoff : w'.alive i = true ↔ w.alive i = true ∧ i ≠ x := h.alive i
    rw [h.freeIds] at hi
    rw [h.nextId, ← Bool.not_eq_true, hoff]
    rcases List.mem_cons.1 hi with rfl | hi
    · exact ⟨fun hn => hn.2 rfl, hw.live i hx⟩
    · exact ⟨fun hn => by rw [(hw.free i hi).1] at hn; exact absurd hn.1 Bool.false_ne_true,
        (hw.free i hi).2⟩
  nodupFree := by
    rw [h.freeIds]
    refine List.nodup_cons.2 ⟨fun hn => ?_, hw.nodupFree⟩
    rw [(hw.free x hn).1] at hx
    cases hx
  toLinked := hw.toLinked.cut h.dependencies h.dependents h.nodupDependencies h.nodupDependents
  source d y hd := by
    obtain ⟨he, hy, -⟩ := (h.dependencies y d).1 hd
    exact (h.alive y).2 ⟨hw.source d y he, hy⟩
  target d y hy := by
    obtain ⟨he, hd, -⟩ := (h.dependents d y).1 hy
    exact (h.alive d).2 ⟨hw.target d y he, hd⟩

theorem alive_iff_kindOf {c : Context τ V} : c.alive i = true ↔ c.kindOf i ≠ none := by
  cases h : c.nodes i <;> simp [alive, kindOf, h]

section Keeps

variable {c c' : Context τ V} {x : SlotId}

theorem alive_congr (h : c'.kindOf = c.kindOf) : c'.alive = c.alive := by
  funext i
  rw [Bool.eq_iff_iff, alive_iff_kindOf, alive_iff_kindOf, h]

/-! ## Operations that keep every kind -/

/-- All of a context but its nodes. -/
def bare (c : Context τ V) : Context τ V := { c with nodes := fun _ => none }

/-- Only nodes differ, and none in its kind. -/
structure SameKinds (c c' : Context τ V) : Prop where
  kind : c'.kindOf = c.kindOf
  bare : c'.bare = c.bare

theorem SameKinds.trans {c1 c2 : Context τ V} (h1 : SameKinds c c1) (h2 : SameKinds c1 c2) :
    SameKinds c c2 :=
  ⟨h2.kind.trans h1.kind, h2.bare.trans h1.bare⟩

theorem Relists.sameKinds (h : Relists c c') : SameKinds c c' := ⟨h.kindOf, by rw [h.frame]; rfl⟩

theorem sameKinds_markVisit (i : SlotId × Bool) (s : Context τ V × List (SlotId × Bool)) :
    SameKinds s.1 (markVisit i s).1.1 := by
  unfold markVisit
  split
  · rename_i slot hs
    refine ⟨?_, rfl⟩
    funext j
    by_cases hj : j = i.1
    · subst hj
      simp [kindOf, hs, Node.kind]
    · simp [kindOf, setNode_ne _ hj]
  · exact ⟨rfl, rfl⟩
  · exact ⟨rfl, rfl⟩

section

variable (roots : List SlotId)

theorem sameKinds_markFrontier (c : Context τ V) : SameKinds c (c.markFrontier roots).1 where
  kind := run_keeps (f := fun s : Context τ V × List (SlotId × Bool) => s.1.kindOf)
    (fun i s => (sameKinds_markVisit i s).kind) ..
  bare := run_keeps (f := fun s : Context τ V × List (SlotId × Bool) => s.1.bare)
    (fun i s => (sameKinds_markVisit i s).bare) ..

theorem sameKinds_invalidateDisposedDependents (c : Context τ V) (l : List SlotId) :
    SameKinds c (c.invalidateDisposedDependents l) := by
  unfold invalidateDisposedDependents
  split
  · exact ⟨rfl, rfl⟩
  · exact sameKinds_markFrontier l c

theorem sameKinds_tearDown (c : Context τ V) (id : SlotId) (n : Node τ V) : ∃ c',
    SameKinds (c.setNode id none) c' ∧ c.tearDown id n = c'.retireId id :=
  ⟨_, ((relists_removeDependentEdges _ id n.dependencies).trans
    (relists_removeDependencyEdges ..)).sameKinds.trans
      (sameKinds_invalidateDisposedDependents ..), rfl⟩

/-! ## What keeps the wiring -/

/-- A node may change in everything but its edges. -/
theorem wiring_setNode {n' : Node τ V} (hn : c.nodes x = some n)
    (hdeps : n'.dependencies = n.dependencies) (hdependents : n'.dependents = n.dependents) :
    (c.setNode x (some n')).wiring = c.wiring := by
  have halive : (c.setNode x (some n')).alive = c.alive := by
    funext i
    by_cases hi : i = x
    · simp [alive, hi, hn]
    · simp [alive, setNode_ne _ hi]
  simp only [wiring, halive, dependenciesOf_setNode hn hdeps, dependentsOf_setNode hn hdependents]
  rfl

theorem wiring_modifyComputed {f : ComputedNode τ V → ComputedNode τ V}
    (hdeps : ∀ s, (f s).dependencies = s.dependencies)
    (hdependents : ∀ s, (f s).dependents = s.dependents) :
    (c.modifyComputed x f).wiring = c.wiring := by
  unfold modifyComputed
  split
  · rename_i s hs
    exact wiring_setNode hs (hdeps s) (hdependents s)
  · rfl

theorem wiring_modifySource {f : SourceNode τ V → SourceNode τ V}
    (hdependents : ∀ s, (f s).dependents = s.dependents) :
    (c.modifySource x f).wiring = c.wiring := by
  unfold modifySource
  split
  · rename_i s hs
    exact wiring_setNode hs rfl (hdependents s)
  · rfl

theorem wiring_scheduleEffect (id : SlotId) (force : Bool) :
    (c.scheduleEffect id force).wiring = c.wiring := by
  unfold scheduleEffect
  split
  · rename_i e he
    have hset : (c.setNode id (some (.effect { e with forceRun := e.forceRun || force }))).wiring =
        c.wiring := wiring_setNode he rfl rfl
    simp only
    split
    · exact hset
    · exact hset
  · rfl

theorem wiring_scheduleEffects (effects : List (SlotId × Bool)) (c : Context τ V) :
    (c.scheduleEffects effects).wiring = c.wiring :=
  foldl_invariant (I := fun c' : Context τ V => c'.wiring = c.wiring) rfl
    fun _ _ h => (wiring_scheduleEffect ..).trans h

theorem wiring_markVisit (i : SlotId × Bool) (s : Context τ V × List (SlotId × Bool)) :
    (markVisit i s).1.1.wiring = s.1.wiring := by
  unfold markVisit
  split
  · rename_i slot hs
    exact wiring_setNode hs rfl rfl
  · rfl
  · rfl

theorem wiring_clearVisit (i : SlotId × Bool) (s : Context τ V × List (SlotId × Bool)) :
    (clearVisit i s).1.1.wiring = s.1.wiring := by
  unfold clearVisit
  split
  · rename_i slot hs
    split
    · rfl
    · exact wiring_setNode hs rfl rfl
  · rfl
  · rfl

theorem wiring_markFrontier (c : Context τ V) : (c.markFrontier roots).1.wiring = c.wiring :=
  run_keeps (f := fun s : Context τ V × List (SlotId × Bool) => s.1.wiring)
    wiring_markVisit ..

theorem wiring_clearFrontier (c : Context τ V) : (c.clearFrontier roots).1.wiring = c.wiring :=
  run_keeps (f := fun s : Context τ V × List (SlotId × Bool) => s.1.wiring)
    wiring_clearVisit ..

theorem wiring_clearSlotsNow (c : Context τ V) : (c.clearSlotsNow roots).wiring = c.wiring :=
  (wiring_scheduleEffects ..).trans (wiring_clearFrontier ..)

end

theorem wiring_walkBatched (c : Context τ V) : c.walkBatched.wiring = c.wiring := by
  unfold walkBatched
  simp only
  rw [wiring_scheduleEffects, wiring_clearFrontier, wiring_clearFrontier, wiring_markFrontier]
  rfl

theorem wiring_mapDependents {f : List SlotId → List SlotId} (hf : Readable c x ∨ f [] = []) :
    (c.modifyNode x (·.mapDependents f)).wiring = { c.wiring with
      dependents := fun i => if i = x then f (c.dependentsOf i) else c.dependentsOf i } := by
  have hdeps : (c.modifyNode x (·.mapDependents f)).dependenciesOf = c.dependenciesOf :=
    funext (dependenciesOf_mapDependents x f)
  have hdependents := funext (dependentsOf_mapDependents hf)
  have halive := alive_congr (relists_modifyNode (fun n => .mapDependents n f) c x).kindOf
  simp only [wiring, hdeps, hdependents, halive]
  rfl

/-- The dependent list is off its node during the walk, and back on it afterwards. -/
theorem wiring_invalidateDependentsNow (c : Context τ V) (x : SlotId) :
    (c.invalidateDependentsNow x).2.wiring = c.wiring := by
  unfold invalidateDependentsNow
  simp only
  split
  · rfl
  · rename_i hroots
    obtain ⟨y, hy⟩ := List.exists_mem_of_ne_nil _ hroots
    obtain ⟨c1, hc1⟩ : ∃ c1, c1 = c.modifyNode x (·.mapDependents fun _ => []) := ⟨_, rfl⟩
    obtain ⟨c2, hc2⟩ : ∃ c2, c2 = (c1.markFrontier (c.dependentsOf x)).1 := ⟨_, rfl⟩
    have hw1 : c1.wiring = { c.wiring with
        dependents := fun i => if i = x then [] else c.dependentsOf i } :=
      hc1 ▸ wiring_mapDependents (.inr rfl)
    have hw2 : c2.wiring = c1.wiring := hc2 ▸ wiring_markFrontier ..
    have hx2 : Readable c2 x := by
      have hkind : c2.kindOf = c.kindOf := by
        rw [hc2, (sameKinds_markFrontier ..).kind, hc1,
          (relists_modifyNode (fun n => .mapDependents n _) c x).kindOf]
      rw [readable_iff_kindOf, hkind, ← readable_iff_kindOf]
      exact readable_of_mem hy
    have hdependents : c2.dependentsOf = fun i => if i = x then [] else c.dependentsOf i :=
      congrArg Wiring.dependents (hw2.trans hw1)
    rw [wiring_scheduleEffects, ← hc1, ← hc2, wiring_mapDependents (.inl hx2), hw2, hw1]
    have hback : (fun i => if i = x then c.dependentsOf x else c2.dependentsOf i) =
        c.dependentsOf := by
      funext i
      by_cases hi : i = x
      · simp [hi]
      · simp [hi, hdependents]
    simp only [hback]
    rfl

theorem wiring_notifySlotValueChanged (c : Context τ V) (x : SlotId) :
    (c.notifySlotValueChanged x).wiring = c.wiring := by
  unfold notifySlotValueChanged
  split
  · rfl
  · exact wiring_invalidateDependentsNow c x

end Keeps

/-! ## Disposals -/

section Disposals

variable {c c' : Context τ V} {x : SlotId}

theorem dependentsOf_removeDependencyEdges (y i : SlotId) (l : List SlotId) (c : Context τ V) :
    (c.removeDependencyEdges y l).dependentsOf i = c.dependentsOf i :=
  foldl_invariant (I := fun c' : Context τ V => c'.dependentsOf i = c.dependentsOf i) rfl
    fun _ d h => (dependentsOf_mapDependencies d _ i).trans h

/-- The mirror of `dependentsOf_removeDependentEdges`. -/
theorem dependenciesOf_removeDependencyEdges (y i : SlotId) (l : List SlotId) (c : Context τ V)
    (h : (c.dependenciesOf i).Nodup) : ((c.removeDependencyEdges y l).dependenciesOf i).Nodup ∧
      ∀ d, d ∈ (c.removeDependencyEdges y l).dependenciesOf i ↔
        d ∈ c.dependenciesOf i ∧ ¬ (d = y ∧ i ∈ l) :=
  foldl_edgeRemove (·.dependenciesOf i)
    (fun _ _ => dependenciesOf_mapDependencies (.inr rfl) i) l c h

/-- `c'` is `c` without the node at `x` and without the edges it had. -/
structure Excises (x : SlotId) (c c' : Context τ V) : Prop
    extends Relists (c.setNode x none) c' where
  dependencies : ∀ i d, d ∈ c'.dependenciesOf i ↔ d ∈ c.dependenciesOf i ∧ i ≠ x ∧ d ≠ x
  dependents : ∀ i y, y ∈ c'.dependentsOf i ↔ y ∈ c.dependentsOf i ∧ i ≠ x ∧ y ≠ x
  nodupDependencies : ∀ i, (c'.dependenciesOf i).Nodup
  nodupDependents : ∀ i, (c'.dependentsOf i).Nodup

/-- The list of one node: emptied for the node that goes, without that node for the others. `back`
is the list of the node that goes, in the other direction. -/
theorem excised_list {edges left back : List SlotId} (hnodup : edges.Nodup)
    (hback : x ∈ edges → i ∈ back) (h : (if i = x then [] else edges).Nodup → left.Nodup ∧
      ∀ z, z ∈ left ↔ z ∈ (if i = x then [] else edges) ∧ ¬ (z = x ∧ i ∈ back)) :
    left.Nodup ∧ ∀ z, z ∈ left ↔ z ∈ edges ∧ i ≠ x ∧ z ≠ x := by
  by_cases hi : i = x
  · simpa [hi] using h
  · simp only [hi] at h
    refine ⟨(h hnodup).1, fun z => ((h hnodup).2 z).trans ?_⟩
    refine and_congr_right fun hz => ⟨fun hn => ⟨hi, fun hzx => hn ⟨hzx, hback (hzx ▸ hz)⟩⟩, ?_⟩
    exact fun hn hzx => hn.2 hzx.1

/-- Empty a slot and drop its occupant from the lists on both sides. `l` and `m` are the lists the
occupant had. -/
theorem excises_removeEdges (h : Linked c.dependenciesOf c.dependentsOf) {l m : List SlotId}
    (hl : l = c.dependenciesOf x) (hm : m = c.dependentsOf x) : Excises x c
      (((c.setNode x none).removeDependentEdges x l).removeDependencyEdges x m) := by
  obtain ⟨c1, hc1⟩ : ∃ c1, c1 = (c.setNode x none).removeDependentEdges x l := ⟨_, rfl⟩
  have hrel : Relists (c.setNode x none) c1 := hc1 ▸ relists_removeDependentEdges ..
  rw [← hc1]
  have hdeps : ∀ i, c1.dependenciesOf i = if i = x then [] else c.dependenciesOf i := fun i => by
    rw [hc1, dependenciesOf_removeDependentEdges]
    by_cases hi : i = x
    · simp [dependenciesOf, hi]
    · simp [dependenciesOf, setNode_ne _ hi, hi]
  have hdependents : ∀ i, (c.setNode x none).dependentsOf i =
      if i = x then [] else c.dependentsOf i := fun i => by
    by_cases hi : i = x
    · simp [dependentsOf, hi]
    · simp [dependentsOf, setNode_ne _ hi, hi]
  have hdown := fun i => excised_list (h.nodupDependencies i) (hm ▸ (h.edge x i).1)
    (hdeps i ▸ dependenciesOf_removeDependencyEdges x i m c1)
  have hup := fun i => excised_list (h.nodupDependents i) (hl ▸ (h.edge i x).2)
    (hdependents i ▸ dependentsOf_removeDependentEdges x i l (c.setNode x none))
  rw [← hc1] at hup
  refine ⟨hrel.trans (relists_removeDependencyEdges ..), fun i => (hdown i).2, ?_,
    fun i => (hdown i).1, ?_⟩
  · simp only [dependentsOf_removeDependencyEdges]
    exact fun i => (hup i).2
  · simp only [dependentsOf_removeDependencyEdges]
    exact fun i => (hup i).1

theorem Excises.cut {c1 : Context τ V} (h : Excises x c c1)
    (hw : c'.wiring = (c1.retireId x).wiring) : Cut x c.wiring c'.wiring := by
  have halive : ∀ i, c1.alive i = true ↔ c.alive i = true ∧ i ≠ x := fun i => by
    rw [alive_congr h.kindOf]
    by_cases hi : i = x
    · simp [alive, hi]
    · simp [alive, setNode_ne _ hi, hi]
  rw [hw]
  refine ⟨?_, ?_, halive, h.dependencies, h.dependents, h.nodupDependencies, h.nodupDependents⟩
  · show c1.nextId = c.nextId
    rw [h.frame]
    rfl
  · show x :: c1.freeIds = x :: c.freeIds
    rw [h.frame]
    rfl

theorem cut_tearDown (hw : Wired c.wiring) (hn : c.nodes x = some n) :
    Cut x c.wiring (c.tearDown x n).wiring := by
  refine (excises_removeEdges hw.toLinked (l := n.dependencies) (m := n.dependents)
    (by simp [dependenciesOf, hn]) (by simp [dependentsOf, hn])).cut ?_
  have hmark : ∀ (d : Context τ V) (l : List SlotId),
      (d.invalidateDisposedDependents l).wiring = d.wiring := fun d l => by
    unfold invalidateDisposedDependents
    split
    · rfl
    · exact wiring_markFrontier l d
  have hretire : ∀ d d' : Context τ V, d.wiring = d'.wiring →
      (d.retireId x).wiring = (d'.retireId x).wiring := fun d d' h => by
    have hfree : d.freeIds = d'.freeIds := congrArg Wiring.freeIds h
    have hall : ({ d.wiring with freeIds := x :: d.freeIds } : Wiring) =
        { d'.wiring with freeIds := x :: d'.freeIds } := by rw [h, hfree]
    exact hall
  exact hretire _ _ (hmark _ _)

theorem wiring_runCleanup (c : Context τ V) (cleanup : Option Nat) :
    (c.runCleanup cleanup).wiring = c.wiring := by
  cases cleanup <;> rfl

/-- A disposal cuts nodes out one after the other: none, the node, or its puller and the node. -/
inductive Cuts : Wiring → Wiring → Prop
  | refl (w : Wiring) : Cuts w w
  | cut {x : SlotId} {w w₁ w₂ : Wiring} : w.alive x = true → Cut x w w₁ → Cuts w₁ w₂ → Cuts w w₂

theorem Cuts.trans {w1 w2 : Wiring} (h : Cuts w w1) (h' : Cuts w1 w2) : Cuts w w2 := by
  induction h with
  | refl => exact h'
  | cut hx hc _ ih => exact .cut hx hc (ih h')

theorem Cuts.wired {w' : Wiring} (h : Cuts w w') (hw : Wired w) : Wired w' := by
  induction h with
  | refl => exact hw
  | cut hx hc _ ih => exact ih (hc.wired hw hx)

variable (hw : Wired c.wiring)
include hw

theorem cuts_tearDown (hn : c.nodes x = some n) : Cuts c.wiring (c.tearDown x n).wiring :=
  .cut (by simp [wiring, alive, hn]) (cut_tearDown hw hn) (.refl _)

theorem cuts_disposeEffect (h : Effect) : Cuts c.wiring (c.disposeEffect h).wiring := by
  unfold disposeEffect
  split
  · split
    · rename_i e he
      have hn : (c.descheduleEffect h.id).nodes h.id = some (.effect e) := he
      have hex := excises_removeEdges (c := c.descheduleEffect h.id) (x := h.id)
        (l := e.dependencies) (m := []) hw.toLinked
        (by simp [dependenciesOf, hn, Node.dependencies])
        (by simp [dependentsOf, hn, Node.dependents])
      refine .cut (x := h.id) (by simp [wiring, alive, he]) ?_ (.refl _)
      rw [wiring_runCleanup]
      exact hex.cut rfl
    · exact .refl _
  · exact .refl _

theorem cuts_makeLazy (x : SlotId) : Cuts c.wiring (c.makeLazy x).wiring := by
  unfold makeLazy
  split
  · rename_i s hs
    split
    · have hset : (c.setNode x (some (.computed { s with eager := false }))).wiring = c.wiring :=
        wiring_setNode hs rfl rfl
      simp only
      split
      · have := cuts_disposeEffect (c := { c.setNode x (some (.computed { s with eager := false }))
          with eagerBy := fun i => if i = x then none else c.eagerBy i }) (hset ▸ hw)
        rw [← hset]
        exact this _
      · rw [← hset]
        exact .refl _
    · exact .refl _
  · exact .refl _

theorem cuts_disposeSlot (h : Computed τ) : Cuts c.wiring (c.disposeSlot h).wiring := by
  unfold disposeSlot
  split
  · have hlazy := cuts_makeLazy hw h.id
    refine hlazy.trans ?_
    unfold takeSlot
    split
    · split
      · rename_i s hs
        exact cuts_tearDown (hlazy.wired hw) hs
      · exact .refl _
    · exact .refl _
  · exact .refl _

theorem cuts_disposeCell (h : Source τ) : Cuts c.wiring (c.disposeCell h).wiring := by
  unfold disposeCell
  split
  · split
    · rename_i s hs
      exact cuts_tearDown hw hs
    · exact .refl _
  · exact .refl _

end Disposals

/-! ## Reruns, reads and new nodes -/

section Rewiring

variable {c : Context τ V} {x d : SlotId}

theorem alive_detach (x : SlotId) : (c.detach x).alive = c.alive :=
  alive_congr (detach_rewires c x).kindOf

/-- The same slots and ids, other edges. -/
theorem Wired.rewire {c c' : Context τ V} (hw : Wired c.wiring) (h : Relists c c')
    (hlinked : Linked c'.dependenciesOf c'.dependentsOf)
    (hsource : ∀ d x, d ∈ c'.dependenciesOf x → c.alive x = true)
    (htarget : ∀ d x, x ∈ c'.dependentsOf d → c.alive d = true) : Wired c'.wiring := by
  have hnext : c'.nextId = c.nextId := by rw [h.frame]
  have hfree : c'.freeIds = c.freeIds := by rw [h.frame]
  refine ⟨hlinked, ?_, ?_, ?_, ?_, ?_⟩ <;> simp only [wiring, hnext, hfree, alive_congr h.kindOf]
  · exact hw.live
  · exact hw.free
  · exact hw.nodupFree
  · exact hsource
  · exact htarget

theorem Wired.detach (hw : Wired c.wiring) (x : SlotId) : Wired (c.detach x).wiring := by
  refine hw.rewire (detach_rewires c x).toRelists (hw.toLinked.detach x) (fun d y hd => ?_)
    fun d y hy => hw.target d y (((detach_dependents hw.toLinked x d).2 y).1 hy).1
  rw [dependenciesOf_detach] at hd
  split at hd
  · cases hd
  · exact hw.source d y hd

theorem alive_registerDependency (d x : SlotId) : (c.registerDependency d x).alive = c.alive :=
  alive_congr (registerDependency_rewires c d x).kindOf

theorem Wired.registerDependency (hw : Wired c.wiring) (hdx : d ≠ x) (hd : Readable c d)
    (hx : Reader c x) : Wired (c.registerDependency d x).wiring := by
  refine hw.rewire (registerDependency_rewires c d x).toRelists
    (hw.toLinked.registerDependency hdx hd hx) (fun d' y hd' => ?_) fun d' y hy => ?_
  · by_cases hy : y = x
    · rcases hx with ⟨s, hs⟩ | ⟨e, he⟩
      · simp [alive, hy, hs]
      · simp [alive, hy, he]
    · rw [dependenciesOf_registerDependency hdx hx, if_neg hy] at hd'
      exact hw.source d' y hd'
  · by_cases hdd : d' = d
    · rcases hd with ⟨s, hs⟩ | ⟨s, hs⟩ <;> simp [alive, hdd, hs]
    · rw [dependentsOf_registerDependency hdx hd, if_neg hdd] at hy
      exact hw.target d' y hy

end Rewiring

end Context

end Lazily
