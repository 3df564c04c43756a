import Lazily.Context.Proof.Run
import Lazily.Context.Proof.Teardown

/-!
# Disposal keeps the cache invariant

A node that goes takes its edges with it (`Excises`); the readers it had no longer have a record of
all their reads, and are forced to recompute by the walk that follows. Disposal schedules no effect,
so of the effect invariant nothing is left for the effects downstream: `Steady` is kept with every
effect left out (`Standing`), by every operation of the push engine (`step_standing`).
-/

namespace Lazily

open Lib List

variable {τ V : Type}

/-- The change guard of the cell tells any two values apart. -/
def Op.Faithful : Op τ V → Prop
  | .computedRippleWhen _ changed _ => ∀ old new, changed old new = false → old = new
  | _ => True

namespace Context

/-! ## A node goes -/

variable {n : Option (Node τ V)} {i : SlotId}

section Excises

variable {D D' : SlotId → Prop} {c c' : Context τ V} {x : SlotId} {s' : ComputedNode τ V}

variable (h : Excises x c c')
include h

theorem Excises.gone : c'.nodes x = none := (setNode_same c x none ▸ h.relisted x).to_none

theorem Excises.other (hi : i ≠ x) : Relisted (c.nodes i) (c'.nodes i) :=
  setNode_ne c hi none ▸ h.relisted i

theorem Excises.none (hn : c.nodes i = none) : c'.nodes i = none := by
  by_cases hi : i = x
  · rw [hi]
    exact h.gone
  · exact (hn ▸ h.other hi).to_none

theorem Excises.of_computed
    (hs' : c'.nodes i = some (.computed s')) : i ≠ x ∧ ∃ s, c.nodes i = some (.computed s) ∧
      s' = { s with dependents := s'.dependents, dependencies := s'.dependencies } := by
  have hi : i ≠ x := fun hi => by rw [hi, h.gone] at hs'; cases hs'
  exact ⟨hi, (hs' ▸ h.other hi).of_computed⟩

theorem Excises.valueAt (hi : i ≠ x) : c'.valueAt i = c.valueAt i := (h.other hi).value

/-- A cell that stands still does: it only has fewer cells to stand on. -/
theorem Excises.grounded (hg : Grounded c i) (hi : i ≠ x) : Grounded c' i := by
  induction hg with
  | source hs =>
    obtain ⟨l, hl⟩ := (hs ▸ h.other hi).to_source
    exact .source hl
  | @computed i s hs hu _ ih =>
    obtain ⟨l, m, hm⟩ := (hs ▸ h.other hi).to_computed
    refine .computed hm (by rw [h.upToDate]; exact hu) fun d hd => ?_
    have hdep := (h.dependencies i d).1 (by rw [dependenciesOf_computed hm]; exact hd)
    rw [dependenciesOf_computed hs] at hdep
    exact ih d hdep.1 hdep.2.2

omit h in
theorem Shaped.excises (hc : Shaped c) (h : Excises x c c') : Shaped c' := by
  refine hc.carry
    (hc.toLinked.cut h.dependencies h.dependents h.nodupDependencies h.nodupDependents)
    (fun i hi => h.none (hc.live i (by rw [h.frame] at hi; exact hi))) (by rw [h.frame]; rfl)
    (fun i s' hs' => ?_) fun i s' hs' hu => ?_
  · obtain ⟨-, s, hs, hsame⟩ := h.of_computed hs'
    exact ⟨s, hs, by rw [hsame], by rw [hsame]⟩
  · obtain ⟨hi, s, hs, hsame⟩ := h.of_computed hs'
    rw [h.upToDate] at hu
    exact h.grounded (hc.grounded i s hs (by rw [hsame] at hu; exact hu)) hi

/-- Who did not read the node that goes has its reads on record. -/
theorem Excises.reads (hc : Coherent D c) (hD : ∀ i, i ≠ x → D i → D' i)
    {y : SlotId} {v : V} (hy : y ∉ c.dependentsOf x)
    (hs' : c'.nodes y = some (.computed s')) (ht : c'.trusted s' = true)
    (hv : s'.value = some v) : ReadsHold c' D' s' v := by
  obtain ⟨hyx, s, hs, hsame⟩ := h.of_computed hs'
  obtain ⟨l, hpath, hl⟩ := hc.reads y s v hs (by rw [h.trusted, hsame] at ht; exact ht)
    (by rw [hsame] at hv; exact hv)
  refine ⟨l, by rw [hsame]; exact hpath, fun p hp => ?_⟩
  obtain ⟨hdep, hread⟩ := hl p hp
  have hpx : p.1.id ≠ x := fun hpx => hy (by
    rw [← hc.edge, dependenciesOf_computed hs, ← hpx]
    exact hdep)
  refine ⟨?_, by rw [h.valueAt hpx]; exact hread.imp_right (hD _ hpx)⟩
  rw [← dependenciesOf_computed hs', h.dependencies, dependenciesOf_computed hs]
  exact ⟨hdep, hyx, hpx⟩

end Excises

/-! ## What is left of the others -/

/-- What the disposal of another node leaves of a node. -/
abbrev Carried : Option (Node τ V) → Option (Node τ V) → Prop :=
  Alike fun e e' => e'.observed = e.observed ∧ e'.dependencies ⊆ e.dependencies

section Carried

variable {c c' : Context τ V} {x : SlotId}

theorem Excises.carried (h : Excises x c c') (hi : i ≠ x) : Carried (c.nodes i) (c'.nodes i) := by
  refine (h.other hi).alike fun e m he hm => ⟨rfl, fun d hd => ?_⟩
  have hdep := (h.dependencies i d).1 (by rw [dependenciesOf_effect hm]; exact hd)
  rw [dependenciesOf_effect he] at hdep
  exact hdep.1

/-- The node at `x` has been disposed of, and its id is free. -/
structure Disposed (x : SlotId) (c c' : Context τ V) : Prop where
  frame : c' = { c with
    nodes := c'.nodes
    generations := c'.generations
    freeIds := x :: c.freeIds
    scheduledEffects := c'.scheduledEffects }
  gone : c'.nodes x = none
  carried : ∀ i, i ≠ x → Carried (c.nodes i) (c'.nodes i)
  scheduled : ∀ i, c'.scheduledEffects i = true → i ≠ x ∧ c.scheduledEffects i = true

variable (h : Disposed x c c')
include h

theorem Tidy.disposed (ht : Tidy c) (hc : Shaped c) (hx : c.nodes x ≠ none) : Tidy c' where
  nodup := by
    rw [h.frame]
    exact nodup_cons.2 ⟨fun hmem => hx (ht.vacant x hmem).2, ht.nodup⟩
  vacant i hi := by
    have hnext : c'.nextId = c.nextId := by rw [h.frame]
    rw [h.frame] at hi
    rw [hnext]
    rcases mem_cons.1 hi with rfl | hi
    · refine ⟨?_, h.gone⟩
      by_contra hle
      exact hx (hc.live i (Nat.le_of_not_lt hle))
    · obtain ⟨hlt, hn⟩ := ht.vacant i hi
      have hix : i ≠ x := fun hix => hx (hix ▸ hn)
      exact ⟨hlt, (hn ▸ h.carried i hix).to_none⟩
  released i s' hs' := by
    have hix : i ≠ x := fun hix => by rw [hix, h.gone] at hs'; cases hs'
    obtain ⟨s, hs, hp⟩ := (hs' ▸ h.carried i hix).of_computed
    exact hp.trans (ht.released i s hs)

theorem Disposed.of_effect {e' : EffectNode τ V}
    (he' : c'.nodes i = some (.effect e')) : ∃ e, c.nodes i = some (.effect e) ∧
      e'.observed = e.observed ∧ e'.dependencies ⊆ e.dependencies := by
  have hix : i ≠ x := fun hix => by rw [hix, h.gone] at he'; cases he'
  exact (he' ▸ h.carried i hix).of_effect

theorem Disposed.pendingWrites (hi : i ≠ x) (hp : pendingWrites c i) :
    Context.pendingWrites c' i := by
  obtain ⟨hdepth, hmem, hs⟩ := hp
  exact ⟨by rw [h.frame]; exact hdepth, by rw [h.frame]; exact hmem,
    (h.carried i hi).source_iff.2 hs⟩

/-- What every operation of the push engine keeps, disposals included: `Steady`, with every effect
left out. -/
structure Standing (c : Context τ V) : Prop
    extends Steady (fun _ => True) (fun _ _ => True) c where
  push : c.revisionMode = false

omit h in
theorem new_standing : Standing (newImpl false : Context τ V) :=
  ⟨newImpl_steady false (fun h => nomatch h), rfl⟩

/-- The cache invariant is all there is to show. -/
theorem Standing.disposed (hs : Standing c) (hx : c.nodes x ≠ none)
    (hc : Coherent (pendingWrites c') c') : Standing c' where
  sound :=
    { coherent := hc
      tidy := hs.sound.tidy.disposed h hs.sound.coherent.toShaped hx
      listed := fun i e' he' => by
        obtain ⟨e, he, -⟩ := h.of_effect he'
        rw [h.frame]
        exact hs.sound.listed i e he
      queued := fun i hi => by
        obtain ⟨hix, hsched⟩ := h.scheduled i hi
        obtain ⟨hmem, e, he⟩ := hs.sound.queued i hsched
        obtain ⟨e', he', -⟩ := (he ▸ h.carried i hix).to_effect
        exact ⟨by rw [h.frame]; exact hmem, e', he'⟩
      noWrites := fun hm => hs.sound.noWrites (by rw [h.frame] at hm; exact hm)
      allowed := fun _ _ _ => trivial
      watched := fun _ _ _ _ hi => absurd trivial hi }
  idle := by
    rw [h.frame]
    exact hs.idle
  unbatched hz := by
    rw [h.frame] at hz ⊢
    exact hs.unbatched hz
  logged i e' he' d hd := by
    obtain ⟨e, he, hobs, hdeps⟩ := h.of_effect he'
    rw [hobs]
    exact hs.logged i e he d (hdeps hd)
  push := by
    rw [h.frame]
    exact hs.push

end Carried

/-! ## The disposals -/

section Disposals

variable {R : EffectFn τ V → Prop} {D : SlotId → Prop} {c c' : Context τ V} {x : SlotId}

theorem invalidateDisposedDependents_eq (c : Context τ V) (l : List SlotId) :
    c.invalidateDisposedDependents l = (c.markFrontier l).1 := by
  unfold invalidateDisposedDependents
  split
  · rename_i hl
    subst hl
    unfold markFrontier rootStack
    cases ([] : List SlotId).length + 2 * c.edgeCount <;> rfl
  · rfl

variable (hs : Standing c)
include hs

/-- The teardown of a cell. -/
theorem Standing.tearDown {n : Node τ V} (hn : c.nodes x = some n)
    (hcell : ∀ e, n ≠ .effect e) : Standing (c.tearDown x n) := by
  obtain ⟨c1, hc1⟩ : ∃ c1, c1 = ((c.setNode x none).removeDependentEdges x
    n.dependencies).removeDependencyEdges x n.dependents := ⟨_, rfl⟩
  obtain ⟨c2, hc2⟩ : ∃ c2, c2 = (c1.markFrontier n.dependents).1 := ⟨_, rfl⟩
  have htear : c.tearDown x n = c2.retireId x := by
    rw [hc2, hc1, ← invalidateDisposedDependents_eq]
    rfl
  have hex : Excises x c c1 := hc1 ▸ excises_removeEdges hs.sound.coherent.toLinked
    (by simp [dependenciesOf, hn]) (by simp [dependentsOf, hn])
  have hshape := hs.sound.coherent.toShaped.excises hex
  have hmode1 : c1.revisionMode = false := by rw [hex.frame]; exact hs.push
  have hinv : Invalidates c1 c2 (c1.markFrontier n.dependents).2 n.dependents :=
    hc2 ▸ markFrontier_invalidates hshape.live hmode1 n.dependents
  have hframe : c2 = { c with nodes := c2.nodes } := by
    rw [hinv.frame, hex.frame]
    rfl
  have hdis : Disposed x c (c2.retireId x) := by
    refine ⟨by rw [hframe]; rfl, (hex.gone ▸ hinv.weaker x).of_none,
      fun i hi => (hex.carried hi).trans (fun h1 h2 =>
        ⟨h2.1.trans h1.1, List.Subset.trans h2.2 h1.2⟩)
        ((hinv.weaker i).alike fun _ => ⟨rfl, fun _ => id⟩), fun i hi => ?_⟩
    have hi' : c.scheduledEffects i = true := by rw [hframe] at hi; exact hi
    refine ⟨fun hix => ?_, hi'⟩
    obtain ⟨-, e, he⟩ := hs.sound.queued i hi'
    rw [hix, hn] at he
    exact hcell e (Option.some.inj he)
  have hc : Coherent (pendingWrites (c2.retireId x)) c2 := by
    refine hshape.invalidates_coherent (E := fun _ => False) hinv (fun y s v hy hs' ht hv => ?_)
      fun d hd => hd.elim
    refine hex.reads hs.sound.coherent (fun i hi hp => .inl (hdis.pendingWrites hi hp)) ?_ hs' ht hv
    rw [dependentsOf, hn]
    exact hy
  rw [htear]
  exact hs.disposed hdis (by simp [hn]) (hc.sameCells (sameCells_of_nodes rfl rfl rfl rfl))

theorem Standing.disposeEffect (k : Effect) : Standing (c.disposeEffect k) := by
  unfold Context.disposeEffect
  split
  · split
    · rename_i e he
      obtain ⟨c0, hc0⟩ : ∃ c0, c0 = c.descheduleEffect k.id := ⟨_, rfl⟩
      obtain ⟨c1, hc1⟩ : ∃ c1, c1 = (c0.setNode k.id none).removeDependentEdges k.id
        e.dependencies := ⟨_, rfl⟩
      have hsame : SameCells c c0 := hc0 ▸ sameCells_of_nodes rfl rfl rfl rfl
      have hcoh : Coherent (pendingWrites c) c0 := hs.sound.coherent.sameCells hsame
      have he0 : c0.nodes k.id = some (.effect e) := hc0 ▸ he
      have hex : Excises k.id c0 c1 := hc1 ▸ excises_removeEdges hcoh.toLinked (m := [])
        (by simp [dependenciesOf, he0, Node.dependencies])
        (by simp [dependentsOf, he0, Node.dependents])
      have hframe : c1 = { c with
          nodes := c1.nodes, scheduledEffects := c0.scheduledEffects } := by
        rw [hex.frame, hc0]
        rfl
      have hdis : Disposed k.id c (c1.retireId k.id) := by
        refine ⟨by rw [hframe]; rfl, hex.gone, fun i hi => ?_, fun i hi => ?_⟩
        · have := hex.carried hi
          rwa [hc0] at this
        · have hi' : c0.scheduledEffects i = true := by
            rw [hframe] at hi
            exact hi
          rw [hc0] at hi'
          by_cases hik : i = k.id
          · simp [descheduleEffect, hik] at hi'
          · exact ⟨hik, by simpa [descheduleEffect, hik] using hi'⟩
      have hc : Coherent (pendingWrites (c1.retireId k.id)) c1 := by
        refine ⟨hcoh.toShaped.excises hex, fun y s v hs' ht hv => ?_⟩
        refine hex.reads hcoh (fun i hi hp => hdis.pendingWrites hi hp) ?_ hs' ht hv
        simp [dependentsOf, he0, Node.dependents]
      have hdone : Standing (c1.retireId k.id) :=
        hs.disposed hdis (by simp [he]) (hc.sameCells (sameCells_of_nodes rfl rfl rfl rfl))
      have hlog : Standing ((c1.retireId k.id).runCleanup e.cleanup) := by
        cases e.cleanup with
        | none => exact hdone
        | some token =>
          exact ⟨⟨hdone.sound.congr (fun _ hi => hi) rfl, hdone.idle,
            hdone.unbatched, hdone.logged⟩, hdone.push⟩
      rw [hc1, hc0] at hlog
      exact hlog
    · exact hs
  · exact hs

theorem Standing.setEager {s : ComputedNode τ V}
    (hn : c.nodes x = some (.computed s)) (eager : Bool) :
    Standing (c.setNode x (some (.computed { s with eager := eager }))) := by
  have hstirs :
      Stirs (fun _ => False) c (c.setNode x (some (.computed { s with eager := eager }))) :=
    stirs_setNode hn (.computed rfl)
  have hc := hs.sound.coherent
  have hcoh : Coherent (pendingWrites c)
      (c.setNode x (some (.computed { s with eager := eager }))) := by
    refine hc.setSlot hn rfl rfl rfl (hc.verified x s hn) (fun hu => hu) (fun hu => ?_)
      (fun _ h => h) (fun v hv => .inl hv) fun v ht hv => ?_
    · have hg := hc.grounded x s hn hu
      exact fun d hd => hg.dependencies (by rw [dependenciesOf_computed hn]; exact hd)
    · obtain ⟨l, hpath, hl⟩ := hc.reads x s v hn ht hv
      refine ⟨l, hpath, fun p hp => ⟨(hl p hp).1, ?_⟩⟩
      rw [show (c.setNode x (some (.computed { s with eager := eager }))).valueAt = c.valueAt from
        valueAt_setNode hn rfl]
      exact (hl p hp).2
  exact ⟨⟨⟨hs.sound.toRegular.stirs hstirs, hstirs.pendingWrites ▸ hcoh,
    fun _ _ _ _ hi => absurd trivial hi⟩, hs.idle, hs.unbatched,
    fun i => hstirs.toFrame.moves.logged (hs.logged i)⟩, hs.push⟩

theorem Standing.setEagerBy (eagerBy : SlotId → Option Effect) :
    Standing { c with eagerBy := eagerBy } :=
  ⟨⟨hs.sound.congr (fun _ hi => hi) rfl, hs.idle, hs.unbatched, hs.logged⟩, hs.push⟩

theorem Standing.makeLazy (x : SlotId) : Standing (c.makeLazy x) := by
  unfold Context.makeLazy
  split
  · rename_i s hn
    split
    · have hset := (hs.setEager hn false).setEagerBy fun i => if i = x then none else c.eagerBy i
      simp only
      split
      · exact hset.disposeEffect _
      · exact hset
    · exact hs
  · exact hs

theorem Standing.disposeSlot (k : Computed τ) : Standing (c.disposeSlot k) := by
  unfold Context.disposeSlot
  split
  · have hlazy := hs.makeLazy k.id
    unfold takeSlot
    split
    · split
      · rename_i s hn
        exact hlazy.tearDown hn (by simp)
      · exact hlazy
    · exact hlazy
  · exact hs

theorem Standing.disposeCell (k : Source τ) : Standing (c.disposeCell k) := by
  unfold Context.disposeCell
  split
  · split
    · rename_i s hn
      exact hs.tearDown hn (by simp)
    · exact hs
  · exact hs

theorem Standing.disposeIdGeneration (id : SlotId) (generation : Nat) (tag : τ) :
    Standing (c.disposeIdGeneration id generation tag) := by
  unfold Context.disposeIdGeneration
  split
  · exact hs.disposeSlot _
  · exact hs.disposeCell _
  · exact hs.disposeEffect _
  · exact hs

end Disposals

/-! ## Every operation of the push engine -/

section Any

variable {c c' : Context τ V} [DecidableEq τ] [BEq V] [LawfulBEq V]

theorem makeEager_standing {x : SlotId} {tag : τ} (h : Standing c)
    (hrun : makeEager flushEffects x tag c = .ok () c') : Standing c' := by
  have : EffectFn.Closed (fun _ : EffectFn τ V => True) := .any
  unfold makeEager at hrun
  split at hrun
  · split at hrun
    · cases hrun
      exact h
    · split at hrun
      · rename_i effect c1 hnew
        cases hrun
        have hk := newEffect_keeps flushEffects_spec h.sound trivial hnew
        have hs : Standing c1 := ⟨h.toSteady.keeps hk, hk.frame.revisionMode.trans h.push⟩
        refine Standing.setEagerBy ?_ _
        unfold modifyComputed
        split
        · rename_i s hn
          exact hs.setEager hn true
        · exact hs
      · cases hrun
  · cases hrun
    exact h

theorem step_standing {op : Op τ V} {reply : Reply τ V} (h : Standing c) (hf : op.Faithful)
    (hrun : step op c = .ok reply c') : Standing c' := by
  have : EffectFn.Closed (fun _ : EffectFn τ V => True) := .any
  have plain : op.Plain → op.Within (fun _ => True) → Standing c' := fun hplain hR => by
    obtain ⟨hs, hmode, -⟩ := step_steady h.toSteady hplain hR
      (fun hm => by rw [h.push] at hm; cases hm) hrun
    exact ⟨hs, hmode.trans h.push⟩
  cases op with
  | computedRippleWhen compute changed tag =>
    obtain ⟨k, hrun, -⟩ := Unwind.map_eq_ok.1 hrun
    obtain ⟨⟨s, hc'⟩, hs, hframe⟩ := slotWithEquals_spec h.sound
      (fun f hguard old new heq => by cases hguard; exact hf old new (by simpa using heq)) hrun
    have hk : Keeps (fun _ => True) (fun _ _ => True) flushEffects c c' :=
      .unflushed hs hframe (by rw [hc']; rfl)
    exact ⟨h.toSteady.keeps hk, hframe.revisionMode.trans h.push⟩
  | eager k =>
    obtain ⟨_, hrun, -⟩ := Unwind.map_eq_ok.1 hrun
    exact makeEager_standing h hrun
  | lazy k =>
    cases hrun
    exact h.makeLazy k.id
  | disposeCell k =>
    cases hrun
    exact h.disposeCell k
  | disposeSlot k =>
    cases hrun
    exact h.disposeSlot k
  | disposeEffect k =>
    cases hrun
    exact h.disposeEffect k
  | dispose k =>
    cases hrun
    exact h.disposeIdGeneration k.id k.generation k.tag
  | clearDrainExhaustion =>
    cases hrun
    refine ⟨⟨?_, h.idle, h.unbatched, h.logged⟩, h.push⟩
    exact ⟨h.sound.toRegular.congr rfl rfl rfl rfl rfl (h.sound.queued.congr rfl rfl rfl),
      h.sound.coherent.sameCells (sameCells_of_nodes rfl rfl rfl rfl),
      fun _ _ _ _ hi => absurd trivial hi⟩
  | _ => exact plain trivial trivial

theorem run_standing : ∀ {ops : List (Op τ V)} {c c' : Context τ V} {replies : List (Reply τ V)},
    Standing c → (∀ op ∈ ops, op.Faithful) → run ops c = .ok replies c' → Standing c'
  | [], c, c', replies, h, _, hrun => by
    obtain rfl := run_nil_ok hrun
    exact h
  | op :: ops, c, c', replies, h, hf, hrun => by
    obtain ⟨reply, c1, rest, hstep, hrest⟩ := run_cons_ok hrun
    exact run_standing (step_standing h (hf op mem_cons_self) hstep)
      (fun o ho => hf o (mem_cons_of_mem _ ho)) hrest

end Any

end Context

end Lazily
