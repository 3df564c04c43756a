import Lazily.Context.Queue
import Lazily.Context.Session

/-!
# The two edge tables

`Session.EdgesExact`: `n` is listed once among the dependents of `d` iff `d` is listed once among
the dependencies of `n`, edges run between live nodes, and `dependent_count` is the number of live
nodes whose latest run read the node.

`register_dependency` fills the two tables independently: it skips a side whose node is gone and
still fills the other one. So the property holds along every sequence of sections in which a tracked
read is made by a run whose own node is still in its slot, of a live cell (`run_edgesExact`). A
detached evaluation breaks it with its first read (`detached_read_leaves_edge`).
-/

namespace Lazily

open Lib Context Function List Nat

variable {τ V : Type}

namespace Context

variable {c : Context τ V} {id : SlotId}

theorem readable_of_isCell (h : c.isCell id = true) : Readable c id := by
  unfold isCell at h
  split at h
  · exact .inr ⟨_, ‹_›⟩
  · exact .inl ⟨_, ‹_›⟩
  · cases h

theorem reader_of_isReader (h : c.isReader id = true) : Reader c id := by
  unfold isReader at h
  split at h
  · exact .inl ⟨_, ‹_›⟩
  · exact .inr ⟨_, ‹_›⟩
  · cases h

section New

variable {c : Context τ V} {n : Node τ V}

/-- A new node takes a slot that is free on both sides of every edge. -/
theorem Wired.insert (hw : Wired c.wiring) (hdeps : n.dependencies = [])
    (hdependents : n.dependents = []) :
    Wired (c.allocId.2.setNode c.allocId.1 (some n)).wiring ∧ c.alive c.allocId.1 = false ∧
      (∀ i, (c.allocId.2.setNode c.allocId.1 (some n)).alive i = true ↔
        c.alive i = true ∨ i = c.allocId.1) ∧
      (c.allocId.2.setNode c.allocId.1 (some n)).dependenciesOf = c.dependenciesOf := by
  -- the slot is free, the rest of the supply stays free
  have halloc : c.alive c.allocId.1 = false ∧ c.allocId.2.nodes = c.nodes ∧
      c.allocId.1 < c.allocId.2.nextId ∧ c.nextId ≤ c.allocId.2.nextId ∧
      c.allocId.1 ∉ c.allocId.2.freeIds ∧ c.allocId.2.freeIds.Nodup ∧
      c.allocId.2.freeIds ⊆ c.freeIds := by
    unfold allocId
    split
    · rename_i id rest hfree
      have hfree' : c.wiring.freeIds = id :: rest := hfree
      have hnodup := hw.nodupFree
      rw [hfree', nodup_cons] at hnodup
      obtain ⟨hdead, hlt⟩ := hw.free id (hfree' ▸ mem_cons_self)
      exact ⟨hdead, rfl, hlt, le_refl _, hnodup.1, hnodup.2, hfree ▸ subset_cons_self id rest⟩
    · rename_i hfree
      refine ⟨?_, rfl, lt_succ_self _, le_succ _, ?_, ?_, fun i hi => hi⟩
      · by_contra hlive
        rw [Bool.not_eq_false] at hlive
        exact absurd (hw.live c.nextId hlive) (lt_irrefl _)
      · simp [hfree]
      · simp [hfree]
  obtain ⟨hdead, hnodes, hlt, hle, hnot, hnodup, hsub⟩ := halloc
  obtain ⟨c1, hc1⟩ : ∃ c1, c1 = c.allocId.2.setNode c.allocId.1 (some n) := ⟨_, rfl⟩
  rw [← hc1]
  have hnone : c.nodes c.allocId.1 = none := by simpa [alive] using hdead
  have hself : c1.nodes c.allocId.1 = some n := by rw [hc1, setNode_same]
  have hother : ∀ i, i ≠ c.allocId.1 → c1.nodes i = c.nodes i := fun i hi => by
    rw [hc1, setNode_ne _ hi, hnodes]
  have hd : c1.dependenciesOf = c.dependenciesOf := by
    funext i
    by_cases hi : i = c.allocId.1
    · simp [dependenciesOf, hi, hself, hnone, hdeps]
    · simp [dependenciesOf, hother i hi]
  have hr : c1.dependentsOf = c.dependentsOf := by
    funext i
    by_cases hi : i = c.allocId.1
    · simp [dependentsOf, hi, hself, hnone, hdependents]
    · simp [dependentsOf, hother i hi]
  have halive : ∀ i, c1.alive i = true ↔ c.alive i = true ∨ i = c.allocId.1 := fun i => by
    by_cases hi : i = c.allocId.1
    · simp [alive, hi, hself]
    · simp [alive, hother i hi, hi]
  have hnext : c1.nextId = c.allocId.2.nextId := by rw [hc1]; rfl
  have hfree : c1.freeIds = c.allocId.2.freeIds := by rw [hc1]; rfl
  have hlinked : Linked c1.dependenciesOf c1.dependentsOf :=
    hw.toLinked.congr (congrFun hd) (congrFun hr)
  refine ⟨⟨hlinked, fun i hi => ?_, fun i hi => ?_, ?_, fun d x hdx => ?_, fun d x hdx => ?_⟩,
    hdead, halive, hd⟩
  · show i < c1.nextId
    rcases (halive i).1 hi with hi | rfl
    · exact lt_of_lt_of_le (hw.live i hi) (hnext ▸ hle)
    · exact hnext ▸ hlt
  · have hi' : i ∈ c.allocId.2.freeIds := hfree ▸ hi
    have hold := hw.free i (hsub hi')
    have hne : i ≠ c.allocId.1 := fun h => hnot (h ▸ hi')
    refine ⟨?_, ?_⟩
    · show c1.alive i = false
      rw [alive, hother i hne]
      exact hold.1
    · exact lt_of_lt_of_le hold.2 (hle.trans hnext.ge)
  · show c1.freeIds.Nodup
    exact hfree ▸ hnodup
  · have hdx' : d ∈ c.dependenciesOf x := hd ▸ hdx
    exact (halive x).2 (.inl (hw.source d x hdx'))
  · have hdx' : x ∈ c.dependentsOf d := hr ▸ hdx
    exact (halive d).2 (.inl (hw.target d x hdx'))

end New

end Context

namespace Session

variable {s : Session τ V} {c : Context τ V} {id : SlotId}

structure EdgesExact (s : Session τ V) : Prop where
  symmetric : ∀ n d,
    (s.context.dependentsOf d).count n = 1 ↔ (s.context.dependenciesOf n).count d = 1
  simple : ∀ d, (s.context.dependentsOf d).Nodup ∧ (s.context.dependenciesOf d).Nodup
  live : ∀ n d, n ∈ s.context.dependentsOf d ∨ d ∈ s.context.dependenciesOf n →
    s.context.alive n = true ∧ s.context.alive d = true
  counted : ∀ d, s.context.alive d = true → s.context.dependentCount d =
    ((List.range s.context.nextId).filter fun n =>
      s.context.alive n && (s.reads n).contains (d, s.birth d)).length

/-- A tracked read is made through the view of a run whose node is still in its slot, of a live cell
other than that node. -/
def Meets (s : Session τ V) : Section τ V → Prop
  | .register .detached _ => False
  | .register (.node id birth) dependency =>
    s.context.isReader id = true ∧ s.birth id = birth ∧ s.context.isCell dependency = true ∧
      dependency ≠ id
  | _ => True

/-- The wiring is sound, and the forward edges of a node are the live cells its latest run read. -/
structure Inv (s : Session τ V) : Prop where
  wired : Wired s.context.wiring
  born : ∀ i, s.context.alive i = true → s.birth i < s.births
  past : ∀ n, ∀ p ∈ s.reads n, p.2 < s.births
  logged : ∀ n d, d ∈ s.context.dependenciesOf n ↔
    s.context.alive n = true ∧ s.context.alive d = true ∧ (d, s.birth d) ∈ s.reads n

theorem count_eq_one_iff {l : List SlotId} (h : l.Nodup) {a : SlotId} : l.count a = 1 ↔ a ∈ l :=
  ⟨fun hc => count_pos_iff.1 (by omega), count_eq_one_of_mem h⟩

theorem dependentCount_eq (c : Context τ V) (d : SlotId) :
    c.dependentCount d = (c.dependentsOf d).length := by
  unfold dependentCount dependentsOf
  cases hn : c.nodes d with
  | none => rfl
  | some n => cases n <;> rfl

theorem Inv.edgesExact (h : s.Inv) : s.EdgesExact where
  symmetric n d := by
    have hdependents : (s.context.dependentsOf d).Nodup := h.wired.nodupDependents d
    have hdeps : (s.context.dependenciesOf n).Nodup := h.wired.nodupDependencies n
    rw [count_eq_one_iff hdependents, count_eq_one_iff hdeps]
    exact (h.wired.edge d n).symm
  simple d := ⟨h.wired.nodupDependents d, h.wired.nodupDependencies d⟩
  live n d hnd := by
    have hd : d ∈ s.context.dependenciesOf n := hnd.elim (h.wired.edge d n).2 fun hd => hd
    exact ⟨((h.logged n d).1 hd).1, ((h.logged n d).1 hd).2.1⟩
  counted d hd := by
    have hperm : (s.context.dependentsOf d).Perm ((range s.context.nextId).filter fun n =>
        s.context.alive n && (s.reads n).contains (d, s.birth d)) := by
      refine (perm_ext_iff_of_nodup (h.wired.nodupDependents d)
        (nodup_range.filter _)).2 fun n => ?_
      rw [← h.wired.edge, mem_filter, mem_range, Bool.and_eq_true, contains_iff_mem]
      exact (h.logged n d).trans ⟨fun ⟨hn, _, hr⟩ => ⟨h.wired.live n hn, hn, hr⟩,
        fun ⟨_, hn, hr⟩ => ⟨hn, hd, hr⟩⟩
    rw [dependentCount_eq, hperm.length_eq]

/-! ## The sections keep the invariant -/

theorem new_inv : (new : Session τ V).Inv where
  wired :=
    { live := fun _ h => absurd h Bool.false_ne_true
      free := fun _ h => absurd h not_mem_nil
      nodupFree := nodup_nil
      edge := fun _ _ =>
        ⟨fun h => absurd h not_mem_nil, fun h => absurd h not_mem_nil⟩
      nodupDependencies := fun _ => nodup_nil
      nodupDependents := fun _ => nodup_nil
      source := fun _ _ h => absurd h not_mem_nil
      target := fun _ _ h => absurd h not_mem_nil }
  born _ h := absurd h Bool.false_ne_true
  past _ _ h := absurd h not_mem_nil
  logged _ _ := ⟨fun h => absurd h not_mem_nil, fun h => absurd h.2.2 not_mem_nil⟩

theorem wiring_publish (c : Context τ V) (id : SlotId) (result : V) :
    (c.publish id result).wiring = c.wiring := by
  unfold Context.publish
  split
  · rename_i slot hs
    have hstore : (c.storeResult id slot result).2.wiring = c.wiring := wiring_setNode hs rfl rfl
    simp only
    split
    · rw [wiring_notifySlotValueChanged, hstore]
    · exact hstore
  · rfl

theorem wiring_removePendingEffect (c : Context τ V) (id : SlotId) :
    (c.removePendingEffect id).wiring = c.wiring := by
  unfold removePendingEffect
  split <;> rfl

theorem wiring_startRun (c : Context τ V) (id : SlotId) (cleanup : Option Nat) :
    ((c.startRun id).runCleanup cleanup).wiring = (c.detach id).wiring := by
  rw [wiring_runCleanup]
  unfold startRun modifyEffect
  split
  · rename_i e he
    exact wiring_setNode he rfl rfl
  · rfl

/-- What a section that is no tracked read does to the arena: a new node, the start of a run,
nothing, or disposals. -/
inductive Moves (s : Session τ V) : Session τ V → Prop
  | created {c : Context τ V} {n : Node τ V} : n.dependencies = [] → n.dependents = [] →
      c.wiring = (s.context.allocId.2.setNode s.context.allocId.1 (some n)).wiring →
      Moves s (s.created s.context.allocId.1 c)
  | started {c c0 : Context τ V} {id : SlotId} : c0.wiring = s.context.wiring →
      c.wiring = (c0.detach id).wiring → Moves s (s.started id c)
  | same {c : Context τ V} : c.wiring = s.context.wiring → Moves s (s.withContext c)
  | disposed {c : Context τ V} : s.context.roster.Retires c.roster →
      (Wired s.context.wiring → Cuts s.context.wiring c.wiring) → Moves s (s.withContext c)

theorem moves_step (s : Session τ V) {e : Section τ V}
    (he : ∀ view dependency, e ≠ .register view dependency) : Moves s (s.step e) := by
  cases e with
  | source value tag | slot compute equals tag => exact .created rfl rfl rfl
  | effect run => exact .created rfl rfl (wiring_scheduleEffect ..)
  | register view dependency => exact absurd rfl (he view dependency)
  | enterRefresh id => exact .same (wiring_modifyComputed (fun _ => rfl) fun _ => rfl)
  | leaveRefresh view => exact .same (wiring_modifyComputed (fun _ => rfl) fun _ => rfl)
  | clearSlotDirtyFlags id => exact .same (wiring_modifyComputed (fun _ => rfl) fun _ => rfl)
  | beginRecompute id =>
    simp only [Session.step]
    split
    · exact .started rfl rfl
    · exact .same rfl
  | publish view result => exact .same (wiring_publish ..)
  | beginRun id =>
    simp only [Session.step]
    split
    · exact .started (wiring_removePendingEffect ..) (wiring_startRun ..)
    · exact .same rfl
  | finishRun view cleanup =>
    refine .same ?_
    unfold storeCleanup
    split
    · rename_i e he
      exact wiring_setNode he rfl rfl
    · exact wiring_runCleanup ..
  | store id value => exact .same (wiring_modifySource fun _ => rfl)
  | invalidate id => exact .same (wiring_invalidateDependentsNow ..)
  | clear roots => exact .same (wiring_clearSlotsNow ..)
  | walkBatched => exact .same (wiring_walkBatched ..)
  | schedule id force => exact .same (wiring_scheduleEffect ..)
  | setEager id => exact .same (wiring_modifyComputed (fun _ => rfl) fun _ => rfl)
  | makeLazy id => exact .disposed (retires_makeLazy ..) fun hw => cuts_makeLazy hw id
  | disposeCell k => exact .disposed (retires_disposeCell ..) fun hw => cuts_disposeCell hw k
  | disposeSlot k => exact .disposed (retires_disposeSlot ..) fun hw => cuts_disposeSlot hw k
  | disposeEffect k => exact .disposed (retires_disposeEffect ..) fun hw => cuts_disposeEffect hw k
  | bookkeeping c => exact .same rfl

section

variable (h : s.Inv)
include h

theorem Inv.withContext (hc : c.wiring = s.context.wiring) : (s.withContext c).Inv := by
  have halive : c.alive = s.context.alive := congrArg Wiring.alive hc
  have hdeps : c.dependenciesOf = s.context.dependenciesOf := congrArg Wiring.dependencies hc
  refine ⟨hc ▸ h.wired, fun i hi => h.born i (halive ▸ hi), h.past, fun n d => ?_⟩
  show d ∈ c.dependenciesOf n ↔ c.alive n = true ∧ c.alive d = true ∧ _
  rw [hdeps, halive]
  exact h.logged n d

theorem Inv.cuts (hc : Cuts s.context.wiring c.wiring) : (s.withContext c).Inv := by
  have hsub : ∀ {w w' : Wiring}, Cuts w w' → ∀ i, w'.alive i = true → w.alive i = true := by
    intro w w' hcuts
    induction hcuts with
    | refl => exact fun i hi => hi
    | cut _ hcut _ ih => exact fun i hi => ((hcut.alive i).1 (ih i hi)).1
  have hlog : ∀ {w w' : Wiring}, Cuts w w' →
      (∀ n d, d ∈ w.dependencies n ↔
        w.alive n = true ∧ w.alive d = true ∧ (d, s.birth d) ∈ s.reads n) →
      ∀ n d, d ∈ w'.dependencies n ↔
        w'.alive n = true ∧ w'.alive d = true ∧ (d, s.birth d) ∈ s.reads n := by
    intro w w' hcuts
    induction hcuts with
    | refl => exact fun h => h
    | cut _ hcut _ ih =>
      refine fun h => ih fun n d => ?_
      rw [hcut.dependencies, h, hcut.alive, hcut.alive]
      tauto
  exact ⟨hc.wired h.wired, fun i hi => h.born i (hsub hc i hi), h.past, hlog hc h.logged⟩

theorem Inv.created {n : Node τ V} (hdeps : n.dependencies = []) (hdependents : n.dependents = [])
    (hc : c.wiring = (s.context.allocId.2.setNode s.context.allocId.1 (some n)).wiring) :
    (s.created s.context.allocId.1 c).Inv := by
  obtain ⟨hwired, hdead, halive, hd⟩ := h.wired.insert hdeps hdependents
  have halive' : c.alive = (s.context.allocId.2.setNode s.context.allocId.1 (some n)).alive :=
    congrArg Wiring.alive hc
  generalize s.context.allocId.1 = id at *
  have hd' : c.dependenciesOf = s.context.dependenciesOf :=
    (congrArg Wiring.dependencies hc).trans hd
  refine ⟨hc ▸ hwired, fun i hi => ?_, fun m p hp => ?_, fun m d => ?_⟩
  · show update s.birth id s.births i < s.births + 1
    by_cases hi' : i = id
    · simp [hi']
    · have hi : c.alive i = true := hi
      rw [halive', halive] at hi
      rw [update_of_ne hi']
      exact lt_succ_of_lt (h.born i (hi.resolve_right hi'))
  · have hp : p ∈ update s.reads id [] m := hp
    by_cases hm : m = id
    · simp [hm] at hp
    · rw [update_of_ne hm] at hp
      exact lt_succ_of_lt (h.past m p hp)
  · show d ∈ c.dependenciesOf m ↔ c.alive m = true ∧ c.alive d = true ∧
      (d, update s.birth id s.births d) ∈ update s.reads id [] m
    rw [hd', halive', halive, halive, h.logged]
    by_cases hm : m = id
    · subst hm
      simp [hdead]
    · by_cases hdid : d = id
      · -- nobody has read a node that is just being created
        subst hdid
        simp only [hdead, Bool.false_eq_true, false_and, and_false, update_self,
          update_of_ne hm, false_iff, not_and]
        exact fun _ _ hp => absurd (h.past m _ hp) (lt_irrefl _)
      · simp [hm, hdid]

theorem Inv.started (hc : c.wiring = (s.context.detach id).wiring) : (s.started id c).Inv := by
  have halive : c.alive = s.context.alive := (congrArg Wiring.alive hc).trans (alive_detach id)
  have hdeps : c.dependenciesOf = (s.context.detach id).dependenciesOf :=
    congrArg Wiring.dependencies hc
  refine ⟨hc ▸ h.wired.detach id, fun i hi => h.born i (halive ▸ hi), fun m p hp => ?_,
    fun m d => ?_⟩
  · have hp : p ∈ update s.reads id [] m := hp
    by_cases hm : m = id
    · simp [hm] at hp
    · rw [update_of_ne hm] at hp
      exact h.past m p hp
  · show d ∈ c.dependenciesOf m ↔ c.alive m = true ∧ c.alive d = true ∧
      (d, s.birth d) ∈ update s.reads id [] m
    rw [hdeps, halive, dependenciesOf_detach]
    by_cases hm : m = id
    · simp [hm]
    · simp [hm, h.logged]

/-- A read through the view of the node that is in its slot. -/
theorem Inv.register {birth dependency : SlotId}
    (hm : s.Meets (.register (.node id birth) dependency)) :
    (s.step (.register (.node id birth) dependency)).Inv := by
  obtain ⟨hreader, hbirth, hcell, hne⟩ := hm
  have hr := reader_of_isReader hreader
  have hd := readable_of_isCell hcell
  have halive : (s.context.registerDependency dependency id).alive = s.context.alive :=
    alive_registerDependency dependency id
  have hid : s.context.alive id = true := by
    rcases hr with ⟨n, hn⟩ | ⟨n, hn⟩ <;> simp [alive, hn]
  have hdep : s.context.alive dependency = true := by
    rcases hd with ⟨n, hn⟩ | ⟨n, hn⟩ <;> simp [alive, hn]
  have hlog : s.logRead (.node id birth) dependency =
      update s.reads id ((dependency, s.birth dependency) :: s.reads id) := by
    simp [logRead, current, hid, hbirth, View.slotId]
  refine ⟨h.wired.registerDependency hne hd hr, fun i hi => h.born i (halive ▸ hi),
    fun m p hp => ?_, fun m d => ?_⟩
  · have hp : p ∈ s.logRead (.node id birth) dependency m := hp
    rw [hlog] at hp
    by_cases hmid : m = id
    · subst hmid
      rw [update_self] at hp
      rcases mem_cons.1 hp with rfl | hp
      · exact h.born dependency hdep
      · exact h.past m p hp
    · rw [update_of_ne hmid] at hp
      exact h.past m p hp
  · show d ∈ (s.context.registerDependency dependency id).dependenciesOf m ↔
      (s.context.registerDependency dependency id).alive m = true ∧
        (s.context.registerDependency dependency id).alive d = true ∧
        (d, s.birth d) ∈ s.logRead (.node id birth) dependency m
    rw [halive, hlog, dependenciesOf_registerDependency hne hr]
    by_cases hmid : m = id
    · subst hmid
      simp only [if_true, mem_edgeInsert, h.logged, hid, true_and, update_self,
        mem_cons, Prod.mk.injEq]
      constructor
      · rintro (⟨hl, hr⟩ | rfl)
        · exact ⟨hl, .inr hr⟩
        · exact ⟨hdep, .inl ⟨rfl, rfl⟩⟩
      · rintro ⟨hl, ⟨rfl, -⟩ | hr⟩
        · exact .inr rfl
        · exact .inl ⟨hl, hr⟩
    · simp [hmid, h.logged]

theorem Inv.moves {s' : Session τ V} (hmoves : Moves s s') : s'.Inv := by
  cases hmoves with
  | created hdeps hdependents hc => exact h.created hdeps hdependents hc
  | started hc0 hc => exact (h.withContext hc0).started hc
  | same hc => exact h.withContext hc
  | disposed _ hcuts => exact h.cuts (hcuts h.wired)

theorem Inv.step {e : Section τ V} (hm : s.Meets e) : (s.step e).Inv := by
  by_cases hread : ∀ view dependency, e ≠ .register view dependency
  · exact h.moves (moves_step s hread)
  · push Not at hread
    obtain ⟨view, dependency, rfl⟩ := hread
    cases view with
    | detached => exact hm.elim
    | node id birth => exact h.register hm

end

/-- In every state reached by sections that meet the condition the edge tables are exact. -/
theorem run_edgesExact {sections : List (Section τ V)}
    (hmeets : Allowed Session.step Meets new sections) : (new.run sections).EdgesExact :=
  (hmeets.invariant new_inv fun _ _ h hm => h.step hm).edgesExact

/-- A source, a cell that reads it and an effect on the cell; the source goes, its slot is taken by
a new source, which the cell reads when it reruns. -/
def recycledSource : List (Section Unit Nat) :=
  [.source 1 (), .slot (.ret 0) none (), .beginRecompute 1, .register (.node 1 1) 0,
    .publish (.node 1 1) 0, .effect (.done none []), .beginRun 2, .register (.node 2 2) 1,
    .finishRun (.node 2 2) none, .disposeCell ⟨0, 0, ()⟩, .source 7 (), .beginRecompute 1,
    .register (.node 1 1) 0, .publish (.node 1 1) 0]

instance (s : Session τ V) : ∀ e : Section τ V, Decidable (s.Meets e)
  | .register .detached _ => inferInstanceAs (Decidable False)
  | .register (.node ..) _ => inferInstanceAs (Decidable (_ ∧ _ ∧ _ ∧ _))
  | .source .. | .slot .. | .effect .. | .enterRefresh .. | .leaveRefresh ..
  | .clearSlotDirtyFlags .. | .beginRecompute .. | .publish .. | .beginRun .. | .finishRun ..
  | .store .. | .invalidate .. | .clear .. | .walkBatched | .schedule .. | .setEager ..
  | .makeLazy .. | .disposeCell .. | .disposeSlot .. | .disposeEffect .. | .bookkeeping .. =>
    inferInstanceAs (Decidable True)

theorem run_edgesExact_recycledSource : (new.run recycledSource).context.dependentsOf 0 = [1] ∧
    (new.run recycledSource).EdgesExact :=
  ⟨by decide +kernel, run_edgesExact (by decide +kernel)⟩

/-- `memoized_cell` on an initialiser that reads a source: the sentinel stays behind among the
dependents of the source. -/
theorem detached_read_leaves_edge : ¬ EdgesExact
    (new.run [.source 1 (), .register .detached 0, .source 2 ()] : Session Unit Nat) := by
  intro h
  have hedge : detachedId ∈ (new.run [.source 1 (), .register .detached 0, .source 2 ()] :
      Session Unit Nat).context.dependentsOf 0 := by decide +kernel
  have hlive := (h.live detachedId 0 (.inl hedge)).1
  revert hlive
  decide +kernel

end Session

end Lazily
