import Lazily.Context.Proof.Watched

/-!
# The operations keep the invariants

`Sound R out c` bundles the cache invariant and the effect invariant; between the parts of one
operation it holds up to further cells whose readers have not been told (`SoundUpTo`). The effect
invariant is claimed as long as no drain has run out of its budget, and of the effects outside
`out`. This module has the bundle, its transport along the relations of the layers below, and the
reads (`Sound.read`, `Sound.effectRead`).
-/

namespace Lazily

open Lib Context List List.Subset

variable {τ V : Type}

/-- A class of effect closures that holds the continuations and the nested closures of its
members. -/
class EffectFn.Closed (R : EffectFn τ V → Prop) : Prop where
  get : ∀ {h next}, R (.get h next) → ∀ v, R (next v)
  set : ∀ {h value next}, R (.set h value next) → R next
  batch : ∀ {body next}, R (.batch body next) → R body ∧ ∀ r, R (next r)
  source : ∀ {value tag next}, R (.source value tag next) → ∀ h, R (next h)
  computed : ∀ {compute tag next}, R (.computed compute tag next) → ∀ h, R (next h)
  effect : ∀ {run next}, R (.effect run next) → R run ∧ ∀ h, R (next h)

theorem EffectFn.Closed.any : EffectFn.Closed (fun _ : EffectFn τ V => True) :=
  ⟨fun _ _ => trivial, fun _ => trivial, fun _ => ⟨trivial, fun _ => trivial⟩,
    fun _ _ => trivial, fun _ _ => trivial, fun _ => ⟨trivial, fun _ => trivial⟩⟩

def EffectFn.NoWrites (R : EffectFn τ V → Prop) : Prop := ∀ h value next, ¬ R (.set h value next)

/-! ## Effects moving on -/

/-- No cell that the latest run read has been disposed of since. -/
def EffectNode.Whole (e : EffectNode τ V) : Prop := ∀ p ∈ e.observed, p.1 ∈ e.dependencies

/-- What the effect depends on has been read by its latest run. -/
def EffectNode.Logged (e : EffectNode τ V) : Prop := ∀ d ∈ e.dependencies, ∃ v, (d, v) ∈ e.observed

/-- How an effect moves on: it has started again, or its latest run has read more. -/
structure EffectNode.Later (e e' : EffectNode τ V) : Prop where
  runs : e.runs < e'.runs ∨
    e'.runs = e.runs ∧ e.observed ⊆ e'.observed ∧ e.dependencies ⊆ e'.dependencies
  whole : e.Whole → e'.Whole
  logged : e.Logged → e'.Logged

variable {e e' : EffectNode τ V} {c1 c c' : Context τ V} {off : Option SlotId}
  {effects : List (SlotId × Bool)} {roots : List SlotId} {k : Cell τ} {v : V}

theorem EffectNode.Later.of_same (hruns : e'.runs = e.runs) (hobs : e'.observed = e.observed)
    (hdeps : e'.dependencies = e.dependencies) : e.Later e' := by
  refine ⟨.inr ⟨hruns, ?_, ?_⟩, fun h => ?_, fun h => ?_⟩
  · rw [hobs]
    exact refl _
  · rw [hdeps]
    exact refl _
  · rw [Whole, hobs, hdeps]
    exact h
  · rw [Logged, hobs, hdeps]
    exact h

theorem EffectNode.Later.refl (e : EffectNode τ V) : e.Later e := .of_same rfl rfl rfl

theorem EffectNode.Later.trans {e1 e2 : EffectNode τ V} (h1 : e.Later e1) (h2 : e1.Later e2) :
    e.Later e2 := by
  refine ⟨?_, fun h => h2.whole (h1.whole h), fun h => h2.logged (h1.logged h)⟩
  rcases h1.runs with hlt1 | ⟨heq1, hobs1, hdeps1⟩
  · rcases h2.runs with hlt2 | ⟨heq2, -⟩
    · exact .inl (Nat.lt_trans hlt1 hlt2)
    · exact .inl (heq2 ▸ hlt1)
  · rcases h2.runs with hlt2 | ⟨heq2, hobs2, hdeps2⟩
    · exact .inl (heq1 ▸ hlt2)
    · exact .inr ⟨heq2.trans heq1, List.Subset.trans hobs1 hobs2, List.Subset.trans hdeps1 hdeps2⟩

/-- An effect keeps its closure; outside `skip` it is at most forced. -/
def EffectNode.Moved (skip : Prop) (e e' : EffectNode τ V) : Prop :=
  e'.run = e.run ∧ (¬ skip → e' = { e with forceRun := e'.forceRun })

theorem EffectNode.Moved.refl {skip : Prop} (e : EffectNode τ V) : e.Moved skip e :=
  ⟨rfl, fun _ => rfl⟩

/-- Two states of one node: a slot has its cycle guard as it was, an effect has moved by `P`. -/
inductive Alike (P : EffectNode τ V → EffectNode τ V → Prop) :
    Option (Node τ V) → Option (Node τ V) → Prop
  | none : Alike P none none
  | source (s s' : SourceNode τ V) : Alike P (some (.source s)) (some (.source s'))
  | computed {s s' : ComputedNode τ V} (progress : s'.inProgress = s.inProgress) :
      Alike P (some (.computed s)) (some (.computed s'))
  | effect {e e' : EffectNode τ V} (moved : P e e') : Alike P (some (.effect e)) (some (.effect e'))

section Alike

variable {P : EffectNode τ V → EffectNode τ V → Prop} {n n1 n2 : Option (Node τ V)}

theorem Alike.refl (hP : ∀ e, P e e) : ∀ n : Option (Node τ V), Alike P n n
  | .none => .none
  | some (.source s) => .source s s
  | some (.computed _) => .computed rfl
  | some (.effect e) => .effect (hP e)

theorem Alike.trans (hP : ∀ {e e1 e2}, P e e1 → P e1 e2 → P e e2) (h1 : Alike P n n1)
    (h2 : Alike P n1 n2) : Alike P n n2 := by
  cases h1 <;> cases h2
  · exact .none
  · exact .source _ _
  · rename_i hp1 _ hp2
    exact .computed (hp2.trans hp1)
  · rename_i he1 _ he2
    exact .effect (hP he1 he2)

theorem Alike.to_none (h : Alike P .none n) : n = .none := by
  cases h
  rfl

theorem Alike.of_computed {s' : ComputedNode τ V} (h : Alike P n (some (.computed s'))) :
    ∃ s, n = some (.computed s) ∧ s'.inProgress = s.inProgress := by
  cases h with
  | computed hp => exact ⟨_, rfl, hp⟩

theorem Alike.to_effect {e : EffectNode τ V} (h : Alike P (some (.effect e)) n) :
    ∃ e', n = some (.effect e') ∧ P e e' := by
  cases h with
  | effect he => exact ⟨_, rfl, he⟩

theorem Alike.of_effect {e' : EffectNode τ V} (h : Alike P n (some (.effect e'))) :
    ∃ e, n = some (.effect e) ∧ P e e' := by
  cases h with
  | effect he => exact ⟨_, rfl, he⟩

theorem Alike.source_iff (h : Alike P n n1) :
    (∃ s, n1 = some (.source s)) ↔ ∃ s, n = some (.source s) := by
  cases h <;> simp

theorem Evolved.alike {guarded skip : Prop} (h : Evolved guarded n n1) :
    Alike (EffectNode.Moved skip) n n1 := by
  cases h with
  | none => exact .none
  | source s l => exact .source s _
  | computed hsame => exact .computed hsame.inProgress
  | effect e f => exact .effect ⟨rfl, fun _ => rfl⟩

theorem Context.Weaker.alike (h : Context.Weaker n n1) (hP : ∀ e, P e e) : Alike P n n1 := by
  cases h with
  | same => exact .refl hP _
  | slot s value dirty force h => exact .computed rfl

theorem Context.Relisted.alike (h : Context.Relisted n n1)
    (hP : ∀ e m, n = some (.effect e) → n1 = some (.effect { e with dependencies := m }) →
      P e { e with dependencies := m }) : Alike P n n1 := by
  cases h with
  | none => exact .none
  | source s l => exact .source s _
  | computed s l m => exact .computed rfl
  | effect e m => exact .effect (hP e m rfl rfl)

end Alike

namespace Context

/-- A change of the nodes and the queue of effects: no slot is filled or freed, and the effects
outside `skip` are at most forced. -/
structure Stirs (skip : SlotId → Prop) (c c' : Context τ V) : Prop where
  frame : c' = { c with
    nodes := c'.nodes
    pendingEffects := c'.pendingEffects
    scheduledEffects := c'.scheduledEffects }
  alike : ∀ i, Alike (EffectNode.Moved (skip i)) (c.nodes i) (c'.nodes i)
  queue : ∃ new, Queues c c' new ∧ ∀ i ∈ new, ∃ e, c.nodes i = some (.effect e)

section Stirs

variable {skip : SlotId → Prop} {c c' : Context τ V} {x : SlotId}

theorem Stirs.trans {c2 : Context τ V} (h1 : Stirs skip c c1) (h2 : Stirs skip c1 c2) :
    Stirs skip c c2 := by
  obtain ⟨new1, hq1, hnew1⟩ := h1.queue
  obtain ⟨new2, hq2, hnew2⟩ := h2.queue
  refine ⟨by rw [h2.frame, h1.frame], fun i => (h1.alike i).trans (fun hm1 hm2 =>
    ⟨hm2.1.trans hm1.1, fun hi => by rw [hm2.2 hi, hm1.2 hi]⟩) (h2.alike i),
    new1 ++ new2, hq1.trans hq2, fun i hi => ?_⟩
  rcases mem_append.1 hi with hi | hi
  · exact hnew1 i hi
  · obtain ⟨e1, he1⟩ := hnew2 i hi
    obtain ⟨e, he, -⟩ := (he1 ▸ h1.alike i).of_effect
    exact ⟨e, he⟩

theorem Stirs.of_nodes (hframe : c' = { c with nodes := c'.nodes })
    (h : ∀ i, Alike (EffectNode.Moved (skip i)) (c.nodes i) (c'.nodes i)) : Stirs skip c c' :=
  ⟨by rw [hframe], h, [], .refl (by rw [hframe]) (by rw [hframe]), by simp⟩

theorem Evolves.stirs (h : Evolves off c c') : Stirs skip c c' :=
  ⟨h.frame, fun i => (h.node i).alike, h.queue⟩

theorem Invalidates.stirs (h : Invalidates c c' effects roots) : Stirs skip c c' :=
  .of_nodes h.frame fun i => (h.weaker i).alike .refl

theorem Schedules.stirs (h : Schedules c c' effects)
    (hcollected : ∀ p ∈ effects, ∃ e, c.nodes p.1 = some (.effect e)) : Stirs skip c c' := by
  obtain ⟨new, hq, hnew⟩ := h.queue
  refine ⟨h.frame, fun i => (h.evolved i : Evolved True _ _).alike, new, hq, fun i hi => ?_⟩
  obtain ⟨f, hf⟩ := hnew i hi
  exact hcollected _ hf

theorem Rewires.stirs (h : Rewires x c c') : Stirs (· = x) c c' := by
  refine .of_nodes h.frame fun i => (h.relisted i).alike fun e m he hm => ⟨rfl, fun hi => ?_⟩
  have hd : m = e.dependencies := by
    rw [← dependenciesOf_effect he, ← h.dependencies i hi, dependenciesOf_effect hm]
  rw [hd]

theorem stirs_setNode {n n' : Option (Node τ V)} (hn : c.nodes x = n)
    (h : Alike (EffectNode.Moved (skip x)) n n') : Stirs skip c (c.setNode x n') := by
  refine .of_nodes rfl fun i => ?_
  by_cases hi : i = x
  · rw [hi, setNode_same, hn]
    exact h
  · rw [setNode_ne _ hi]
    exact .refl .refl _

theorem Stirs.pendingWrites (h : Stirs skip c c') : pendingWrites c' = pendingWrites c := by
  have hdepth : c'.batchDepth = c.batchDepth := by rw [h.frame]
  have hcells : c'.batchedCells = c.batchedCells := by rw [h.frame]
  funext i
  simp only [Context.pendingWrites, hdepth, hcells, (h.alike i).source_iff]

theorem Stirs.queued (h : Stirs skip c c') (hq : Queued c) : Queued c' := by
  obtain ⟨new, hnew, hin⟩ := h.queue
  intro i hi
  rw [hnew.scheduled, Bool.or_eq_true, decide_eq_true_eq] at hi
  rw [hnew.pending, mem_append]
  have hold : (i ∈ c.pendingEffects ∨ i ∈ new) ∧ ∃ e, c.nodes i = some (.effect e) :=
    hi.elim (fun hi => (hq i hi).imp_left .inl) fun hi => ⟨.inr hi, hin i hi⟩
  obtain ⟨hmem, e, he⟩ := hold
  obtain ⟨e', he', -⟩ := (he ▸ h.alike i).to_effect
  exact ⟨hmem, e', he'⟩

end Stirs

/-- The slots waiting to be recycled are empty, and no slot is being refreshed. -/
structure Tidy (c : Context τ V) : Prop where
  nodup : c.freeIds.Nodup
  vacant : ∀ i ∈ c.freeIds, i < c.nextId ∧ c.nodes i = none
  released : ∀ i s, c.nodes i = some (.computed s) → s.inProgress = false

/-- The arena and the queue are in order, and the closures of the effects are from the class `R`;
the revision engine takes closures that do not write. -/
structure Regular (R : EffectFn τ V → Prop) (c : Context τ V) : Prop where
  tidy : Tidy c
  listed : ∀ i e, c.nodes i = some (.effect e) → i ∈ c.allEffectIds
  queued : Queued c
  noWrites : c.revisionMode = true → EffectFn.NoWrites R
  allowed : ∀ i e, c.nodes i = some (.effect e) → R e.run

section Regular

variable {R : EffectFn τ V → Prop} {S : SlotId → Prop} {c c' : Context τ V}

theorem Regular.alike (h : Regular R c) (hnext : c'.nextId = c.nextId)
    (hfree : c'.freeIds = c.freeIds) (hall : c'.allEffectIds = c.allEffectIds)
    (hmode : c'.revisionMode = c.revisionMode) (hq : Queued c')
    (halike : ∀ i, Alike (EffectNode.Moved (S i)) (c.nodes i) (c'.nodes i)) : Regular R c' where
  tidy.nodup := hfree ▸ h.tidy.nodup
  tidy.vacant i hi := by
    obtain ⟨hlt, hn⟩ := h.tidy.vacant i (hfree ▸ hi)
    exact ⟨hnext ▸ hlt, (hn ▸ halike i).to_none⟩
  tidy.released i s' hs' := by
    obtain ⟨s, hs, hp⟩ := (hs' ▸ halike i).of_computed
    exact hp.trans (h.tidy.released i s hs)
  listed i e' he' := by
    obtain ⟨e, he, -⟩ := (he' ▸ halike i).of_effect
    exact hall ▸ h.listed i e he
  queued := hq
  noWrites hm := h.noWrites (hmode ▸ hm)
  allowed i e' he' := by
    obtain ⟨e, he, hr, -⟩ := (he' ▸ halike i).of_effect
    exact hr ▸ h.allowed i e he

theorem Regular.stirs (h : Regular R c) (hs : Stirs S c c') : Regular R c' :=
  h.alike (by rw [hs.frame]) (by rw [hs.frame]) (by rw [hs.frame]) (by rw [hs.frame])
    (hs.queued h.queued) hs.alike

theorem Regular.congr (h : Regular R c) (hnodes : c'.nodes = c.nodes) (hnext : c'.nextId = c.nextId)
    (hfree : c'.freeIds = c.freeIds) (hall : c'.allEffectIds = c.allEffectIds)
    (hmode : c'.revisionMode = c.revisionMode) (hq : Queued c') : Regular R c' :=
  h.alike (S := fun _ => False) hnext hfree hall hmode hq fun _ => hnodes ▸ .refl .refl _

end Regular

/-- Both invariants, up to the cells in `D` and the dependencies of effects in `out`. -/
structure SoundUpTo (R : EffectFn τ V → Prop) (D : SlotId → Prop) (out : SlotId → SlotId → Prop)
    (c : Context τ V) : Prop extends Regular R c where
  coherent : Coherent D c
  watched : c.lastDrainExhaustion = none → Watched D out c

/-- Both invariants, up to the writes of the open batch. -/
abbrev Sound (R : EffectFn τ V → Prop) (out : SlotId → SlotId → Prop) (c : Context τ V) : Prop :=
  SoundUpTo R (pendingWrites c) out c

/-- No write or clear is queued for the end of a batch. -/
def Unbatched (c : Context τ V) : Prop :=
  c.batchedCells = [] ∧ c.batchedCellClears = [] ∧ c.batchedSlots = []

/-- The effects outside `skip` move on, and none is removed; a new one has read nothing. -/
structure Moves (skip : SlotId → Prop) (nodes nodes' : SlotId → Option (Node τ V)) : Prop where
  later : ∀ i e, ¬ skip i → nodes i = some (.effect e) →
    ∃ e', nodes' i = some (.effect e') ∧ e.Later e'
  born : ∀ i e', ¬ skip i → nodes' i = some (.effect e') →
    (∃ e, nodes i = some (.effect e)) ∨ e'.Whole ∧ e'.Logged

variable {skip : SlotId → Prop}

theorem Moves.trans {nodes nodes1 nodes2 : SlotId → Option (Node τ V)}
    (h1 : Moves skip nodes nodes1) (h2 : Moves skip nodes1 nodes2) : Moves skip nodes nodes2 := by
  refine ⟨fun i e hi h => ?_, fun i e2 hi he2 => ?_⟩
  · obtain ⟨e1, he1, hl1⟩ := h1.later i e hi h
    obtain ⟨e2, he2, hl2⟩ := h2.later i e1 hi he1
    exact ⟨e2, he2, hl1.trans hl2⟩
  · rcases h2.born i e2 hi he2 with ⟨e1, he1⟩ | hnew
    · refine (h1.born i e1 hi he1).imp_right fun hnew => ?_
      obtain ⟨e, he, hl⟩ := h2.later i e1 hi he1
      rw [he2] at he
      cases he
      exact ⟨hl.whole hnew.1, hl.logged hnew.2⟩
    · exact .inr hnew

section Moves

variable {nodes nodes' : SlotId → Option (Node τ V)} {i : SlotId}

variable (h : Moves (fun _ => False) nodes nodes')
include h

theorem Moves.keeps {P : EffectNode τ V → Prop} (hlater : ∀ e e', e.Later e' → P e → P e')
    (hborn : ∀ e : EffectNode τ V, e.Whole → e.Logged → P e)
    (hP : ∀ e, nodes i = some (.effect e) → P e) (e' : EffectNode τ V)
    (he' : nodes' i = some (.effect e')) : P e' := by
  rcases h.born i e' id he' with ⟨e, he⟩ | ⟨hw, hl⟩
  · obtain ⟨e1, he1, hlat⟩ := h.later i e id he
    rw [he'] at he1
    cases he1
    exact hlater e e' hlat (hP e he)
  · exact hborn e' hw hl

theorem Moves.whole (hw : ∀ e, nodes i = some (.effect e) → e.Whole) :
    ∀ e', nodes' i = some (.effect e') → e'.Whole :=
  h.keeps (fun _ _ hl => hl.whole) (fun _ hw _ => hw) hw

theorem Moves.logged (hl : ∀ e, nodes i = some (.effect e) → e.Logged) :
    ∀ e', nodes' i = some (.effect e') → e'.Logged :=
  h.keeps (fun _ _ hl => hl.logged) (fun _ _ hl => hl) hl

end Moves

/-- What operations leave alone: the engine, the drain that is going on, the batch depth; nothing is
queued outside a batch, and effects are not removed. Nothing is said of the effects in `skip`. -/
structure FrameBut (skip : SlotId → Prop) (c c' : Context τ V) : Prop where
  revisionMode : c'.revisionMode = c.revisionMode
  flushing : c'.flushingEffects = c.flushingEffects
  budget : c'.drainBudget = c.drainBudget
  depth : c'.batchDepth = c.batchDepth
  exhaustion : c'.lastDrainExhaustion = none → c.lastDrainExhaustion = none
  unbatched : c.batchDepth = 0 → Unbatched c → Unbatched c'
  moves : Moves skip c.nodes c'.nodes

abbrev Frame (c c' : Context τ V) : Prop := FrameBut (fun _ => False) c c'

theorem FrameBut.refl (c : Context τ V) : Frame c c :=
  ⟨rfl, rfl, rfl, rfl, fun h => h, fun _ h => h, fun _ e _ h => ⟨e, h, .refl e⟩,
    fun _ e _ h => .inl ⟨e, h⟩⟩

theorem FrameBut.trans {c2 : Context τ V} (h1 : FrameBut skip c c1)
    (h2 : FrameBut skip c1 c2) : FrameBut skip c c2 :=
  ⟨h2.revisionMode.trans h1.revisionMode, h2.flushing.trans h1.flushing,
    h2.budget.trans h1.budget, h2.depth.trans h1.depth,
    fun h => h1.exhaustion (h2.exhaustion h),
    fun h hu => h2.unbatched (h1.depth.trans h) (h1.unbatched h hu), h1.moves.trans h2.moves⟩

theorem FrameBut.effect (h : Frame c c') (i : SlotId) (e : EffectNode τ V)
    (he : c.nodes i = some (.effect e)) : ∃ e', c'.nodes i = some (.effect e') :=
  (h.moves.later i e id he).imp fun _ he' => he'.1

theorem FrameBut.fill {x : SlotId} (h : FrameBut (· = x) c c') (he : c.nodes x = some (.effect e))
    (he' : c'.nodes x = some (.effect e')) (hl : e.Later e') : Frame c c' := by
  refine { h with moves := ⟨fun i ei _ hei => ?_, fun i ei _ hei => ?_⟩ }
  · by_cases hix : i = x
    · subst hix
      rw [he] at hei
      cases hei
      exact ⟨e', he', hl⟩
    · exact h.moves.later i ei hix hei
  · by_cases hix : i = x
    · exact .inl ⟨e, hix ▸ he⟩
    · exact h.moves.born i ei hix hei

section Sound

variable {R : EffectFn τ V → Prop} {D D' E : SlotId → Prop} {out out' : SlotId → SlotId → Prop}
  {c c' : Context τ V} {x : SlotId}

theorem sameCells_of_nodes (hnodes : c'.nodes = c.nodes) (hnext : c'.nextId = c.nextId)
    (hrev : c'.revision = c.revision) (hmode : c'.revisionMode = c.revisionMode) : SameCells c c' :=
  ⟨hnext, hrev, hmode, fun i => .inl (congrFun hnodes i)⟩

theorem SoundUpTo.congr (h : SoundUpTo R D out c) (hD : ∀ i, D i → D' i) (hframe : c' = { c with
      flushingEffects := c'.flushingEffects, drainBudget := c'.drainBudget
      drainRuns := c'.drainRuns, batchDepth := c'.batchDepth, batchedCells := c'.batchedCells
      batchedCellClears := c'.batchedCellClears, batchedSlots := c'.batchedSlots
      eagerBy := c'.eagerBy, cleanupLog := c'.cleanupLog }) : SoundUpTo R D' out c' := by
  have hsame : SameCells c c' := by
    rw [hframe]
    exact sameCells_of_nodes rfl rfl rfl rfl
  rw [hframe] at hsame ⊢
  exact ⟨h.toRegular.congr rfl rfl rfl rfl rfl (h.queued.congr rfl rfl rfl),
    (h.coherent.mono hD).sameCells hsame, fun hn => (h.watched hn).congr hD hsame rfl rfl⟩

theorem Stirs.toFrame {skip : SlotId → Prop} (h : Stirs skip c c') : FrameBut skip c c' where
  revisionMode := by rw [h.frame]
  flushing := by rw [h.frame]
  budget := by rw [h.frame]
  depth := by rw [h.frame]
  exhaustion hn := by rw [h.frame] at hn; exact hn
  unbatched _ hu := by rw [h.frame]; exact hu
  moves := by
    refine ⟨fun i e hi he => ?_, fun i e' _ he' => ?_⟩
    · obtain ⟨e', he', -, hsame⟩ := (he ▸ h.alike i).to_effect
      exact ⟨e', he', .of_same (by rw [hsame hi]) (by rw [hsame hi]) (by rw [hsame hi])⟩
    · obtain ⟨e, he, -⟩ := (he' ▸ h.alike i).of_effect
      exact .inl ⟨e, he⟩

/-- The effects a walk collected are effects after it. -/
theorem Invalidates.stirs_schedules {S : SlotId → Prop} (hinv : Invalidates c c1 effects roots)
    (hsched : Schedules c1 c' effects) : Stirs S c c' :=
  hinv.stirs.trans (hsched.stirs fun p hp => by
    obtain ⟨e, he⟩ := hinv.collected p hp
    exact ⟨e, (he ▸ hinv.weaker p.1).of_effect⟩)

/-- A walk, and the scheduling of the effects it collected. -/
theorem SoundUpTo.invalidates (h : SoundUpTo R (fun i => D i ∨ E i) out c)
    (hmode : c.revisionMode = false) (hinv : Invalidates c c1 effects roots)
    (hE : ∀ d, E d → ∀ y ∈ c.dependentsOf d, y ∈ roots) (hsched : Schedules c1 c' effects) :
    SoundUpTo R D out c' where
  toRegular := h.toRegular.stirs (hinv.stirs_schedules (S := fun _ => False) hsched)
  coherent := (h.coherent.invalidates hinv hE).sameCells hsched.sameCells
  watched hn := by
    rw [hsched.frame, hinv.frame] at hn
    exact (h.watched hn).invalidates hmode h.coherent hinv hE hsched

theorem Evolves.frame' (h : Evolves off c c') : Frame c c' := h.stirs.toFrame

theorem Sound.evolves (h : Sound R out c) (hev : Evolves off c c')
    (hc : Coherent (pendingWrites c) c') : Sound R out c' := by
  have hs : Stirs (fun _ => False) c c' := hev.stirs
  exact ⟨h.toRegular.stirs hs, hs.pendingWrites ▸ hc, fun hn =>
    hs.pendingWrites ▸ (h.watched (hs.toFrame.exhaustion hn)).evolves hev⟩

theorem SoundUpTo.mono (h : SoundUpTo R D out c) (hD : ∀ i, D i → D' i) : SoundUpTo R D' out c :=
  { h with
    coherent := h.coherent.mono hD
    watched := fun hn i e d hi he => (h.watched hn i e d hi he).mono hD }

/-! ## Effects left out -/

theorem SoundUpTo.leave (h : SoundUpTo R D out c) (hout : ∀ i d, out i d → out' i d) :
    SoundUpTo R D out' c :=
  { h with watched := fun hn => (h.watched hn).leave hout }

theorem Sound.popped (h : Sound R out c) (x : SlotId) : Sound R (fun i d => out i d ∨ i = x) c :=
  h.leave fun _ _ => .inl

theorem SoundUpTo.fill (h : SoundUpTo R D out c) (hx : c.lastDrainExhaustion = none →
    ∀ e d, ¬ out' x d → c.nodes x = some (.effect e) → WatchedAt D c x e d)
    (hout : ∀ i d, i ≠ x → out i d → out' i d) : SoundUpTo R D out' c :=
  { h with watched := fun hn => (h.watched hn).fill (hx hn) hout }

theorem SoundUpTo.back (h : SoundUpTo R D (fun i d => out i d ∨ i = x) c)
    (hx : c.lastDrainExhaustion = none → ∀ e d, ¬ out x d → c.nodes x = some (.effect e) →
      WatchedAt D c x e d) : SoundUpTo R D out c :=
  h.fill hx fun _ _ hix ho => ho.resolve_right hix

section

variable (he : c.nodes x = some (.effect e))
include he

theorem Sound.rewires (h : Sound R out c) (hout : ∀ d, out x d)
    (hrew : Rewires x c c') (hc : Coherent (pendingWrites c) c') : Sound R out c' :=
  ⟨h.toRegular.stirs hrew.stirs, hrew.stirs.pendingWrites ▸ hc, fun hn => hrew.stirs.pendingWrites ▸
    (h.watched (hrew.stirs.toFrame.exhaustion hn)).rewires hout hrew ⟨e, he⟩⟩

theorem sameCells_setEffect
    (hd : e'.dependencies = e.dependencies) : SameCells c (c.setNode x (some (.effect e'))) where
  nextId := rfl
  revision := rfl
  revisionMode := rfl
  node i := by
    by_cases hix : i = x
    · subst hix
      exact .inr ⟨e, e', he, setNode_same .., hd⟩
    · exact .inl (setNode_ne _ hix _)

theorem stirs_setEffect (hr : e'.run = e.run) : Stirs (· = x) c (c.setNode x (some (.effect e'))) :=
  stirs_setNode he (.effect ⟨hr, fun hx => absurd rfl hx⟩)

theorem Sound.setEffect (h : Sound R out c) (hout : ∀ d, out x d)
    (hd : e'.dependencies = e.dependencies) (hr : e'.run = e.run) :
    Sound R out (c.setNode x (some (.effect e'))) := by
  have hsame := sameCells_setEffect he hd
  have hs := stirs_setEffect he hr
  exact ⟨h.toRegular.stirs hs, hs.pendingWrites ▸ h.coherent.sameCells hsame,
    fun hn => hs.pendingWrites ▸ (h.watched hn).setEffect hout hsame⟩

end

/-! ## Reads -/

/-- What is known of the effect that is running: it depends on all it has read and, in the revision
engine, has read what it would read now. -/
structure RunObserved (x : SlotId) (c : Context τ V) : Prop where
  whole : ∀ e, c.nodes x = some (.effect e) → e.Whole
  hold : c.revisionMode = true → c.lastDrainExhaustion = none → ∀ e,
    c.nodes x = some (.effect e) → e.forceRun = false → ∀ d, ObservedHold (fun _ => False) c e d

/-- A tracked read of a running effect: what holds of its node once the read is recorded. -/
theorem effectRead_watched {c0 : Context τ V} {D : SlotId → Prop} {m : List SlotId} {f : Bool}
    {k : SlotId} (hrew : Rewires x c c0) (hev : Evolves none c0 c1)
    (he : c.nodes x = some (.effect e))
    (hm : c0.nodes x = some (.effect { e with dependencies := m }))
    (hmem : ∀ d, d ∈ m ↔ d ∈ e.dependencies ∨ d = k)
    (hf : c1.nodes x = some (.effect { e with dependencies := m, forceRun := f }))
    (hg : Grounded c1 k) (hv : c1.valueAt k = some v) (hwhole : e.Whole)
    (hw : ∀ d, WatchedAt D c x e d)
    (hrun : c.revisionMode = true → e.forceRun = false → ∀ d, ObservedHold (fun _ => False) c e d)
    (he' : e' = { e with dependencies := m, forceRun := f, observed := e.observed ++ [(k, v)] }) :
    (∀ d, WatchedAt D c1 x e' d) ∧ (c.revisionMode = true → f = false →
      ∀ d, ObservedHold (fun _ => False) c1 e' d) := by
  subst he'
  obtain ⟨f', hf', hmono, hnew⟩ := hev.effect x _ hm
  rw [hf] at hf'
  cases hf'
  obtain ⟨new, hq, -⟩ := hev.queue
  have hsch0 : c0.scheduledEffects = c.scheduledEffects := by rw [hrew.frame]
  have hmode0 : c0.revisionMode = c.revisionMode := by rw [hrew.frame]
  have hunforced : f = false → e.forceRun = false := fun hf => by
    cases hef : e.forceRun with
    | false => rfl
    | true => rw [hmono hef] at hf; exact hf
  have hkeep : ∀ d, Grounded c d → Grounded c1 d ∧ c1.valueAt d = c.valueAt d := fun d hd => by
    obtain ⟨hg1, hv1⟩ := hev.grounded d (hrew.grounded (.inl (not_grounded_effect he)) hd)
    exact ⟨hg1, hv1.trans (hrew.valueAt d)⟩
  have hquiet : c.revisionMode = true → c1.scheduledEffects = c.scheduledEffects := fun hm =>
    (hev.quiet (hmode0.trans hm)).trans hsch0
  -- the reads before this one
  have hpush : c.revisionMode = false → f = false → ∀ d w, (d, w) ∈ e.observed →
      c1.valueAt d = some w ∨ D d := fun hmode hff d w hw' => by
    have hd := hwhole _ hw'
    have hold : ObservedHold D c0 { e with dependencies := m } d := fun w hw' => by
      rw [hrew.valueAt]
      exact (hw d).observed (hunforced hff) (fun h => by rw [hmode] at h; cases h) hd w hw'
    exact hold.evolves (hmode0.trans hmode) hm ((hmem d).2 (.inl hd)) hev hf hff w hw'
  have hrev : c.revisionMode = true → f = false → ∀ d w, (d, w) ∈ e.observed →
      c1.valueAt d = some w := fun hmode hff d w hw' => by
    have hef := hunforced hff
    have hno : c.scheduledEffects x = false := by
      by_contra hs
      rw [(hw d).revision hmode (by simpa using hs)] at hef
      cases hef
    rw [(hkeep _ ((hw d).settled hno (hwhole _ hw'))).2]
    exact (hrun hmode hef d w hw').resolve_right id
  have hlast : ∀ d w, (d, w) ∈ [(k, v)] → c1.valueAt d = some w := fun d w hp => by
    cases mem_singleton.1 hp
    exact hv
  refine ⟨fun d => ⟨fun hft => ?_, fun hn hd => ?_, fun hff _ _ w hp => ?_, fun hmode hs => ?_,
    fun hff => (hw d).ran (hunforced hff)⟩, fun hmode hff d w hp => ?_⟩
  · rcases hnew hft with hef | hs
    · exact hq.mono (hsch0 ▸ (hw d).forced hef)
    · exact hs
  · have hn0 : c.scheduledEffects x = false := by
      by_contra hs
      rw [hq.mono (by rw [hsch0]; simpa using hs)] at hn
      cases hn
    rcases (hmem d).1 hd with hd | rfl
    · exact (hkeep d ((hw d).settled hn0 hd)).1
    · exact hg
  · rcases mem_append.1 hp with hp | hp
    · cases hmode : c.revisionMode with
      | false => exact hpush hmode hff d w hp
      | true => exact .inl (hrev hmode hff d w hp)
    · exact .inl (hlast d w hp)
  · have hmode' : c.revisionMode = true := hmode0 ▸ hev.revisionMode ▸ hmode
    rw [hquiet hmode'] at hs
    exact hmono ((hw d).revision hmode' hs)
  · rcases mem_append.1 hp with hp | hp
    · exact .inl (hrev hmode hff d w hp)
    · exact .inl (hlast d w hp)

variable [DecidableEq τ]

theorem Sound.read (h : Sound R out c) (hread : readUntracked refresh k c = .ok v c') :
    Sound R out c' ∧ Evolves none c c' ∧ Grounded c' k.id ∧ c'.valueAt k.id = some v := by
  obtain ⟨hc, hev, hg, hv⟩ := readUntracked_spec refresh_spec h.coherent hread
  exact ⟨h.evolves hev hc, hev, hg, hv⟩

/-- A tracked read of a running effect, step by step: the edge is put in (`c0`), the cell is
refreshed (`c1`). -/
structure EffectRead (D : SlotId → Prop) (x k : SlotId) (v : V) (e : EffectNode τ V)
    (m : List SlotId) (f : Bool) (c c₀ c₁ : Context τ V) : Prop where
  rewires : Rewires x c c₀
  wired : Coherent D c₀
  evolves : Evolves none c₀ c₁
  coherent : Coherent D c₁
  grounded : Grounded c₁ k
  value : c₁.valueAt k = some v
  mem : ∀ d, d ∈ m ↔ d ∈ e.dependencies ∨ d = k
  node₀ : c₀.nodes x = some (.effect { e with dependencies := m })
  node₁ : c₁.nodes x = some (.effect { e with dependencies := m, forceRun := f })
  observe : c₁.observe x k v = c₁.setNode x (some (.effect { e with
    dependencies := m, forceRun := f, observed := e.observed ++ [(k, v)] }))

theorem Coherent.effectRead (hc : Coherent D c) (he : c.nodes x = some (.effect e))
    (hread : readTracked refresh x k c = .ok v c1) :
    ∃ m f, EffectRead D x k.id v e m f c (c.registerDependency k.id x) c1 := by
  obtain ⟨hc0, hc1, hev, hreadable, hg, hv⟩ :=
    readTracked_spec refresh_spec hc (.inr ⟨e, he⟩) (untrusted_effect he) hread
  have hrew := registerDependency_rewires c k.id x
  have hkx : k.id ≠ x := fun hk => by
    rcases hreadable with ⟨s, hs⟩ | ⟨s, hs⟩ <;> rw [hk, he] at hs <;> cases hs
  obtain ⟨m, hm, -⟩ := hrew.effect x e he
  obtain ⟨f, hf, -⟩ := hev.effect x _ hm
  refine ⟨m, f, hrew, hc0, hev, hc1, hg, hv, fun d => ?_, hm, hf, ?_⟩
  · have := dependenciesOf_registerDependency hkx (.inr ⟨e, he⟩) x
    rw [dependenciesOf_effect hm, dependenciesOf_effect he, if_pos rfl] at this
    rw [show m = edgeInsert e.dependencies k.id from this, mem_edgeInsert]
  · simp [Context.observe, modifyEffect, hf]

theorem Sound.effectRead (h : Sound R out c) (hin : ∀ d, ¬ out x d)
    (he : c.nodes x = some (.effect e)) (hrun : RunObserved x c)
    (hread : readTracked refresh x k c = .ok v c1) :
    Sound R out (c1.observe x k.id v) ∧ Frame c (c1.observe x k.id v) ∧
      RunObserved x (c1.observe x k.id v) := by
  obtain ⟨m, f, hrew, hc0, hev, hc1, hg, hv, hmem, hm, hf, hobs⟩ := h.coherent.effectRead he hread
  obtain ⟨e', he'⟩ : ∃ e' : EffectNode τ V, e' = { e with
    dependencies := m, forceRun := f, observed := e.observed ++ [(k.id, v)] } := ⟨_, rfl⟩
  rw [← he'] at hobs
  have hpop : Sound R (fun i d => out i d ∨ i = x) c1 :=
    ((h.popped x).rewires he (fun _ => .inr rfl) hrew hc0).evolves hev
      (hrew.stirs.pendingWrites ▸ hc1)
  have hex : c1.lastDrainExhaustion = c.lastDrainExhaustion := by rw [hev.frame, hrew.frame]
  have hdep : e'.dependencies = m := by rw [he']
  have hsame : SameCells c1 (c1.setNode x (some (.effect e'))) := sameCells_setEffect hf hdep
  have hstirs : Stirs (· = x) c (c1.setNode x (some (.effect e'))) :=
    (hrew.stirs.trans hev.stirs).trans (stirs_setEffect hf (by rw [he']))
  have hwat := fun hn => effectRead_watched hrew hev he hm hmem hf hg hv (hrun.whole e he)
    (fun d => h.watched hn x e d (hin d) he) (fun hmode hef => hrun.hold hmode hn e he hef) he'
  have hlater : e.Later e' := by
    refine ⟨.inr ⟨by rw [he'], ?_, fun d hd => ?_⟩, fun hw p hp => ?_, fun hl d hd => ?_⟩
    · rw [he']
      exact subset_append_left ..
    · rw [hdep]
      exact (hmem d).2 (.inl hd)
    · rw [hdep, hmem]
      rw [he'] at hp
      rcases mem_append.1 hp with hp | hp
      · exact .inl (hw p hp)
      · exact .inr (by rw [mem_singleton.1 hp])
    · rw [hdep, hmem] at hd
      rw [he']
      rcases hd with hd | rfl
      · exact (hl d hd).imp fun v hv => mem_append_left _ hv
      · exact ⟨v, mem_append_right _ mem_cons_self⟩
  rw [hobs]
  have hset := hpop.setEffect hf (fun _ => .inr rfl) hdep (by rw [he'])
  refine ⟨hset.back fun hn e2 d _ he2 => ?_, ?_, fun e2 he2 => ?_, fun hmode hn e2 he2 hff d => ?_⟩
  · rw [setNode_same] at he2
    cases he2
    rw [hstirs.pendingWrites]
    exact ((hwat (hex ▸ hn)).1 d).sameCells hsame rfl
  · exact hstirs.toFrame.fill he (setNode_same ..) hlater
  · rw [setNode_same] at he2
    cases he2
    exact hlater.whole (hrun.whole e he)
  · rw [setNode_same] at he2
    cases he2
    have hmode' : c.revisionMode = true := by
      have : c1.revisionMode = true := hmode
      rw [hev.revisionMode, hrew.frame] at this
      exact this
    intro w hw
    rw [hsame.valueAt]
    exact (hwat (hex ▸ hn)).2 hmode' (by rw [he'] at hff; exact hff) d w hw

end Sound

end Context

end Lazily
