import Lazily.Context.Proof.Removal

/-!
# Writes after a disposal

Disposal marks the readers of the node dirty and schedules no effect; a later write stops at cells
that are dirty already. So the write reaches every effect through the cells that are current when it
starts (`write_reaches_effect`), and may miss one below a cell that a disposal left dirty
(`disposal_cuts_effect_off`).
-/

namespace Lazily

open Lib Context List

variable {τ V : Type}

namespace Context

/-- The effect has nothing to catch up with in the cell `d` it depends on: it is not waiting to run,
and the cell is fresh and holds what its latest run read. -/
structure Current (c : Context τ V) (id : SlotId) (e : EffectNode τ V) (d : SlotId) : Prop where
  ran : 0 < e.runs
  unforced : e.forceRun = false
  unscheduled : c.scheduledEffects id = false
  reads : d ∈ e.dependencies
  fresh : c.fresh d = true
  holds : ∀ p ∈ e.observed, p.1 = d → c.valueAt d = some p.2

instance [DecidableEq V] (c : Context τ V) (id : SlotId) (e : EffectNode τ V) (d : SlotId) :
    Decidable (Current c id e d) :=
  decidable_of_iff (0 < e.runs ∧ e.forceRun = false ∧ c.scheduledEffects id = false ∧
    d ∈ e.dependencies ∧ c.fresh d = true ∧ ∀ p ∈ e.observed, p.1 = d → c.valueAt d = some p.2)
    ⟨fun ⟨h₁, h₂, h₃, h₄, h₅, h₆⟩ => ⟨h₁, h₂, h₃, h₄, h₅, h₆⟩,
      fun h => ⟨h.1, h.2, h.3, h.4, h.5, h.6⟩⟩

def isCurrent [DecidableEq V] (c : Context τ V) (id d : SlotId) : Bool :=
  match c.nodes id with
  | some (.effect e) => decide (Current c id e d)
  | _ => false

theorem isCurrent_iff [DecidableEq V] {c : Context τ V} {id d : SlotId} :
    c.isCurrent id d = true ↔ ∃ e, c.nodes id = some (.effect e) ∧ Current c id e d := by
  unfold isCurrent
  split
  · rename_i e he
    simp [he]
  · rename_i hn
    simp only [Bool.false_eq_true, false_iff, not_exists, not_and]
    exact fun e he => absurd he (hn e)

/-- The cell is the other one, or is computed from it. -/
def DependsOn (c : Context τ V) : SlotId → SlotId → Prop :=
  Relation.ReflTransGen fun x d => d ∈ c.dependenciesOf x

/-- The effect has run again, or the cell `d` it depends on has the value that its run had read. -/
def Caught (c' : Context τ V) (e e' : EffectNode τ V) (d : SlotId) : Prop :=
  e.runs < e'.runs ∨ ∃ v, (d, v) ∈ e.observed ∧ FromScratch c' d v

section Current

variable {c c' : Context τ V} {i d : SlotId} {e : EffectNode τ V}

theorem Current.watchedAt {D : SlotId → Prop} (h : Current c i e d) (hc : Coherent D c)
    (hmode : c.revisionMode = false) : WatchedAt D c i e d where
  forced hf := by rw [h.unforced] at hf; cases hf
  settled _ _ := hc.grounded_of_fresh h.fresh
  observed _ _ _ v hv := .inl (h.holds (d, v) hv rfl)
  revision hm := by rw [hmode] at hm; cases hm
  ran _ := h.ran

/-- An effect that is still looked after has caught up once nothing is scheduled for it. -/
theorem Sound.caught {R : EffectFn τ V → Prop} {out : SlotId → SlotId → Prop} (h : Sound R out c')
    (hdepth : c'.batchDepth = 0) (hex : c'.lastDrainExhaustion = none)
    (hmode : c'.revisionMode = false) (hi : ¬ out i d) {e' : EffectNode τ V}
    (he' : c'.nodes i = some (.effect e')) (hoff : c'.scheduledEffects i = false)
    (hlog : e.Logged) (hd : d ∈ e.dependencies) (hl : e.Later e') : Caught c' e e' d := by
  refine hl.runs.imp_right fun ⟨_, hobs, hdeps⟩ => ?_
  obtain ⟨v, hv⟩ := hlog d hd
  have hw := h.watched hex i e' d hi he'
  have hunforced : e'.forceRun = false := by
    by_contra hf
    rw [hw.forced (by simpa using hf)] at hoff
    cases hoff
  have hheld := hw.observed hunforced (fun hm => by rw [hmode] at hm; cases hm) (hdeps hd) v
    (hobs hv)
  refine ⟨v, hv, (h.coherent_outside hdepth).fromScratch (hw.settled hoff (hdeps hd)) ?_⟩
  refine hheld.resolve_right fun hp => ?_
  rw [pendingWrites, hdepth] at hp
  exact absurd hp.1 (Nat.lt_irrefl 0)

end Current

end Context

section Results

variable [DecidableEq τ] [BEq V] [LawfulBEq V]

/-- A write reaches an effect through every cell that is current when it starts, whatever the other
cells of the effect are: the effect runs again before the write returns, unless the cell keeps its
value. -/
theorem write_reaches_effect {ops : List (Op τ V)} {replies : List (Reply τ V)}
    {reply : Reply τ V} {c c' : Context τ V} {k : Source τ} {v : V} {i d : SlotId}
    {e : EffectNode τ V} (hfaithful : ∀ op ∈ ops, op.Faithful)
    (hrun : run ops Context.new = .ok replies c) (hdepth : c.batchDepth = 0)
    (he : c.nodes i = some (.effect e)) (hcur : Current c i e d)
    (hset : step (.set k v) c = .ok reply c') (hex : c'.lastDrainExhaustion = none) :
    ∃ e', c'.nodes i = some (.effect e') ∧ Caught c' e e' d := by
  have : EffectFn.Closed (fun _ : EffectFn τ V => True) := .any
  have h : Standing c := run_standing new_standing hfaithful hrun
  -- from here on this dependency is looked after, and it is the only one
  have hs : Sound (fun _ => True) (fun j d' => ¬(j = i ∧ d' = d)) c :=
    h.sound.fill (fun _ e₂ d' hd' he₂ => by
      obtain ⟨-, rfl⟩ := not_not.1 hd'
      rw [he] at he₂
      cases he₂
      exact hcur.watchedAt h.sound.coherent h.push) fun _ _ hj _ hji => hj hji.1
  obtain ⟨_, hset, -⟩ := Unwind.map_eq_ok.1 hset
  have hk := setSource_keeps flushEffects_spec hs hset
  obtain ⟨e', he', hl⟩ := hk.frame.moves.later i e id he
  have hoff : c'.scheduledEffects i = false :=
    hk.quiet flushEffects_drains h.idle i (fun _ => hcur.unscheduled) hex
  exact ⟨e', he', hk.sound.caught (hk.frame.depth.trans hdepth) hex
    (hk.frame.revisionMode.trans h.push) (fun hi => hi ⟨rfl, rfl⟩) he' hoff (h.logged i e he)
    hcur.reads hl⟩

end Results

/-! ## A cell that reads a disposed one -/

/-- A selector, an input, a cell that reads the input only while the selector is one, and an effect
on the cell; then the input is disposed of. -/
def cutProgram : List (Op Unit Nat) :=
  let selector : Source Unit := ⟨0, 0, ()⟩
  let input : Source Unit := ⟨1, 0, ()⟩
  let switched : Computed Unit := ⟨2, 0, ()⟩
  [.source 1 (), .source 5 (),
    .computed (.read (.source selector) fun s =>
      if s = 1 then .read (.source input) fun v => .ret (s + v) else .ret s) (),
    .effect (.get (.computed switched) fun _ => .done none []),
    .disposeCell input]

/-- The selector is written, the cell is read again, and a second effect drains the queue. -/
def mendedProgram : List (Op Unit Nat) :=
  cutProgram ++ [.set ⟨0, 0, ()⟩ 0, .get (.computed ⟨2, 0, ()⟩), .effect (.done none [])]

theorem mendedProgram_faithful : ∀ op ∈ mendedProgram, op.Faithful := by
  simp [mendedProgram, cutProgram, Op.Faithful]

theorem mendedProgram_returns : Unwind.Returns (run mendedProgram) new fun _ c =>
    c.batchDepth = 0 ∧ c.runsOf 3 = some 2 ∧
      c.isCurrent 3 2 = true ∧ Unwind.Returns (step (.set ⟨0, 0, ()⟩ 7)) c fun _ c' =>
        c'.lastDrainExhaustion = none ∧ c'.runsOf 3 = some 3 := by
  decide +kernel

theorem write_reaches_effect_mended : ∃ replies reply c c' e e',
    run mendedProgram Context.new = .ok replies c ∧ c.nodes 3 = some (.effect e) ∧
      Current c 3 e 2 ∧ step (.set ⟨0, 0, ()⟩ 7) c = .ok reply c' ∧
      c'.nodes 3 = some (.effect e') ∧ e.runs < e'.runs ∧ Caught c' e e' 2 := by
  obtain ⟨replies, c, hrun, hdepth, hruns, hcur, reply, c', hset, hex, hruns'⟩ :=
    mendedProgram_returns
  obtain ⟨e, he, hcur⟩ := isCurrent_iff.1 hcur
  obtain ⟨e', he', hcaught⟩ :=
    write_reaches_effect mendedProgram_faithful hrun hdepth he hcur hset hex
  obtain ⟨e₁, he₁, hr⟩ := runsOf_eq_some.1 hruns
  obtain ⟨e₂, he₂, hr'⟩ := runsOf_eq_some.1 hruns'
  rw [he] at he₁
  cases he₁
  rw [he'] at he₂
  cases he₂
  exact ⟨replies, reply, c, c', e, e', hrun, he, hcur, hset, he', by omega, hcaught⟩

theorem cutProgram_returns : Unwind.Returns (run cutProgram) new fun _ c =>
    c.batchDepth = 0 ∧ c.runsOf 3 = some 1 ∧ c.observedBy 3 = some [(2, 6)] ∧
      c.dependenciesOf 3 = [2] ∧ c.dependenciesOf 2 = [0] ∧
      Unwind.Returns (step (.set ⟨0, 0, ()⟩ 0)) c fun _ c' =>
        c'.lastDrainExhaustion = none ∧ c'.runsOf 3 = some 1 ∧ evalScratch c' 2 2 = some 0 := by
  decide +kernel

/-- The write does not reach the effect: its cell was left dirty by the disposal, and the walk stops
there. The effect depends on the selector, its run read six, and the cell is zero now. -/
theorem disposal_cuts_effect_off : ¬ ∀ (ops : List (Op Unit Nat)) (replies : List (Reply Unit Nat))
    (reply : Reply Unit Nat) (c c' : Context Unit Nat) (k : Source Unit) (v : Nat) (i d : SlotId)
    (e e' : EffectNode Unit Nat), (∀ op ∈ ops, op.Faithful) →
    run ops Context.new = .ok replies c → c.batchDepth = 0 → c.nodes i = some (.effect e) →
    d ∈ e.dependencies → DependsOn c d k.id → step (.set k v) c = .ok reply c' →
    c'.lastDrainExhaustion = none → c'.nodes i = some (.effect e') → Caught c' e e' d := by
  intro h
  obtain ⟨replies, c, hrun, hdepth, hruns, hobs, hdeps, hcell, reply, c', hset, hex, hruns',
    hnow⟩ := cutProgram_returns
  obtain ⟨e, he, hr⟩ := runsOf_eq_some.1 hruns
  obtain ⟨e₁, he₁, ho⟩ := observedBy_eq_some.1 hobs
  obtain ⟨e', he', hr'⟩ := runsOf_eq_some.1 hruns'
  rw [he] at he₁
  cases he₁
  have hd : 2 ∈ e.dependencies := by
    rw [← dependenciesOf_effect he, hdeps]
    exact mem_cons_self
  have hpath : DependsOn c 2 0 := .single (by rw [hcell]; exact mem_cons_self)
  have hfaithful : ∀ op ∈ cutProgram, op.Faithful := fun op hop =>
    mendedProgram_faithful op (mem_append_left _ hop)
  rcases h cutProgram replies reply c c' ⟨0, 0, ()⟩ 0 3 2 e e' hfaithful hrun hdepth he hd hpath
    hset hex he' with hlt | ⟨w, hw, hscratch⟩
  · omega
  · rw [ho, mem_singleton] at hw
    cases hw
    cases fromScratch_unique hscratch ⟨2, hnow⟩

end Lazily
