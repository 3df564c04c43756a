import Lazily.Context.Proof.Run

/-!
# Consistency of the push engine

For every program over a fresh push-engine context:

* `get_fromScratch`: a read outside a batch returns the value of the cell from scratch;
* `effects_fresh`: after every operation outside a batch, what each effect read in its latest run is
  the value from scratch of the cell it read, as long as no drain was cut short.
-/

namespace Lazily

open Lib Context

variable {τ V : Type} [DecidableEq τ] [BEq V] [LawfulBEq V]

/-- A program over natural numbers: a selector, an input, a cell that reads the input only while the
selector is positive, its successor, and an effect on both; then a batch that writes both sources, a
clear, and a write behind the selector. -/
def switchProgram : List (Op Unit Nat) :=
  let selector : Source Unit := ⟨0, 0, ()⟩
  let input : Source Unit := ⟨1, 0, ()⟩
  let switched : Computed Unit := ⟨2, 0, ()⟩
  let next : Computed Unit := ⟨3, 0, ()⟩
  [.source 1 (), .source 10 (),
    .computed (.read (.source selector) fun s =>
      if 0 < s then .read (.source input) fun v => .ret v else .ret 0) (),
    .computed (.read (.computed switched) fun v => .ret (v + 1)) (),
    .effect (.get (.computed next) fun _ => .get (.source selector) fun _ => .done none []),
    .beginBatch, .set selector 2, .set input 20, .endBatch,
    .clear switched, .set input 30]

theorem switchProgram_plain : ∀ op ∈ switchProgram, op.Plain := by
  simp [switchProgram, Op.Plain]

theorem switchProgram_returns : Unwind.Returns (run switchProgram) new fun _ c =>
    c.batchDepth = 0 ∧ c.lastDrainExhaustion = none ∧ c.observedBy 4 = some [(3, 31), (0, 2)] ∧
      Unwind.Returns (step (.get (.computed ⟨3, 0, ()⟩))) c fun r _ => r = .value 31 := by
  decide +kernel

/-- A program over a fresh context of the push engine, with any effects. -/
theorem new_atRest {ops : List (Op τ V)} {replies : List (Reply τ V)} {c : Context τ V}
    (hplain : ∀ op ∈ ops, op.Plain) (hrun : run ops new = .ok replies c) :
    AtRest (fun _ => True) c ∧ c.revisionMode = false := by
  have : EffectFn.Closed (fun _ : EffectFn τ V => True) := .any
  exact run_atRest (newImpl_atRest false fun hm => by cases hm) hplain
    (fun op _ => by cases op <;> trivial) (fun hm => by cases hm) hrun

/-- From-scratch consistency: reads through the context and through the handle itself. -/
theorem get_fromScratch {ops : List (Op τ V)} {replies : List (Reply τ V)} {c c' : Context τ V}
    {k : Cell τ} {v : V} (hplain : ∀ op ∈ ops, op.Plain)
    (hrun : run ops Context.new = .ok replies c) (hdepth : c.batchDepth = 0)
    (hget : step (.get k) c = .ok (.value v) c' ∨ step (.readValue k) c = .ok (.value v) c') :
    FromScratch c k.id v := by
  obtain ⟨hrest, -⟩ := new_atRest hplain hrun
  rcases hget with hget | hget
  · obtain ⟨w, hread, hw⟩ := Unwind.map_eq_ok.1 hget
    cases hw
    obtain ⟨hs, hev, hg, hv⟩ := hrest.sound.read hread
    exact hs.fromScratch hev hdepth hg hv
  · obtain ⟨w, hread, hw⟩ := Unwind.map_eq_ok.1 hget
    cases hw
    obtain ⟨hc, hev, hg, hv⟩ := readValueUntracked_spec hrest.sound.coherent hread
    exact (hrest.sound.evolves hev hc).fromScratch hev hdepth hg hv

theorem get_fromScratch_switchProgram : ∃ replies c c',
    run switchProgram Context.new = .ok replies c ∧ c.batchDepth = 0 ∧
      step (.get (.computed ⟨3, 0, ()⟩)) c = .ok (.value 31) c' ∧ FromScratch c 3 31 := by
  obtain ⟨replies, c, hrun, hdepth, -, -, hget⟩ := switchProgram_returns
  obtain ⟨r, c', hget, rfl⟩ := hget
  exact ⟨replies, c, c', hrun, hdepth, hget,
    get_fromScratch (k := .computed ⟨3, 0, ()⟩) switchProgram_plain hrun hdepth (.inl hget)⟩

/-- Effect freshness. -/
theorem effects_fresh {ops : List (Op τ V)} {replies : List (Reply τ V)} {c : Context τ V}
    (hplain : ∀ op ∈ ops, op.Plain) (hrun : run ops Context.new = .ok replies c)
    (hdepth : c.batchDepth = 0) (hex : c.lastDrainExhaustion = none) {i : SlotId}
    {e : EffectNode τ V} (he : c.nodes i = some (.effect e)) :
    0 < e.runs ∧ ∀ p ∈ e.observed, FromScratch c p.1 p.2 := by
  obtain ⟨hrest, hmode⟩ := new_atRest hplain hrun
  exact hrest.observed hdepth hex he fun hm => by
    rw [hmode] at hm
    cases hm

theorem effects_fresh_switchProgram : ∃ replies c e,
    run switchProgram Context.new = .ok replies c ∧ c.batchDepth = 0 ∧
      c.lastDrainExhaustion = none ∧ c.nodes 4 = some (.effect e) ∧
      e.observed = [(3, 31), (0, 2)] ∧ 0 < e.runs ∧ ∀ p ∈ e.observed, FromScratch c p.1 p.2 := by
  obtain ⟨replies, c, hrun, hdepth, hex, hobs, -⟩ := switchProgram_returns
  obtain ⟨e, he, hobs⟩ := observedBy_eq_some.1 hobs
  exact ⟨replies, c, e, hrun, hdepth, hex, he, hobs,
    effects_fresh switchProgram_plain hrun hdepth hex he⟩

end Lazily
