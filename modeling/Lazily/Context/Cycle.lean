import Lazily.Context.Proof.Removal
import Lazily.Context.Proof.Settle

/-!
# Cycle panics

`get` refreshes the recorded dependencies of a stale cell before it runs the closure. It returns
where these together with the cells that are read now form no cycle (`get_returns`); two cells that
have swapped their roles since they were last run panic although neither evaluation is cyclic
(`get_panics_on_swap`).
-/

namespace Lazily

open Lib Context Relation

variable {τ V : Type}

namespace Context

variable {c : Context τ V} {x : SlotId}

theorem scratchReads_eq {n m : Nat} {v w : V}
    (hn : evalScratch c (n + 1) x = some v) (hm : evalScratch c (m + 1) x = some w) :
    c.scratchReads n x = c.scratchReads m x := by
  wlog hle : n ≤ m generalizing n m v w
  · exact (this hm hn (Nat.le_of_not_le hle)).symm
  unfold evalScratch at hn
  unfold scratchReads
  split at hn
  · rename_i s hs
    simp only [hs]
  · rename_i s hs
    simp only [hs]
    rw [ReadTree.reads_mono (fun k v hk => evalScratch_mono hle hk) hn]
  · cases hn

theorem orderly_of_lt [DecidableEq τ] {fuel n : Nat}
    (h : ∀ y < n, (evalScratch c (fuel + 1) y).isSome = true ∧ (∀ d ∈ c.dependenciesOf y, d < y) ∧
      ∀ k ∈ c.scratchReads fuel y, k.id < y ∧ c.fits k = true) (hx : x < n) : Orderly c x := by
  have hreads : ∀ {y k}, y < n → c.ReadsNow y k → k ∈ c.scratchReads fuel y := by
    rintro y k hy ⟨m, v, hm, hk⟩
    obtain ⟨w, hw⟩ := Option.isSome_iff_exists.1 (h y hy).1
    exact scratchReads_eq hm hw ▸ hk
  have hstep : ∀ {y d}, y < n → Visits c y d → d < y := by
    rintro y d hy ⟨-, hd | ⟨k, hk, rfl⟩⟩
    · exact (h y hy).2.1 d hd
    · exact ((h y hy).2.2 k (hreads hy hk)).1
  have hreach : ∀ {y}, ReflTransGen (Visits c) x y → y < n := fun hy => by
    induction hy with
    | refl => exact hx
    | tail _ hd ih => exact (hstep ih hd).trans ih
  refine ⟨fun y hy hcycle => ?_, fun y hy => ?_, fun y k hy hk => ?_⟩
  · have hdown : ∀ {z}, TransGen (Visits c) y z → z < y := fun hz => by
      induction hz with
      | single hd => exact hstep (hreach hy) hd
      | tail _ hd ih => exact (hstep (ih.trans (hreach hy)) hd).trans ih
    exact Nat.lt_irrefl y (hdown hcycle)
  · obtain ⟨v, hv⟩ := Option.isSome_iff_exists.1 (h y (hreach hy)).1
    exact ⟨v, fuel + 1, hv⟩
  · exact ((h y (hreach hy)).2.2 k (hreads (hreach hy) hk)).2

end Context

section Results

variable [DecidableEq τ] [BEq V] [LawfulBEq V]

/-- A read returns where the recorded dependencies of stale cells and the cells that are read now
form no cycle. -/
theorem get_returns {ops : List (Op τ V)} {replies : List (Reply τ V)} {c : Context τ V}
    {k : Computed τ} {v : V} (hfaithful : ∀ op ∈ ops, op.Faithful)
    (hrun : run ops Context.new = .ok replies c) (hdepth : c.batchDepth = 0)
    (hk : c.fits (.computed k) = true) (hscratch : FromScratch c k.id v) (horder : Orderly c k.id) :
    (∃ c', step (.get (.computed k)) c = .ok (.value v) c') ∧
      ∃ c', step (.readValue (.computed k)) c = .ok (.value v) c' := by
  have : EffectFn.Closed (fun _ : EffectFn τ V => True) := .any
  have h : Standing c := run_standing new_standing hfaithful hrun
  have hc := h.sound.coherent_outside hdepth
  have href := refresh_returns hc h.sound.tidy.released horder
  constructor
  · obtain ⟨w, c', hw⟩ := readUntracked_returns refresh_spec hc hk href
    obtain ⟨hc', hev, hg, hval⟩ := readUntracked_spec refresh_spec hc hw
    cases fromScratch_unique ((fromScratch_congr hev.recipe).1 (hc'.fromScratch hg hval)) hscratch
    exact ⟨c', Unwind.map_eq_ok.2 ⟨v, hw, rfl⟩⟩
  · obtain ⟨w, c', hw⟩ := readValueUntracked_returns refresh_spec hc hk href
    obtain ⟨hc', hev, hg, hval⟩ := readValueUntracked_spec hc hw
    cases fromScratch_unique ((fromScratch_congr hev.recipe).1 (hc'.fromScratch hg hval)) hscratch
    exact ⟨c', Unwind.map_eq_ok.2 ⟨v, hw, rfl⟩⟩

end Results

/-! ## Dependencies that are no longer read -/

/-- A selector, an input cell and a cell that reads the input only under selector zero; it is read,
then the selector is written. -/
def droppedProgram : List (Op Unit Nat) :=
  let selector : Source Unit := ⟨0, 0, ()⟩
  let input : Computed Unit := ⟨1, 0, ()⟩
  let switched : Computed Unit := ⟨2, 0, ()⟩
  [.source 0 (), .computed (.read (.source selector) fun s => .ret (s + 5)) (),
    .computed (.read (.source selector) fun s =>
      if s = 0 then .read (.computed input) fun v => .ret v else .ret 1) (),
    .get (.computed switched), .set selector 1]

theorem droppedProgram_returns : Unwind.Returns (run droppedProgram) new fun _ c =>
    c.batchDepth = 0 ∧ c.fits (.computed ⟨2, 0, ()⟩) = true ∧ evalScratch c 3 2 = some 1 ∧
      c.dependenciesOf 2 = [0, 1] ∧
      ∀ y < 3, (evalScratch c 3 y).isSome = true ∧ (∀ d ∈ c.dependenciesOf y, d < y) ∧
        ∀ k ∈ c.scratchReads 2 y, k.id < y ∧ c.fits k = true := by
  decide +kernel

theorem get_returns_dropped : ∃ replies c c', run droppedProgram Context.new = .ok replies c ∧
    Orderly c 2 ∧ FromScratch c 2 1 ∧ step (.get (.computed ⟨2, 0, ()⟩)) c = .ok (.value 1) c' := by
  obtain ⟨replies, c, hrun, hdepth, hfits, hnow, -, hlt⟩ := droppedProgram_returns
  have horder : Orderly c 2 := orderly_of_lt hlt (by decide)
  have hfaithful : ∀ op ∈ droppedProgram, op.Faithful := by simp [droppedProgram, Op.Faithful]
  obtain ⟨⟨c', hget⟩, -⟩ :=
    get_returns (k := ⟨2, 0, ()⟩) hfaithful hrun hdepth hfits ⟨3, hnow⟩ horder
  exact ⟨replies, c, c', hrun, horder, ⟨3, hnow⟩, hget⟩

/-- Two cells that read each other, each under one value of the selector only; the first is read,
then the selector is written. -/
def swapProgram : List (Op Unit Nat) :=
  let selector : Source Unit := ⟨0, 0, ()⟩
  let first : Computed Unit := ⟨1, 0, ()⟩
  let second : Computed Unit := ⟨2, 0, ()⟩
  [.source 0 (),
    .computed (.read (.source selector) fun s =>
      if s = 0 then .read (.computed second) fun v => .ret v else .ret 1) (),
    .computed (.read (.source selector) fun s =>
      if s = 0 then .ret 5 else .read (.computed first) fun v => .ret v) (),
    .get (.computed first), .set selector 1]

theorem swapProgram_returns : Unwind.Returns (run swapProgram) new fun _ c =>
    c.batchDepth = 0 ∧ evalScratch c 3 2 = some 1 ∧ c.fits (.computed ⟨2, 0, ()⟩) = true ∧
      Unwind.Throws (step (.get (.computed ⟨2, 0, ()⟩))) c (· = .circularDependency 2) := by
  decide +kernel

/-- The second cell evaluates to one without meeting itself, and its `get` panics: the first cell is
refreshed for it, and goes to the second because its previous run had read it. -/
theorem get_panics_on_swap : ¬ ∀ (ops : List (Op Unit Nat)) (replies : List (Reply Unit Nat))
    (c c' : Context Unit Nat) (k : Computed Unit) (v : Nat) (y : SlotId),
    (∀ op ∈ ops, op.Faithful) → run ops Context.new = .ok replies c → c.batchDepth = 0 →
    c.fits (.computed k) = true → FromScratch c k.id v →
    step (.get (.computed k)) c ≠ .error (.circularDependency y) c' := by
  intro h
  obtain ⟨replies, c, hrun, hdepth, hnow, hfits, e, c', hget, rfl⟩ := swapProgram_returns
  have hfaithful : ∀ op ∈ swapProgram, op.Faithful := by simp [swapProgram, Op.Faithful]
  exact h swapProgram replies c c' ⟨2, 0, ()⟩ 1 2 hfaithful hrun hdepth hfits ⟨3, hnow⟩ hget

end Lazily
