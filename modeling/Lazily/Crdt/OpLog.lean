import Lazily.Crdt.Clock
import Lazily.Lib.Watermark
import Mathlib.Data.List.Sort

/-!
# The causal op log

`OpLog` stores ops under their stamps and advertises the highest stamp per peer. A requester asks
with its frontier (`missingSince`), and applies what comes back (`applyRemote`) once per stamp, in
stamp order. The frontier is a maximum: it says nothing about the ops below it. Logs only grow
(`extends_applyRemote`).
-/

namespace Lazily.Crdt

open Lib List Std.ExtTreeMap

/-- The highest stamp observed from each peer. -/
abbrev StampFrontier := Watermark HlcStamp

/-- A causal op log; its frontier is the highest stamp stored of each peer. -/
structure OpLog (Op : Type) where
  ops : Std.ExtTreeMap HlcStamp Op
  frontier : StampFrontier
  tight : ∀ p t, frontier.Covers p t ↔ ∃ s, s ∈ ops ∧ s.peer = p ∧ t ≤ s

namespace OpLog

variable {Op σ : Type}

def new : OpLog Op where
  ops := ∅
  frontier := ∅
  tight p t := by simpa using Watermark.not_covers_empty p t

variable (log : OpLog Op) (stamp : HlcStamp)

def store (op : Op) : OpLog Op where
  ops := log.ops.insert stamp op
  frontier := (log.frontier.observe stamp.peer stamp).1
  tight p t := by
    simp only [Watermark.covers_observe, log.tight, Std.ExtTreeMap.mem_insert,
      Std.LawfulEqCmp.compare_eq_iff_eq]
    constructor
    · rintro (⟨s, hs, hp, ht⟩ | ⟨rfl, ht⟩)
      · exact ⟨s, .inr hs, hp, ht⟩
      · exact ⟨stamp, .inl rfl, rfl, ht⟩
    · rintro ⟨s, rfl | hs, hp, ht⟩
      · exact .inr ⟨hp.symm, ht⟩
      · exact .inl ⟨s, hs, hp, ht⟩

def record (op : Op) : OpLog Op × Bool :=
  if stamp ∈ log.ops then (log, false) else (log.store stamp op, true)

/-- Every op that a peer described by `since` has not observed, in stamp order. -/
def missingSince (since : StampFrontier) : List (HlcStamp × Op) :=
  log.ops.toList.filter fun e =>
    match since[e.1.peer]? with
    | some seen => seen < e.1
    | none => true

variable (apply : σ → HlcStamp → Op → σ)

/-- One round of `applyRemote`: an op whose stamp is stored already is skipped. -/
def applyOne (acc : OpLog Op × σ × Nat) (e : HlcStamp × Op) : OpLog Op × σ × Nat :=
  if e.1 ∈ acc.1.ops then acc
  else (acc.1.store e.1 e.2, apply acc.2.1 e.1 e.2, acc.2.2 + 1)

/-- Fold remote ops into the application state, each stamp once and in stamp order. -/
def applyRemote (ops : List (HlcStamp × Op)) (apply : σ → HlcStamp → Op → σ)
    (s : σ) : OpLog Op × σ × Nat :=
  (ops.insertionSort fun a b => a.1 ≤ b.1).foldl (applyOne apply) (log, s, 0)

/-! ## What the operations store -/

variable {log : OpLog Op}

theorem mem_iff_exists {s : HlcStamp} : s ∈ log.ops ↔ ∃ op, log.ops[s]? = some op := by
  rw [mem_iff_isSome_getElem?, Option.isSome_iff_exists]

theorem mem_missingSince {since : StampFrontier} {s : HlcStamp} {op : Op} :
    (s, op) ∈ log.missingSince since ↔ log.ops[s]? = some op ∧ ¬since.Covers s.peer s := by
  unfold missingSince Watermark.Covers
  rw [mem_filter, ← mem_toList_iff_getElem?_eq_some]
  refine and_congr_right fun _ => ?_
  cases since[s.peer]? with
  | none => simp
  | some seen => simp

theorem getElem?_store (op : Op) (s : HlcStamp) :
    (log.store stamp op).ops[s]? = if stamp = s then some op else log.ops[s]? := by
  simp [store, Std.ExtTreeMap.getElem?_insert]

theorem record_fresh {stamp : HlcStamp} (h : stamp ∉ log.ops) (op : Op) :
    (log.record stamp op).1 = log.store stamp op := by
  simp only [record, if_neg h]

theorem getElem?_record (op : Op) (s : HlcStamp) : (log.record stamp op).1.ops[s]? =
      if stamp = s ∧ stamp ∉ log.ops then some op else log.ops[s]? := by
  unfold record
  by_cases h : stamp ∈ log.ops
  · simp [h]
  · simp only [h, if_false, not_false_eq_true, and_true]
    exact getElem?_store stamp op s

/-- What holds of a log after every op of a batch: nothing is lost, each stamp of the batch is
stored, and nothing else comes in. -/
structure Extends (log log' : OpLog Op) (batch : List (HlcStamp × Op)) : Prop where
  keeps : ∀ (s : HlcStamp) op, log.ops[s]? = some op → log'.ops[s]? = some op
  stores : ∀ e ∈ batch, e.1 ∈ log'.ops
  only : ∀ (s : HlcStamp) op, log'.ops[s]? = some op → log.ops[s]? = some op ∨ (s, op) ∈ batch

theorem Extends.refl (log : OpLog Op) : log.Extends log [] :=
  ⟨fun _ _ h => h, by simp, fun _ _ h => .inl h⟩

theorem extends_applyOne (acc : OpLog Op × σ × Nat)
    (e : HlcStamp × Op) : acc.1.Extends (applyOne apply acc e).1 [e] := by
  unfold applyOne
  split
  · rename_i hmem
    exact ⟨fun _ _ h => h, by simpa using hmem, fun _ _ h => .inl h⟩
  · rename_i hmem
    refine ⟨fun s op h => ?_, ?_, fun s op h => ?_⟩
    · rw [getElem?_store, if_neg]
      · exact h
      · rintro rfl
        simp [mem_iff_isSome_getElem?, h] at hmem
    · simp [store]
    · rw [getElem?_store] at h
      split at h
      · rename_i heq
        cases h
        exact .inr (by simp [← heq])
      · exact .inl h

theorem Extends.trans {log' log'' : OpLog Op} {xs ys : List (HlcStamp × Op)}
    (h : log.Extends log' xs) (h' : log'.Extends log'' ys) : log.Extends log'' (xs ++ ys) := by
  refine ⟨fun s op hs => h'.keeps s op (h.keeps s op hs), fun e he => ?_, fun s op hs => ?_⟩
  · rcases mem_append.1 he with he | he
    · have hstored := h.stores e he
      rw [mem_iff_exists] at hstored ⊢
      obtain ⟨op, hop⟩ := hstored
      exact ⟨op, h'.keeps e.1 op hop⟩
    · exact h'.stores e he
  · rcases h'.only s op hs with hs | hs
    · exact (h.only s op hs).imp_right fun hmem => mem_append_left ys hmem
    · exact .inr (mem_append_right xs hs)

theorem extends_foldl (apply : σ → HlcStamp → Op → σ) :
    ∀ (batch : List (HlcStamp × Op)) (acc : OpLog Op × σ × Nat),
      acc.1.Extends (batch.foldl (applyOne apply) acc).1 batch
  | [], acc => .refl acc.1
  | e :: batch, acc =>
    (extends_applyOne apply acc e).trans (extends_foldl apply batch (applyOne apply acc e))

theorem extends_applyRemote (log : OpLog Op) (batch : List (HlcStamp × Op))
    (apply : σ → HlcStamp → Op → σ) (s : σ) :
    log.Extends (log.applyRemote batch apply s).1 batch := by
  have h := extends_foldl apply (batch.insertionSort fun a b => a.1 ≤ b.1) (log, s, 0)
  refine ⟨h.keeps, fun e he => h.stores e ?_, fun t op ht => ?_⟩
  · exact (mem_insertionSort _).2 he
  · exact (h.only t op ht).imp_right (mem_insertionSort _).1

end OpLog

end Lazily.Crdt
