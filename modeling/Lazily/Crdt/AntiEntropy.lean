import Lazily.Crdt.OpLog
import Lazily.Lib.Reach

/-!
# Anti-entropy between op logs

Peers record their own ops with increasing stamps and hand each other batches of ops that some log
holds. `missingSince_complete`: if no delivery leaves a gap below an op it brings, an empty
`missingSince` means that nothing is missing. Without that condition the frontier of the receiver
hides the gap for good (`frontier_hides_gap`).
-/

namespace Lazily.Crdt

open Lib OpLog Function List Std.ExtTreeMap

variable {Op : Type}

/-- The logs of all peers. -/
abbrev Logs (Op : Type) := PeerId → OpLog Op

/-- What happens to the logs: an op is recorded by its peer, or a batch of ops arrives. -/
inductive Exchange (Op : Type) where
  | record (peer : PeerId) (stamp : HlcStamp) (op : Op)
  | deliver (receiver : PeerId) (batch : List (HlcStamp × Op))

namespace Logs

def new : Logs Op := fun _ => .new

variable (logs : Logs Op)

def step : Exchange Op → Logs Op
  | .record peer stamp op => Function.update logs peer ((logs peer).record stamp op).1
  | .deliver receiver batch =>
    Function.update logs receiver ((logs receiver).applyRemote batch (fun _ _ _ => ()) ()).1

/-- A peer stamps its own ops in increasing order; a batch holds ops of any logs, in any order and
number. -/
def Allows : Exchange Op → Prop
  | .record peer stamp _ =>
    stamp.peer = peer ∧ ∀ s ∈ (logs peer).ops, s.peer = peer → s < stamp
  | .deliver _ batch => ∀ e ∈ batch, ∃ a, (logs a).ops[e.1]? = some e.2

/-- A delivery brings, with each op, every earlier op of its peer that the receiver lacks. -/
def Gapless : Exchange Op → Prop
  | .record _ _ _ => True
  | .deliver receiver batch =>
    ∀ e ∈ batch, ∀ s ∈ (logs e.1.peer).ops, s.peer = e.1.peer → s < e.1 →
      s ∈ (logs receiver).ops ∨ s ∈ batch.map Prod.fst

/-- Every op is stored by its peer, and every log is closed downwards in the ops of each peer. -/
structure Closed (logs : Logs Op) : Prop where
  owned : ∀ b (s : HlcStamp) op, (logs b).ops[s]? = some op → (logs s.peer).ops[s]? = some op
  closed : ∀ b s, s ∈ (logs b).ops → ∀ t ∈ (logs s.peer).ops, t.peer = s.peer → t < s →
    t ∈ (logs b).ops

variable {logs : Logs Op}
variable {log : OpLog Op} {b : PeerId} {s : HlcStamp} {batch : List (HlcStamp × Op)} {op : Op}

theorem forall_mem_iff {P : HlcStamp → Prop} :
    (∀ s ∈ log.ops, P s) ↔ ∀ e ∈ log.ops.toList, P e.1 := by
  constructor
  · intro h e he
    exact h e.1 (mem_iff_exists.2 ⟨e.2, mem_toList_iff_getElem?_eq_some.1 he⟩)
  · intro h s hs
    obtain ⟨op, hop⟩ := mem_iff_exists.1 hs
    exact h (s, op) (mem_toList_iff_getElem?_eq_some.2 hop)

variable (h : logs.Closed)
include h

theorem Closed.owner (hs : s ∈ (logs b).ops) : s ∈ (logs s.peer).ops := by
  obtain ⟨op, hop⟩ := mem_iff_exists.1 hs
  exact mem_iff_exists.2 ⟨op, h.owned b s op hop⟩

omit h in
theorem closed_new : (new : Logs Op).Closed := by
  refine ⟨fun b s op h => ?_, fun b s h => ?_⟩
  · simp [new, OpLog.new] at h
  · simp [new, OpLog.new] at h

section

variable (hext : (logs b).Extends log batch)
include hext

omit h in
theorem getElem?_update {c : PeerId}
    (hs : (logs c).ops[s]? = some op) : (update logs b log c).ops[s]? = some op := by
  by_cases hc : c = b
  · subst hc
    rw [update_self]
    exact hext.keeps s op hs
  · rwa [update_of_ne hc]

section

variable (hheld : ∀ e ∈ batch, ∃ a, (logs a).ops[e.1]? = some e.2)
include hheld

theorem Closed.own_of_deliver (hs : log.ops[s]? = some op) : (logs s.peer).ops[s]? = some op := by
  rcases hext.only s op hs with hs | hs
  · exact h.owned b s op hs
  · obtain ⟨a, ha⟩ := hheld _ hs
    exact h.owned a s op ha

theorem Closed.own_of_update {c : PeerId}
    (hs : (update logs b log c).ops[s]? = some op) : (logs s.peer).ops[s]? = some op := by
  by_cases hc : c = b
  · subst hc
    rw [update_self] at hs
    exact h.own_of_deliver hext hheld hs
  · rw [update_of_ne hc] at hs
    exact h.owned c s op hs

end

theorem Closed.deliver
    (hheld : logs.Allows (.deliver b batch)) (hgap : logs.Gapless (.deliver b batch)) :
    Closed (update logs b log) := by
  refine ⟨fun c s op hs => getElem?_update hext (h.own_of_update hext hheld hs),
    fun c s hs t ht hp hlt => ?_⟩
  have ht' : t ∈ (logs s.peer).ops := by
    obtain ⟨op, hop⟩ := mem_iff_exists.1 ht
    exact mem_iff_exists.2 ⟨op, hp ▸ h.own_of_update hext hheld hop⟩
  by_cases hc : c = b
  · subst hc
    rw [update_self] at hs ⊢
    have hkeeps : t ∈ (logs c).ops → t ∈ log.ops := by
      intro htc
      obtain ⟨op, hop⟩ := mem_iff_exists.1 htc
      exact mem_iff_exists.2 ⟨op, hext.keeps t op hop⟩
    obtain ⟨op, hop⟩ := mem_iff_exists.1 hs
    -- an op the receiver had is covered by the invariant, an op of the batch by the condition
    rcases hext.only s op hop with hs | hs
    · exact hkeeps (h.closed c s (mem_iff_exists.2 ⟨op, hs⟩) t ht' hp hlt)
    · rcases hgap _ hs t ht' hp hlt with ht | ht
      · exact hkeeps ht
      · obtain ⟨e, he, rfl⟩ := mem_map.1 ht
        exact hext.stores e he
  · rw [update_of_ne hc] at hs ⊢
    exact h.closed c s hs t ht' hp hlt

end

theorem Closed.record {p : PeerId} {stamp : HlcStamp}
    (hok : logs.Allows (.record p stamp op)) : (logs.step (.record p stamp op)).Closed := by
  obtain ⟨rfl, hlast⟩ := hok
  have hnew : stamp ∉ (logs stamp.peer).ops := fun hmem => lt_irrefl _ (hlast stamp hmem rfl)
  have hget : ∀ c s, (logs.step (.record stamp.peer stamp op) c).ops[s]? =
      if c = stamp.peer ∧ stamp = s then some op else (logs c).ops[s]? := by
    intro c s
    by_cases hc : c = stamp.peer
    · subst hc
      simp only [step, update_self, getElem?_record, hnew, not_false_eq_true, and_true, true_and]
    · simp [step, hc]
  have hmem : ∀ c s, s ∈ (logs.step (.record stamp.peer stamp op) c).ops ↔
      c = stamp.peer ∧ stamp = s ∨ s ∈ (logs c).ops := by
    intro c s
    rw [mem_iff_exists, mem_iff_exists, hget]
    split <;> simp [*]
  refine ⟨fun b s op' hs => ?_, fun b s hs t ht hp hlt => ?_⟩
  · rw [hget] at hs ⊢
    split at hs
    · rename_i heq
      obtain ⟨rfl, rfl⟩ := heq
      simpa using hs
    · have hold := h.owned b s op' hs
      rw [if_neg]
      · exact hold
      · rintro ⟨hp, rfl⟩
        exact hnew (mem_iff_exists.2 ⟨op', hold⟩)
  · rw [hmem] at hs ht ⊢
    rcases hs with ⟨rfl, rfl⟩ | hs
    · exact ht
    · rcases ht with ⟨hsp, rfl⟩ | ht
      · -- the new stamp is above all stamps of its peer, so it opens no gap
        have hown := h.owner hs
        rw [hsp] at hown
        exact absurd hlt (lt_asymm (hlast s hown hsp))
      · exact .inr (h.closed b s hs t ht hp hlt)

theorem Closed.step {e : Exchange Op} (hok : logs.Allows e)
    (hgap : logs.Gapless e) : (logs.step e).Closed := by
  cases e with
  | record p stamp op => exact h.record hok
  | deliver b batch => exact h.deliver (extends_applyRemote ..) hok hgap

/-- An op that the frontier of a closed log covers is stored. -/
theorem Closed.of_covers {a : PeerId} (hs : (logs a).ops[s]? = some op)
    (hcov : (logs b).frontier.Covers s.peer s) : (logs b).ops[s]? = some op := by
  have hown := h.owned a s op hs
  obtain ⟨t, ht, hp, hle⟩ := ((logs b).tight s.peer s).1 hcov
  have hmem : s ∈ (logs b).ops := by
    rcases lt_or_eq_of_le hle with hlt | rfl
    · exact h.closed b t ht s (hp ▸ mem_iff_exists.2 ⟨op, hown⟩) hp.symm hlt
    · exact ht
  obtain ⟨op', hop'⟩ := mem_iff_exists.1 hmem
  have hown' := h.owned b s op' hop'
  rw [hown] at hown'
  cases hown'
  exact hop'

end Logs

open Logs

/-- **Completeness of anti-entropy.** If every delivery was gapless, an empty `missingSince` means
that nothing is missing, and applying it leaves nothing missing. -/
theorem missingSince_complete {logs : Logs Op}
    (h : Reach Logs.step (fun logs e => logs.Allows e ∧ logs.Gapless e) .new logs) (a b : PeerId) :
    ((logs a).missingSince (logs b).frontier = [] →
      ∀ (s : HlcStamp) op, (logs a).ops[s]? = some op → (logs b).ops[s]? = some op) ∧
    ∀ (s : HlcStamp) op, (logs a).ops[s]? = some op →
      ((logs b).applyRemote ((logs a).missingSince (logs b).frontier)
        (fun _ _ _ => ()) ()).1.ops[s]? = some op := by
  have hclosed : logs.Closed := h.invariant closed_new fun logs e hI hok => hI.step hok.1 hok.2
  refine ⟨fun hempty s op hs => ?_, fun s op hs => ?_⟩
  · refine hclosed.of_covers hs ?_
    by_contra hcov
    have hmissing := mem_missingSince.2 ⟨hs, hcov⟩
    rw [hempty] at hmissing
    cases hmissing
  · have hext := extends_applyRemote (logs b) ((logs a).missingSince (logs b).frontier)
      (fun _ _ _ => ()) ()
    by_cases hcov : (logs b).frontier.Covers s.peer s
    · exact hext.keeps s op (hclosed.of_covers hs hcov)
    · have hmissing := mem_missingSince.2 ⟨hs, hcov⟩
      obtain ⟨op', hop'⟩ := mem_iff_exists.1 (hext.stores _ hmissing)
      -- whichever of the two copies is stored, it is the op its peer recorded
      have hsame := hclosed.own_of_deliver hext (fun e he => ⟨a, (mem_missingSince.1 he).1⟩) hop'
      rw [hclosed.owned a s op hs] at hsame
      cases hsame
      exact hop'

def twoOps : Logs Nat := (new.step (.record 1 ⟨1, 0, 1⟩ 10)).step (.record 1 ⟨2, 0, 1⟩ 20)

theorem reach_twoOps :
    Reach Logs.step (fun logs e => logs.Allows e ∧ logs.Gapless e) .new twoOps := by
  have hfirst : (new : Logs Nat).Allows (.record 1 ⟨1, 0, 1⟩ 10) :=
    ⟨rfl, forall_mem_iff.2 (by decide +kernel)⟩
  have hsecond : (new.step (.record 1 ⟨1, 0, 1⟩ 10)).Allows (.record 1 ⟨2, 0, 1⟩ 20) :=
    ⟨rfl, forall_mem_iff.2 (by decide +kernel)⟩
  have hone : Reach Logs.step (fun logs e => logs.Allows e ∧ logs.Gapless e) .new
      (new.step (.record 1 ⟨1, 0, 1⟩ 10)) := Reach.start.next _ ⟨hfirst, trivial⟩
  exact hone.next _ ⟨hsecond, trivial⟩

/-- Peer 2 receives both ops in one batch, the later one first. -/
theorem missingSince_complete_batch :
    let logs := twoOps.step (.deliver 2 [(⟨2, 0, 1⟩, 20), (⟨1, 0, 1⟩, 10)])
    ∀ (s : HlcStamp) op, (logs 1).ops[s]? = some op → (logs 2).ops[s]? = some op := by
  intro logs
  have hheld : twoOps.Allows (.deliver 2 [(⟨2, 0, 1⟩, 20), (⟨1, 0, 1⟩, 10)]) := by
    simp only [Allows, forall_mem_cons]
    exact ⟨⟨1, by decide +kernel⟩, ⟨1, by decide +kernel⟩, by simp⟩
  have hgap : twoOps.Gapless (.deliver 2 [(⟨2, 0, 1⟩, 20), (⟨1, 0, 1⟩, 10)]) := by
    simp only [Gapless, forall_mem_cons]
    exact ⟨forall_mem_iff.2 (by decide +kernel), forall_mem_iff.2 (by decide +kernel), by simp⟩
  exact (missingSince_complete (reach_twoOps.next _ ⟨hheld, hgap⟩) 1 2).1 (by decide +kernel)

/-- Peer 2 receives only the later op: its frontier covers the earlier one, which peer 1 then never
offers again. -/
theorem frontier_hides_gap :
    let logs := twoOps.step (.deliver 2 [(⟨2, 0, 1⟩, 20)])
    Reach Logs.step Logs.Allows .new logs ∧ (logs 1).missingSince (logs 2).frontier = [] ∧
      (logs 1).ops[(⟨1, 0, 1⟩ : HlcStamp)]? = some 10 ∧
      (logs 2).ops[(⟨1, 0, 1⟩ : HlcStamp)]? = none := by
  intro logs
  have hheld : twoOps.Allows (.deliver 2 [(⟨2, 0, 1⟩, 20)]) := by
    simp only [Allows, forall_mem_cons]
    exact ⟨⟨1, by decide +kernel⟩, by simp⟩
  exact ⟨(reach_twoOps.mono fun _ _ h => h.1).next _ hheld, by decide +kernel, by decide +kernel,
    by decide +kernel⟩

end Lazily.Crdt
