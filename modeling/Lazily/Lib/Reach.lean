import Mathlib.Data.List.Infix

/-!
# Reachable states and runs

States reached from a start by steps that meet a condition, and the invariant rule; for runs given
as lists of events, the rule by which a property holds throughout a run exactly when every step
meets a condition (`forall_prefix_iff`).
-/

namespace Lazily.Lib

open List

variable {S E : Type}

/-- The states reached from `start` by steps whose event is allowed in the state before. -/
inductive Reach (step : S → E → S) (ok : S → E → Prop) (start : S) : S → Prop
  | start : Reach step ok start start
  | next {s : S} (e : E) : Reach step ok start s → ok s e → Reach step ok start (step s e)

namespace Reach

variable {step : S → E → S} {ok ok' : S → E → Prop} {start s : S}

/-- What holds at the start and is kept by every allowed step holds in every reachable state. -/
theorem invariant (h : Reach step ok start s) {I : S → Prop} (hstart : I start)
    (hstep : ∀ s e, I s → ok s e → I (step s e)) : I s := by
  induction h with
  | start => exact hstart
  | next e _ hok ih => exact hstep _ e ih hok

theorem mono (h : Reach step ok start s) (himp : ∀ s e, ok s e → ok' s e) :
    Reach step ok' start s := by
  induction h with
  | start => exact .start
  | next e _ hok ih => exact .next e ih (himp _ e hok)

end Reach

section Run

variable {step : S → E → S} {start : S} {I P : S → Prop} {ok : S → E → Prop} {es : List E}

/-- What every step keeps holds at the end of a run. -/
theorem foldl_invariant (hstart : I start) (hstep : ∀ s e, I s → I (step s e)) :
    I (es.foldl step start) := by
  induction es generalizing start with
  | nil => exact hstart
  | cons e es ih => exact ih (hstep start e hstart)

/-- Every step of a run meets the condition in the state it is made in. -/
def Allowed (step : S → E → S) (ok : S → E → Prop) : S → List E → Prop
  | _, [] => True
  | s, e :: es => ok s e ∧ Allowed step ok (step s e) es

instance Allowed.decidable [∀ s e, Decidable (ok s e)] :
    ∀ (s : S) (es : List E), Decidable (Allowed step ok s es)
  | _, [] => .isTrue trivial
  | s, e :: es =>
    haveI := Allowed.decidable (step s e) es
    inferInstanceAs (Decidable (_ ∧ _))

theorem Allowed.invariant (h : Allowed step ok start es) (hstart : I start)
    (hstep : ∀ s e, I s → ok s e → I (step s e)) : I (es.foldl step start) := by
  induction es generalizing start with
  | nil => exact hstart
  | cons e es ih => exact ih h.2 (hstep start e hstart h.1)

theorem Allowed.of_prefix (h : Allowed step ok start es) {pre : List E} {e : E}
    (hpre : pre ++ [e] <+: es) : ok (pre.foldl step start) e := by
  induction es generalizing start pre with
  | nil => simp at hpre
  | cons e' es ih =>
    cases pre with
    | nil =>
      obtain ⟨heq, -⟩ := cons_prefix_cons.1 hpre
      exact heq ▸ h.1
    | cons e'' pre =>
      obtain ⟨heq, hpre⟩ := cons_prefix_cons.1 hpre
      exact heq ▸ ih h.2 hpre

/-- An invariant of the steps that meet a condition holds at the end of a run of such steps. -/
theorem run_invariant (ok : S → E → Prop) (hstart : I start)
    (hstep : ∀ s e, I s → ok s e → I (step s e))
    (hok : ∀ pre e, pre ++ [e] <+: es → ok (pre.foldl step start) e) : I (es.foldl step start) := by
  induction es using reverseRecOn with
  | nil => exact hstart
  | append_singleton es e ih =>
    rw [foldl_concat]
    have hpre : es <+: es ++ [e] := prefix_append es [e]
    exact hstep _ e (ih fun pre e' h => hok pre e' (h.trans hpre)) (hok es e prefix_rfl)

/-- `P` holds in every state of a run iff every step of it meets `ok`, when steps that meet `ok`
keep an invariant that implies `P` and the others end in a state where `P` fails. The steps are
those the domain `dom` allows. -/
theorem forall_prefix_iff (dom : S → E → Prop) (hstart : I start) (hI : ∀ s, I s → P s)
    (hkeep : ∀ s e, I s → dom s e → ok s e → I (step s e))
    (hbreak : ∀ s e, I s → dom s e → ¬ok s e → ¬P (step s e))
    (hdom : ∀ pre e, pre ++ [e] <+: es → dom (pre.foldl step start) e) :
    (∀ pre, pre <+: es → P (pre.foldl step start)) ↔
      ∀ pre e, pre ++ [e] <+: es → ok (pre.foldl step start) e := by
  have hinv : ∀ es', es' <+: es → (∀ pre e, pre ++ [e] <+: es' → ok (pre.foldl step start) e) →
      I (es'.foldl step start) := by
    intro es' hes' hok
    refine run_invariant (fun s e => dom s e ∧ ok s e) hstart
      (fun s e hs he => hkeep s e hs he.1 he.2) fun pre e h => ?_
    exact ⟨hdom pre e (h.trans hes'), hok pre e h⟩
  constructor
  · intro hP
    -- along the run: the steps before meet the condition, so the invariant holds before this one
    have hall : ∀ es', es' <+: es → ∀ pre e, pre ++ [e] <+: es' →
        ok (pre.foldl step start) e := by
      intro es'
      induction es' using reverseRecOn with
      | nil =>
        intro _ pre e h
        simp at h
      | append_singleton es' e ih =>
        intro hes' pre e' h
        have hpre : es' <+: es := (prefix_append es' [e]).trans hes'
        rcases prefix_concat_iff.1 h with heq | h
        · obtain ⟨rfl, rfl⟩ := append_singleton_inj.1 heq
          by_contra hno
          refine hbreak _ e' (hinv pre hpre (ih hpre)) (hdom pre e' hes') hno ?_
          have hend := hP _ hes'
          rwa [foldl_concat] at hend
        · exact ih hpre pre e' h
    exact hall es prefix_rfl
  · intro hok pre hpre
    exact hI _ (hinv pre hpre fun pre' e h => hok pre' e (h.trans hpre))

end Run

end Lazily.Lib
