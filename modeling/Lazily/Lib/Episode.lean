import Mathlib.Algebra.Ring.Nat
import Mathlib.Data.List.Induction
import Mathlib.Data.List.Nodup

/-!
# Episodes of a log

In a log of events, the event `o` opens an episode unless one is open, and an event of `ends` closes
the episode that is open. `tally` counts the episodes by how they began and ended; every episode
that was opened has been closed once, or is still open (`Tally.balance`). `sinceStep` is the same
along a run whose steps open and close the episode.
-/

namespace Lazily.Lib

open List Function

variable {ε : Type}

/-- What has happened so far: whether an episode is open, how many were opened, and how many each
event has closed. -/
structure Tally (ε : Type) where
  isOpen : Bool
  opened : Nat
  closed : ε → Nat

variable [DecidableEq ε] (o : ε) (ends : List ε)

namespace Tally

def empty : Tally ε := ⟨false, 0, fun _ => 0⟩

def step (t : Tally ε) (e : ε) : Tally ε :=
  if e = o then { t with isOpen := true, opened := if t.isOpen then t.opened else t.opened + 1 }
  else if e ∈ ends ∧ t.isOpen then
    { t with isOpen := false, closed := Function.update t.closed e (t.closed e + 1) }
  else t

end Tally

def tally (log : List ε) : Tally ε := log.foldl (Tally.step o ends) .empty

def since (log : List ε) : Bool := (tally o ends log).isOpen

variable {o ends} {log more : List ε} {e : ε}

@[simp] theorem tally_append (e : ε) : tally o ends (log ++ [e]) =
    (tally o ends log).step o ends e := by
  simp [tally]

theorem since_append (e : ε) : since o ends (log ++ [e]) =
    if e = o then true else if e ∈ ends then false else since o ends log := by
  rw [since, tally_append, Tally.step]
  split
  · rfl
  · by_cases he : e ∈ ends <;> cases hopen : (tally o ends log).isOpen <;> simp [since, he, hopen]

theorem since_append_of_ne (ho : e ≠ o) (hends : e ∉ ends) :
    since o ends (log ++ [e]) = since o ends log := by
  rw [since_append, if_neg ho, if_neg hends]

/-- Events that have nothing to do with the episode. -/
theorem since_append_frame (h : ∀ e ∈ more, e ≠ o ∧ e ∉ ends) :
    since o ends (log ++ more) = since o ends log := by
  induction more using reverseRecOn with
  | nil => rw [append_nil]
  | append_singleton more e ih =>
    have he := h e (by simp)
    rw [← append_assoc, since_append_of_ne he.1 he.2]
    exact ih fun x hx => h x (mem_append_left _ hx)

/-- Events that do not open an episode, with one among them that closes it. -/
theorem since_append_closed (ho : ∀ x ∈ more, x ≠ o) (he : e ∈ more)
    (hends : e ∈ ends) : since o ends (log ++ more) = false := by
  induction more using reverseRecOn with
  | nil => cases he
  | append_singleton more x ih =>
    rw [← append_assoc, since_append, if_neg (ho x (by simp))]
    split
    · rfl
    · rename_i hx
      have hmem : e ∈ more := by
        rcases mem_append.1 he with h | h
        · exact h
        · rw [mem_singleton] at h
          exact absurd (h ▸ hends) hx
      exact ih (fun y hy => ho y (mem_append_left _ hy)) hmem

/-- Fewer events that close an episode: more of it is open. -/
theorem since_mono {fewer : List ε} (hsub : ∀ e ∈ fewer, e ∈ ends) (h : since o ends log = true) :
    since o fewer log = true := by
  induction log using reverseRecOn with
  | nil => exact h
  | append_singleton log e ih =>
    rw [since_append] at h ⊢
    by_cases ho : e = o
    · rw [if_pos ho]
    · rw [if_neg ho] at h ⊢
      by_cases he : e ∈ ends
      · rw [if_pos he] at h
        cases h
      · rw [if_neg he] at h
        rw [if_neg fun hf => he (hsub e hf)]
        exact ih h

/-- Each episode that was opened has been closed by one event, or is open. -/
theorem Tally.balance (hnodup : ends.Nodup) (log : List ε) : (tally o ends log).opened =
      (ends.map (tally o ends log).closed).sum + (since o ends log).toNat := by
  induction log using reverseRecOn with
  | nil => simp [tally, empty, since]
  | append_singleton log e ih =>
    rw [since] at ih ⊢
    rw [tally_append, Tally.step]
    by_cases he : e = o
    · rw [if_pos he]
      cases hopen : (tally o ends log).isOpen <;> simp [ih, hopen]
    · rw [if_neg he]
      split
      · rename_i hend
        have hsum : (ends.map (update (tally o ends log).closed e
            ((tally o ends log).closed e + 1))).sum =
            (ends.map (tally o ends log).closed).sum + 1 := sum_update hnodup hend.1
        simp only [hsum, ih, hend.2, Bool.toNat_true, Bool.toNat_false, Nat.add_zero]
      · exact ih
where
  sum_update {ends : List ε} {e : ε} {f : ε → Nat} (hnodup : ends.Nodup) (he : e ∈ ends) :
      (ends.map (update f e (f e + 1))).sum = (ends.map f).sum + 1 := by
    induction ends with
    | nil => cases he
    | cons a ends ih =>
      rw [nodup_cons] at hnodup
      rw [map_cons, map_cons, sum_cons, sum_cons]
      rcases mem_cons.1 he with rfl | he
      · have hrest : ends.map (update f e (f e + 1)) = ends.map f :=
          map_congr_left fun a ha =>
            update_of_ne (fun h => hnodup.1 (by rw [← h]; exact ha)) ..
        rw [hrest, update_self]
        omega
      · have hne : a ≠ e := fun h => hnodup.1 (by rw [h]; exact he)
        rw [ih hnodup.2 he, update_of_ne hne]
        omega

/-- An event that only ever comes while an episode is open closes one each time. -/
theorem Tally.closed_eq_count (he : e ∈ ends) (ho : e ≠ o)
    (hopen : ∀ before, before ++ [e] <+: log → since o ends before = true) :
    (tally o ends log).closed e = log.count e := by
  induction log using reverseRecOn with
  | nil => rfl
  | append_singleton log a ih =>
    have ih := ih fun before hbefore => hopen before (hbefore.trans (prefix_append ..))
    rw [tally_append, count_append, ← ih, Tally.step]
    by_cases ha : a = e
    · subst ha
      have hbefore : (tally o ends log).isOpen = true := hopen log prefix_rfl
      rw [if_neg ho, if_pos ⟨he, hbefore⟩]
      simp
    · have hcount : [a].count e = 0 := by simp [ha]
      rw [hcount]
      split
      · rfl
      · split
        · exact update_of_ne (Ne.symm ha) ..
        · rfl

/-! ## Episodes of a run -/

section Run

variable {S E : Type} {step : S → E → S} {opens closes : S → E → Bool}

/-- Whether an episode is open after a run, by what the state before each step says of it. -/
def sinceStep (step : S → E → S) (opens closes : S → E → Bool) : Bool → S → List E → Bool
  | isOpen, _, [] => isOpen
  | isOpen, s, e :: es =>
    sinceStep step opens closes (opens s e || !closes s e && isOpen) (step s e) es

theorem eq_sinceStep (flag : S → Bool)
    (hstep : ∀ s e, flag (step s e) = (opens s e || !closes s e && flag s)) (es : List E) :
    ∀ s, flag (es.foldl step s) = sinceStep step opens closes (flag s) s es := by
  induction es with
  | nil => exact fun _ => rfl
  | cons e es ih =>
    intro s
    rw [foldl_cons, ih, hstep]
    rfl

end Run

end Lazily.Lib
