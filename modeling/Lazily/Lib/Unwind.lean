import Mathlib.Tactic.Basic

/-!
# Inversion of computations that return or unwind

`EStateM ε σ` keeps the state when a computation throws, as unwinding does. The lemmas here take a
computation that returned apart into its steps.
-/

namespace Lazily.Lib.Unwind

variable {ε σ α β : Type} {s s' : σ} {x : EStateM ε σ α} {b : β}

theorem bind_eq_ok {f : α → EStateM ε σ β} :
    (x >>= f) s = .ok b s' ↔ ∃ a s1, x s = .ok a s1 ∧ f a s1 = .ok b s' := by
  change EStateM.bind x f s = _ ↔ _
  unfold EStateM.bind
  cases x s with
  | ok a s1 => simp [and_assoc]
  | error e s1 => simp

theorem map_eq_ok {g : α → β} : (g <$> x) s = .ok b s' ↔ ∃ a, x s = .ok a s' ∧ g a = b := by
  change EStateM.map g x s = _ ↔ _
  unfold EStateM.map
  cases x s with
  | ok a s1 => simp [and_assoc, and_comm]
  | error e s1 => simp

theorem pure_eq_ok {a b : α} : (pure a : EStateM ε σ α) s = .ok b s' ↔ a = b ∧ s = s' := by
  change EStateM.Result.ok a s = _ ↔ _
  simp

theorem modify_eq_ok {f : σ → σ} {u : PUnit} :
    (modify f : EStateM ε σ PUnit) s = .ok u s' ↔ f s = s' := by
  change EStateM.Result.ok PUnit.unit (f s) = _ ↔ _
  simp

theorem get_eq_ok {a : σ} : (get : EStateM ε σ σ) s = .ok a s' ↔ s = a ∧ s = s' := by
  change EStateM.Result.ok s s = _ ↔ _
  simp

/-- The computation returns, with a result and a state that satisfy `p`. -/
def Returns (x : EStateM ε σ α) (s : σ) (p : α → σ → Prop) : Prop := ∃ a s', x s = .ok a s' ∧ p a s'

instance (x : EStateM ε σ α) (s : σ) (p : α → σ → Prop) [∀ a s, Decidable (p a s)] :
    Decidable (Returns x s p) :=
  match h : x s with
  | .ok a s' => decidable_of_iff (p a s') (by simp [Returns, h, and_assoc])
  | .error _ _ => isFalse (by simp [Returns, h])

/-- The computation throws an exception that satisfies `p`. -/
def Throws (x : EStateM ε σ α) (s : σ) (p : ε → Prop) : Prop := ∃ e s', x s = .error e s' ∧ p e

instance (x : EStateM ε σ α) (s : σ) (p : ε → Prop) [DecidablePred p] : Decidable (Throws x s p) :=
  match h : x s with
  | .ok _ _ => isFalse (by simp [Throws, h])
  | .error e _ => decidable_of_iff (p e) (by simp [Throws, h])

end Lazily.Lib.Unwind
