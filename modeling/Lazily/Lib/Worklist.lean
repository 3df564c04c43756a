import Mathlib.Algebra.Ring.Nat
import Mathlib.Data.List.Basic

/-!
# Worklist walks

`Worklist.run visit fuel s stack` pops items off a stack until it is empty: `visit` handles the
popped item in the current state and returns the items to push, in push order (the last one pushed
is the next one popped).

`Worklist.drain` is the same with a queue: items are popped at the front and pushed at the back.

`run_spec` is the rule the walks below are verified with: an invariant `P` over the state and the
remaining items, and a potential `μ` of the state that pays for every push. The potential also gives
the number of iterations after which nothing is left, so the fuel is no restriction.
`add_sum_range_le` and `sum_range_le_mul` are for potentials that are sums over a numbered store.

`popQueue` takes the next item off a queue in which items that are no longer wanted stay behind.
-/

namespace Lazily.Lib

open List

variable {σ ι : Type} {visit : ι → σ → σ × List ι}

/-! ## Queues with tombstones -/

/-- The first item that is still wanted, and what follows it. -/
def popQueue (wanted : ι → Bool) : List ι → Option (ι × List ι)
  | [] => none
  | i :: rest => if wanted i then some (i, rest) else popQueue wanted rest

section

variable {wanted : ι → Bool} {x : ι} {rest : List ι}

theorem popQueue_some : ∀ {l : List ι}, popQueue wanted l = some (x, rest) →
    wanted x = true ∧ ∀ i ∈ l, wanted i = true → i ≠ x → i ∈ rest
  | i :: l, h => by
    unfold popQueue at h
    split at h
    · rename_i hw
      cases h
      exact ⟨hw, fun i hi _ hne => (mem_cons.1 hi).resolve_left hne⟩
    · rename_i hw
      obtain ⟨hx, hrest⟩ := popQueue_some h
      refine ⟨hx, fun i hi hwi hne => ?_⟩
      rcases mem_cons.1 hi with rfl | hi
      · exact absurd hwi hw
      · exact hrest i hi hwi hne

theorem fst_popQueue (wanted : ι → Bool) :
    ∀ l : List ι, (popQueue wanted l).map Prod.fst = l.find? wanted
  | [] => rfl
  | i :: l => by
    unfold popQueue
    split <;> simp_all [fst_popQueue wanted l]

theorem popQueue_none {l : List ι} (h : popQueue wanted l = none) :
    ∀ i ∈ l, wanted i = false := by
  have hnone := fst_popQueue wanted l
  rw [h] at hnone
  simpa using find?_eq_none.1 hnone.symm

theorem popQueue_length : ∀ {l : List ι}, popQueue wanted l = some (x, rest) →
    rest.length < l.length
  | i :: l, h => by
    unfold popQueue at h
    split at h
    · cases h
      simp
    · have hlt := popQueue_length h
      simp only [length_cons]
      omega

end

namespace Worklist

/-- Pop, visit, push, until the stack is empty (or the fuel is spent). -/
def run (visit : ι → σ → σ × List ι) : Nat → σ → List ι → σ
  | 0, s, _ => s
  | _ + 1, s, [] => s
  | fuel + 1, s, i :: rest => run visit fuel (visit i s).1 ((visit i s).2.reverse ++ rest)

@[simp] theorem run_nil (visit : ι → σ → σ × List ι) (fuel : Nat) (s : σ) :
    run visit fuel s [] = s := by
  cases fuel <;> rfl

/-- The invariant of a walk holds at its end, with nothing left on the stack. -/
theorem run_spec (P : σ → List ι → Prop) (μ : σ → Nat)
    (hstep : ∀ s i rest, P s (i :: rest) → P (visit i s).1 ((visit i s).2.reverse ++ rest) ∧
      (visit i s).2.length + μ (visit i s).1 ≤ μ s) :
    ∀ fuel s stack, P s stack → stack.length + μ s ≤ fuel → P (run visit fuel s stack) []
  | 0, s, stack, h, hf => by
    have : stack = [] := length_eq_zero_iff.1 (by omega)
    subst this
    exact h
  | fuel + 1, s, [], h, _ => h
  | fuel + 1, s, i :: rest, h, hf => by
    obtain ⟨hP, hμ⟩ := hstep s i rest h
    refine run_spec P μ hstep fuel _ _ hP ?_
    simp only [length_append, length_reverse, length_cons] at hf ⊢
    omega

/-- Two walks in step: what the one visits, the other visits in the image of its state. -/
theorem run_map {ρ : Type} {visit' : ι → ρ → ρ × List ι} {g : σ → ρ} (P : σ → List ι → Prop)
    (hstep : ∀ s i rest, P s (i :: rest) → P (visit i s).1 ((visit i s).2.reverse ++ rest) ∧
      visit' i (g s) = (g (visit i s).1, (visit i s).2)) :
    ∀ fuel s stack, P s stack → run visit' fuel (g s) stack = g (run visit fuel s stack)
  | 0, _, _, _ => rfl
  | _ + 1, _, [], _ => rfl
  | fuel + 1, s, i :: rest, h => by
    obtain ⟨hP, hvisit⟩ := hstep s i rest h
    rw [run, hvisit]
    exact run_map P hstep fuel _ _ hP

/-- Pop at the front, visit, push at the back, until the queue is empty (or the fuel is spent). -/
def drain (visit : ι → σ → σ × List ι) : Nat → σ → List ι → σ
  | 0, s, _ => s
  | _ + 1, s, [] => s
  | fuel + 1, s, i :: rest => drain visit fuel (visit i s).1 (rest ++ (visit i s).2)

/-- A part of the state that no visit changes is the same after the walk, whatever the fuel. -/
theorem run_keeps {γ : Type} {f : σ → γ} (hvisit : ∀ i s, f (visit i s).1 = f s) :
    ∀ fuel s stack, f (run visit fuel s stack) = f s
  | 0, _, _ => rfl
  | _ + 1, _, [] => rfl
  | fuel + 1, s, i :: _ => (run_keeps hvisit fuel _ _).trans (hvisit i s)

/-! ## Potentials that are sums over the slots `0, …, n - 1` -/

/-- A drop of one summand by at least `k`. -/
theorem add_sum_range_le {f g : Nat → Nat} {i k : Nat} (hother : ∀ j, j ≠ i → g j = f j)
    (hi : k + g i ≤ f i) : ∀ {n : Nat}, i < n → k + ((range n).map g).sum ≤ ((range n).map f).sum
  | 0, h => absurd h (Nat.not_lt_zero _)
  | n + 1, h => by
    simp only [range_succ, map_append, map_cons, map_nil, sum_append, sum_cons, sum_nil]
    by_cases hin : i = n
    · have hsame : (range n).map g = (range n).map f := by
        refine map_congr_left fun j hj => hother j ?_
        have := mem_range.1 hj
        omega
      rw [hsame]
      subst hin
      omega
    · have ih := add_sum_range_le hother hi (show i < n by omega)
      have hn := hother n (fun h => hin h.symm)
      omega

theorem sum_range_le_mul {f g : Nat → Nat} {k : Nat} (h : ∀ j, f j ≤ k * g j) :
    ∀ n : Nat, ((range n).map f).sum ≤ k * ((range n).map g).sum
  | 0 => by simp
  | n + 1 => by
    simp only [range_succ, map_append, map_cons, map_nil, sum_append,
      sum_cons, sum_nil, Nat.mul_add, Nat.mul_zero]
    have := sum_range_le_mul h n
    have := h n
    omega

end Worklist

end Lazily.Lib
