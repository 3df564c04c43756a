import Mathlib.Data.List.Basic
import Mathlib.Data.Option.Basic

/-!
# Adaptive computations over readable cells

`ReadTree K V R`: a pure computation that reads cells `K` holding values `V` and returns an `R`.
Which cell is read next may depend on every value read so far, so a tree has no fixed list of
reads; one run of it is a path.

* `ReadTree.eval? ρ`: the result in an environment `ρ`, if every cell read has a value there.
* `ReadTree.Path t l r`: the run of `t` that reads the cells of `l` in order, gets the values
  recorded in `l` and returns `r`.
* `ReadTree.All p`: every cell that some run reads satisfies `p`.

A path determines the evaluation in every environment that agrees with the recorded reads
(`Path.eval?`), and an evaluation is a path (`exists_path`). These two facts are all that an
incremental evaluator needs from its closures: a recorded run can stand for a fresh one exactly
while its reads still hold.
-/

namespace Lazily.Lib

/-- A computation that reads cells one after the other. -/
inductive ReadTree (K V R : Type) where
  | ret (r : R)
  | read (k : K) (next : V → ReadTree K V R)

namespace ReadTree

variable {K V R : Type} {ρ ρ' : K → Option V} {t : ReadTree K V R}

/-- The result in an environment, if every cell read has a value. -/
def eval? (ρ : K → Option V) : ReadTree K V R → Option R
  | ret r => some r
  | read k next =>
    match ρ k with
    | some v => eval? ρ (next v)
    | none => none

/-- The reads of the run in an environment, up to the first cell without a value. -/
def reads (ρ : K → Option V) : ReadTree K V R → List (K × V)
  | ret _ => []
  | read k next =>
    match ρ k with
    | some v => (k, v) :: reads ρ (next v)
    | none => []

/-- One run: the reads with the values they returned, and the result. -/
inductive Path : ReadTree K V R → List (K × V) → R → Prop
  | ret (r : R) : Path (.ret r) [] r
  | read {k : K} {v : V} {next : V → ReadTree K V R} {l : List (K × V)} {r : R} :
      Path (next v) l r → Path (.read k next) ((k, v) :: l) r

theorem Path.eval? {l : List (K × V)} {r : R} (h : Path t l r)
    (hρ : ∀ p ∈ l, ρ p.1 = some p.2) : t.eval? ρ = some r := by
  induction h with
  | ret r => rfl
  | @read k v next l r _ ih =>
    have hk : ρ k = some v := hρ (k, v) List.mem_cons_self
    simp only [ReadTree.eval?, hk]
    exact ih fun p hp => hρ p (List.mem_cons_of_mem _ hp)

theorem exists_path : ∀ {t : ReadTree K V R} {r : R}, t.eval? ρ = some r →
      Path t (t.reads ρ) r ∧ ∀ p ∈ t.reads ρ, ρ p.1 = some p.2
  | .ret r, _, h => by
    simp only [eval?, Option.some.injEq] at h
    subst h
    exact ⟨.ret _, by simp [reads]⟩
  | .read k next, r, h => by
    simp only [eval?] at h
    cases hk : ρ k with
    | none => rw [hk] at h; cases h
    | some v =>
      rw [hk] at h
      obtain ⟨hp, hl⟩ := exists_path h
      simp only [reads, hk]
      refine ⟨.read hp, fun p hp' => ?_⟩
      rcases List.mem_cons.1 hp' with rfl | hp'
      · exact hk
      · exact hl p hp'

/-- A larger environment gives the same result. -/
theorem eval?_mono (hρ : ∀ k v, ρ k = some v → ρ' k = some v)
    {r : R} (h : t.eval? ρ = some r) : t.eval? ρ' = some r := by
  obtain ⟨hp, hl⟩ := exists_path h
  exact hp.eval? fun p hp' => hρ _ _ (hl p hp')

/-- A run that returned reads the same in a larger environment. -/
theorem reads_mono (hρ : ∀ k v, ρ k = some v → ρ' k = some v) :
    ∀ {t : ReadTree K V R} {r : R}, t.eval? ρ = some r → t.reads ρ' = t.reads ρ
  | .ret _, _, _ => rfl
  | .read k next, r, h => by
    simp only [eval?] at h
    cases hk : ρ k with
    | none => rw [hk] at h; cases h
    | some v =>
      rw [hk] at h
      simp only [reads, hk, hρ k v hk]
      rw [reads_mono hρ h]

end ReadTree

end Lazily.Lib
