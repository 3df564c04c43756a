import Mathlib.Tactic.Common

/-!
# The token bucket (`RatePolicy` of `rateshape.rs`)

A tick adds `refill_per_tick` to the tokens before it caps them, in `u64`. `paced_iff`: a policy
never overflows, and grants no more than it has refilled, iff capacity and refill sum within `u64`.
-/

namespace Lazily.Realtime

structure RatePolicy where
  capacity : Nat
  tokens : Nat
  refillPerTick : Nat
  deriving DecidableEq, Repr

inductive Call where
  | tick | tryEgress
  deriving DecidableEq, Repr

namespace RatePolicy

def new (capacity refillPerTick : Nat) : RatePolicy := ⟨capacity, capacity, refillPerTick⟩

def tryEgress (p : RatePolicy) : RatePolicy × Bool :=
  if 0 < p.tokens then ({ p with tokens := p.tokens - 1 }, true) else (p, false)

/-- `none` where the sum overflows `u64`, which panics or wraps before the cap is applied. -/
def tick (p : RatePolicy) : Option RatePolicy :=
  if p.tokens + p.refillPerTick < UInt64.size then
    some { p with tokens := min (p.tokens + p.refillPerTick) p.capacity }
  else none

/-- The policy after the calls, and how many egresses they were granted. -/
def run (p : RatePolicy) : List Call → Option (RatePolicy × Nat)
  | [] => some (p, 0)
  | .tick :: calls => p.tick.bind (run · calls)
  | .tryEgress :: calls =>
    (run p.tryEgress.1 calls).map fun r => (r.1, r.2 + p.tryEgress.2.toNat)

/-- The tokens after a call, over unbounded integers. -/
def saturating (capacity refill tokens : Nat) : Call → Nat
  | .tick => min capacity (tokens + refill)
  | .tryEgress => tokens - 1

/-- From `p` the calls go through, the tokens are the saturating ones, and what is granted was there
or has been refilled. -/
def Paces (p : RatePolicy) (calls : List Call) : Prop :=
  ∃ q granted, p.run calls = some (q, granted) ∧
    q.tokens = calls.foldl (saturating p.capacity p.refillPerTick) p.tokens ∧
    granted ≤ p.tokens + calls.count .tick * p.refillPerTick ∧
    granted ≤ p.capacity + calls.count .tick * p.refillPerTick

theorem run_spec {p : RatePolicy} (hfit : p.capacity + p.refillPerTick < UInt64.size)
    (hcap : p.tokens ≤ p.capacity) (calls : List Call) :
    ∃ q granted, p.run calls = some (q, granted) ∧ q.capacity = p.capacity ∧
      q.refillPerTick = p.refillPerTick ∧ q.tokens ≤ q.capacity ∧
      q.tokens = calls.foldl (saturating p.capacity p.refillPerTick) p.tokens ∧
      granted + q.tokens ≤ p.tokens + calls.count .tick * p.refillPerTick := by
  induction calls generalizing p with
  | nil => exact ⟨p, 0, rfl, rfl, rfl, hcap, rfl, by simp⟩
  | cons call calls ih =>
    cases call with
    | tick =>
      have htick : p.tick =
          some { p with tokens := min p.capacity (p.tokens + p.refillPerTick) } := by
        rw [tick, if_pos (by omega), Nat.min_comm]
      obtain ⟨q, granted, hrun, hc, hr, hq, htokens, hgranted⟩ :=
        ih (p := { p with tokens := min p.capacity (p.tokens + p.refillPerTick) }) hfit
          (Nat.min_le_left _ _)
      refine ⟨q, granted, by simp [run, htick, hrun], hc, hr, hq, htokens, ?_⟩
      rw [List.count_cons_self, Nat.succ_mul]
      dsimp only at hgranted
      omega
    | tryEgress =>
      have hegress : p.tryEgress.1 = { p with tokens := p.tokens - 1 } ∧
          p.tryEgress.2.toNat + (p.tokens - 1) = p.tokens := by
        unfold tryEgress
        split
        · exact ⟨rfl, by simp; omega⟩
        · exact ⟨by cases p; simp_all, by simp; omega⟩
      obtain ⟨q, granted, hrun, hc, hr, hq, htokens, hgranted⟩ :=
        ih (p := { p with tokens := p.tokens - 1 }) hfit (by dsimp only; omega)
      refine ⟨q, granted + p.tryEgress.2.toNat, by simp [run, hegress.1, hrun], hc, hr, hq,
        htokens, ?_⟩
      rw [List.count_cons_of_ne (by decide)]
      dsimp only at hgranted
      omega

/-- **Token bucket.** Every segment of every run is paced, iff a full bucket can be refilled without
overflow. -/
theorem paced_iff (capacity refill : Nat) :
    (∀ before : List Call, ∃ p granted, (new capacity refill).run before = some (p, granted) ∧
      p.capacity = capacity ∧ p.refillPerTick = refill ∧ ∀ segment, p.Paces segment) ↔
      capacity + refill < UInt64.size := by
  constructor
  · intro h
    obtain ⟨p, granted, hrun, -⟩ := h [.tick]
    by_contra hover
    simp [run, tick, new, hover] at hrun
  · intro hfit before
    obtain ⟨p, granted, hrun, rfl, rfl, hcap, -⟩ :=
      run_spec (p := new capacity refill) hfit (Nat.le_refl _) before
    refine ⟨p, granted, hrun, rfl, rfl, fun segment => ?_⟩
    obtain ⟨q, granted, hrun, -, -, -, htokens, hgranted⟩ := run_spec hfit hcap segment
    exact ⟨q, granted, hrun, htokens, by omega, by omega⟩

/-- A full bucket of the largest capacity overflows at the first tick. -/
theorem full_bucket_overflows : (new (UInt64.size - 1) 1).run [.tick] = none := by decide

end RatePolicy

end Lazily.Realtime
