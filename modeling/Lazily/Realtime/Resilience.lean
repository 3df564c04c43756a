import Mathlib.Algebra.Ring.Nat
import Mathlib.Tactic.Common

/-!
# Retry back-off (`resilience.rs`)

The back-off shifts `base` and loses the bits above `u64`: `backoff_iff` says for which attempts it
is the minimum of `cap` and `base * 2 ^ attempt`.
-/

namespace Lazily.Realtime

structure RetryPolicyCore where
  base : UInt64
  cap : UInt64
  deriving DecidableEq, Repr

namespace RetryPolicyCore

/-- `checked_shl` fails only if the shift is as wide as the word; bits that are shifted out are
lost. -/
def checkedShl (base : UInt64) (shift : UInt32) : Option UInt64 :=
  if shift.toNat < 64 then some (base <<< shift.toUInt64) else none

variable (p : RetryPolicyCore) (attempt : UInt32)

def delay : UInt64 :=
  (checkedShl p.base attempt).elim p.cap fun d => if d ≤ p.cap then d else p.cap

/-- The shift loses no bit, or keeps enough of them; a shift by the whole word is of a positive
base. -/
def Saturates : Prop :=
  if attempt.toNat < 64 then
    p.base.toNat * 2 ^ attempt.toNat < UInt64.size ∨
      p.cap.toNat ≤ p.base.toNat * 2 ^ attempt.toNat % UInt64.size
  else 0 < p.base.toNat ∨ p.cap.toNat = 0

instance : Decidable (p.Saturates attempt) := by
  unfold Saturates
  infer_instance

theorem toNat_delay : (p.delay attempt).toNat = if attempt.toNat < 64 then
      min p.cap.toNat (p.base.toNat * 2 ^ attempt.toNat % UInt64.size) else p.cap.toNat := by
  unfold delay checkedShl
  split
  · rename_i hlt
    have hshift : (p.base <<< attempt.toUInt64).toNat =
        p.base.toNat * 2 ^ attempt.toNat % UInt64.size := by
      rw [UInt64.toNat_shiftLeft, UInt32.toNat_toUInt64, Nat.mod_eq_of_lt hlt, Nat.shiftLeft_eq]
    simp only [Option.elim_some, UInt64.le_iff_toNat_le, hshift]
    split
    · rw [hshift]
      omega
    · omega
  · rfl

theorem delay_eq_min_iff :
    (p.delay attempt).toNat = min p.cap.toNat (p.base.toNat * 2 ^ attempt.toNat) ↔
      p.Saturates attempt := by
  have hcap : p.cap.toNat < UInt64.size := p.cap.toNat_lt_size
  unfold Saturates
  rw [toNat_delay]
  split
  · by_cases hfits : p.base.toNat * 2 ^ attempt.toNat < UInt64.size
    · rw [Nat.mod_eq_of_lt hfits]
      simp [hfits]
    · omega
  · rename_i hwide
    rcases Nat.eq_zero_or_pos p.base.toNat with hbase | hbase
    · rw [hbase]
      omega
    · have hpow : UInt64.size ≤ 2 ^ attempt.toNat :=
        Nat.pow_le_pow_right Nat.two_pos (Nat.not_lt.1 hwide)
      have hle := Nat.le_mul_of_pos_left (2 ^ attempt.toNat) hbase
      omega

/-- **Back-off.** The delay of an attempt is the minimum of `cap` and `base * 2 ^ attempt` iff the
shift saturates; among such attempts it is monotone, and never below the smaller of both. -/
theorem backoff_iff :
    (∀ attempt, (p.delay attempt).toNat = min p.cap.toNat (p.base.toNat * 2 ^ attempt.toNat) ↔
      p.Saturates attempt) ∧
    (∀ a b, a ≤ b → p.Saturates a → p.Saturates b → p.delay a ≤ p.delay b) ∧
    ∀ attempt, p.Saturates attempt → min p.cap.toNat p.base.toNat ≤ (p.delay attempt).toNat := by
  refine ⟨p.delay_eq_min_iff, fun a b hab ha hb => ?_, fun attempt h => ?_⟩
  · rw [UInt64.le_iff_toNat_le, (p.delay_eq_min_iff a).2 ha, (p.delay_eq_min_iff b).2 hb]
    have hpow : 2 ^ a.toNat ≤ 2 ^ b.toNat :=
      Nat.pow_le_pow_right (by decide) (UInt32.le_iff_toNat_le.1 hab)
    have hmul := Nat.mul_le_mul_left p.base.toNat hpow
    omega
  · rw [(p.delay_eq_min_iff attempt).2 h]
    have hmul := Nat.le_mul_of_pos_right p.base.toNat (Nat.two_pow_pos attempt.toNat)
    omega

theorem backoff_iff_wide : (RetryPolicyCore.mk 3 100).Saturates 5 ∧
    (RetryPolicyCore.mk 3 100).Saturates 64 ∧
    (RetryPolicyCore.mk 3 100).delay 5 ≤ (RetryPolicyCore.mk 3 100).delay 64 ∧
    3 ≤ ((RetryPolicyCore.mk 3 100).delay 5).toNat :=
  ⟨by decide, by decide, (backoff_iff ⟨3, 100⟩).2.1 5 64 (by decide) (by decide) (by decide),
    (backoff_iff ⟨3, 100⟩).2.2 5 (by decide)⟩

/-- The highest bit is shifted out: the second attempt does not wait at all. -/
theorem delay_loses_high_bit : (RetryPolicyCore.mk 0x8000000000000000 100).delay 0 = 100 ∧
    (RetryPolicyCore.mk 0x8000000000000000 100).delay 1 = 0 := by decide

end RetryPolicyCore

end Lazily.Realtime
