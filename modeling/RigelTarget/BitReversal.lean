import Mathlib.Data.Nat.Bitwise
import Mathlib.Tactic.Common
import Mathlib.Tactic.Ring

/-!
# Bit reversal

The lowest bits of a number in the opposite order. Counting up from zero, the reversed number is
found without reversing: its bits from the top are those of the number from the bottom, so that
adding one carries downwards from the top bit.
-/

namespace RigelTarget.BitReversal

/-- The `k` lowest bits of a number in the opposite order. -/
def reversal : ℕ → ℕ → ℕ
  | 0, _ => 0
  | k+1, e => e%2*2^k+reversal k (e/2)

/-- A reversed number has as many bits. -/
theorem reversal_lt (k e : ℕ) : reversal k e<2^k := by
  induction k generalizing e with
  | zero => exact Nat.one_pos
  | succ k ih =>
    have hrest := ih (e/2)
    have htop : e%2*2^k≤1*2^k := Nat.mul_le_mul_right _ (by omega)
    rw [reversal,pow_succ]
    omega

/-- Bit `b` of the reversed number is the bit as far from the top. All other facts about the
reversal follow from it. -/
theorem testBit_reversal {k b : ℕ} (hb : b<k) (e : ℕ) :
    (reversal k e).testBit b=e.testBit (k-1-b) := by
  induction k generalizing e with
  | zero => omega
  | succ k ih =>
    have hlt := reversal_lt k (e/2)
    rw [reversal]
    rcases Nat.mod_two_eq_zero_or_one e with heven|hodd
    · rw [heven,Nat.zero_mul,Nat.zero_add]
      by_cases htop : b=k
      · rw [htop,Nat.testBit_lt_two_pow hlt,show k+1-1-k=0 by omega,Nat.testBit_zero,heven]
        rfl
      · rw [ih (by omega),←Nat.testBit_succ]
        congr 1
        omega
    · rw [hodd,Nat.one_mul]
      by_cases htop : b=k
      · rw [htop,Nat.testBit_two_pow_add_eq,Nat.testBit_lt_two_pow hlt,show k+1-1-k=0 by omega,
          Nat.testBit_zero,hodd]
        rfl
      · rw [Nat.testBit_two_pow_add_gt (by omega),ih (by omega),←Nat.testBit_succ]
        congr 1
        omega

/-- Reversed twice, a number is itself. -/
theorem reversal_reversal {k e : ℕ} (he : e<2^k) : reversal k (reversal k e)=e := by
  refine Nat.eq_of_testBit_eq fun b => ?_
  by_cases hb : b<k
  · rw [testBit_reversal hb,testBit_reversal (by omega)]
    congr 1
    omega
  · have hpow : 2^k≤2^b := Nat.pow_le_pow_right Nat.two_pos (by omega)
    rw [Nat.testBit_lt_two_pow ((reversal_lt k _).trans_le hpow),
      Nat.testBit_lt_two_pow (he.trans_le hpow)]

/-- Zero is its own reversal. -/
theorem reversal_zero (k : ℕ) : reversal k 0=0 := by
  induction k with
  | zero => rfl
  | succ k ih =>
    rw [reversal,Nat.zero_mod,Nat.zero_mul,Nat.zero_add,Nat.zero_div]
    exact ih

/-- After an even number the top bit is set. -/
theorem reversal_even {k e : ℕ} (he : e%2=0) :
    reversal (k+1) e<2^k ∧ reversal (k+1) (e+1)=reversal (k+1) e+2^k := by
  have hlt := reversal_lt k (e/2)
  have hhalf : (e+1)/2=e/2 := by omega
  have hbit : (e+1)%2=1 := by omega
  rw [reversal,reversal,he,hhalf,hbit]
  omega

/-- After an odd number the top bit is cleared, and the rest counts on. -/
theorem reversal_odd {k e : ℕ} (he : e%2=1) :
    reversal (k+1) e=2^k+reversal k (e/2) ∧ reversal (k+1) (e+1)=reversal k (e/2+1) := by
  have hhalf : (e+1)/2=e/2+1 := by omega
  have hbit : (e+1)%2=0 := by omega
  rw [reversal,reversal,he,hhalf,hbit]
  omega

end RigelTarget.BitReversal
