import Mathlib.Tactic
import Mathlib.Data.Nat.ModEq

namespace Mixing

variable {w : ℕ}

/-- `x ^= x >> r` -/
def xorShift (r : ℕ) (x : BitVec w) : BitVec w := x ^^^ (x >>> r)

/-- The bits can be recovered one after another, the highest one first. -/
theorem xorShift_injective {r : ℕ} (hr : 0 < r) :
    Function.Injective (xorShift r : BitVec w → BitVec w) := by
  intro x y h
  have hbits : ∀ k i, w ≤ i + k → x.getLsbD i = y.getLsbD i := by
    intro k
    induction k with
    | zero =>
      intro i hi
      rw [BitVec.getLsbD_of_ge x i hi, BitVec.getLsbD_of_ge y i hi]
    | succ k ih =>
      intro i hi
      have hhigher := ih (r + i) (by omega)
      have hbit := congrArg (fun z => z.getLsbD i) h
      simp only [xorShift, BitVec.getLsbD_xor, BitVec.getLsbD_ushiftRight, hhigher] at hbit
      exact (Bool.xor_left_inj).mp hbit
  exact BitVec.eq_of_getLsbD_eq fun i _ => hbits w i (by omega)

theorem mul_injective {m : BitVec w} (hm : m.toNat % 2 = 1) :
    Function.Injective fun x : BitVec w => x * m := by
  intro x y h
  have hcoprime : Nat.Coprime (2 ^ w) m.toNat :=
    Nat.Coprime.pow_left w (Nat.coprime_two_left.mpr (Nat.odd_iff.mpr hm))
  have hmod : x.toNat * m.toNat ≡ y.toNat * m.toNat [MOD 2 ^ w] := by
    have hnat := congrArg BitVec.toNat h
    rwa [BitVec.toNat_mul, BitVec.toNat_mul] at hnat
  have hxy := Nat.ModEq.cancel_right_of_coprime hcoprime hmod
  exact BitVec.eq_of_toNat_eq (hxy.eq_of_lt_of_lt x.isLt y.isLt)

/-- One round of a multiplicative hash loses nothing. -/
theorem round_injective {m : BitVec w} {r : ℕ} (hm : m.toNat % 2 = 1) (hr : 0 < r) :
    Function.Injective fun x : BitVec w => xorShift r (x * m) :=
  (xorShift_injective hr).comp (mul_injective hm)

end Mixing
