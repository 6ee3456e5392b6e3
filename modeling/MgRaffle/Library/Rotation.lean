import Mathlib.Data.Int.GCD
import Mathlib.Data.Nat.ModEq
import Mathlib.Tactic

namespace Rotation

section Places

/-- Where one gets from 0 by going on `j` times by `r`, on a circle of `s` places. -/
def place (s r j : ℕ) : ℕ := j * r % s

/-- After how many times one is back at 0. -/
def period (s r : ℕ) : ℕ := s / s.gcd r

variable {s r i j m : ℕ}

theorem place_zero (s r : ℕ) : place s r 0 = 0 := by rw [place, zero_mul, Nat.zero_mod]

theorem place_one (h : r < s) : place s r 1 = r := by rw [place, one_mul, Nat.mod_eq_of_lt h]

theorem place_mod (s r j : ℕ) : place s (r % s) j = place s r j := Nat.mul_mod_mod j r s

theorem place_lt (hs : 0 < s) : place s r j < s := Nat.mod_lt _ hs

theorem place_succ (s r j : ℕ) : place s r (j + 1) = (place s r j + r) % s := by
  rw [place, place, add_mul, one_mul, Nat.mod_add_mod]

theorem dvd_place (s r j : ℕ) : s.gcd r ∣ place s r j :=
  (Nat.dvd_mod_iff (Nat.gcd_dvd_left s r)).mpr ((Nat.gcd_dvd_right s r).mul_left j)

theorem period_mul_gcd (s r : ℕ) : period s r * s.gcd r = s :=
  Nat.div_mul_cancel (Nat.gcd_dvd_left s r)

theorem gcd_mod (s r : ℕ) : s.gcd (r % s) = s.gcd r := by rw [Nat.gcd_comm, ← Nat.gcd_rec]

theorem period_mod (s r : ℕ) : period s (r % s) = period s r := by rw [period, gcd_mod, period]

theorem period_pos (hs : 0 < s) : 0 < period s r :=
  Nat.div_pos (Nat.gcd_le_left r hs) (Nat.gcd_pos_of_pos_left r hs)

theorem period_le (s r : ℕ) : period s r ≤ s := Nat.div_le_self s _

/-- The places come again after a period, and not before. -/
theorem place_eq_iff (hs : 0 < s) : place s r i = place s r j ↔ i ≡ j [MOD period s r] := by
  constructor
  · exact fun h => Nat.ModEq.cancel_right_div_gcd hs h
  · intro h
    have hdvd : s ∣ period s r * r := by
      obtain ⟨c, hc⟩ := Nat.gcd_dvd_right s r
      refine ⟨c, ?_⟩
      nth_rewrite 2 [hc]
      rw [← mul_assoc, period_mul_gcd]
    exact (h.mul_right' r).of_dvd hdvd

theorem exists_mul_modEq (hs : 0 < s) (h : s.gcd r ∣ m) : ∃ j, j * r ≡ m [MOD s] := by
  by_cases hlt : r.gcd s < s
  · obtain ⟨t, -, ht⟩ := Nat.exists_mul_mod_eq_gcd hlt
    obtain ⟨c, rfl⟩ := h
    refine ⟨t * c, ?_⟩
    have hstep : r * t ≡ s.gcd r [MOD s] := by
      rw [Nat.gcd_comm s r, Nat.ModEq, ht, Nat.mod_eq_of_lt hlt]
    have hmul := hstep.mul_right c
    rwa [mul_comm r t, mul_right_comm] at hmul
  · have hdvd : s ∣ m := by
      have hle := Nat.gcd_le_left r hs
      have heq : s.gcd r = s := by
        rw [Nat.gcd_comm] at hlt
        omega
      rwa [heq] at h
    refine ⟨0, ?_⟩
    rw [zero_mul]
    exact (Nat.modEq_zero_iff_dvd.mpr hdvd).symm

theorem exists_modEq_window (hs : 0 < s) (a j : ℕ) : ∃ i, a < i ∧ i ≤ a + s ∧ i ≡ j [MOD s] := by
  induction a with
  | zero =>
    rcases Nat.eq_zero_or_pos (j % s) with hzero | hpos
    · exact ⟨s, hs, by omega, by rw [Nat.ModEq, Nat.mod_self, hzero]⟩
    · have hlt := Nat.mod_lt j hs
      exact ⟨j % s, hpos, by omega, Nat.mod_modEq j s⟩
  | succ a ih =>
    obtain ⟨i, hlow, hhigh, hi⟩ := ih
    by_cases heq : i = a + 1
    · exact ⟨i + s, by omega, by omega, Nat.add_modEq_right.trans hi⟩
    · exact ⟨i, by omega, by omega, hi⟩

/-- Every multiple of the divisor is a place, within a period from anywhere. -/
theorem exists_place (hm : m < s) (h : s.gcd r ∣ m) (a : ℕ) :
    ∃ j, a < j ∧ j ≤ a + period s r ∧ place s r j = m := by
  have hs : 0 < s := by omega
  obtain ⟨i, hi⟩ := exists_mul_modEq hs h
  obtain ⟨j, hlow, hhigh, hj⟩ := exists_modEq_window (period_pos (r := r) hs) a i
  refine ⟨j, hlow, hhigh, ?_⟩
  rw [(place_eq_iff hs).mpr hj, place, hi, Nat.mod_eq_of_lt hm]

theorem exists_place_iff (hm : m < s) : (∃ j, place s r j = m) ↔ s.gcd r ∣ m := by
  constructor
  · rintro ⟨j, rfl⟩
    exact dvd_place s r j
  · intro h
    obtain ⟨j, -, -, hj⟩ := exists_place hm h 0
    exact ⟨j, hj⟩

end Places

section Shifts

variable {α : Type*} {f : ℕ → α} {N c : ℕ}

/-- A function that a shift by `c` does not change at `1`, …, `N - 1` is not changed at 0 either. -/
theorem shift_zero (hN : 0 < N) (h : ∀ i, 1 ≤ i → i < N → f i = f ((i + c) % N)) :
    f 0 = f (c % N) := by
  have hrun : ∀ j, j + 1 ≤ period N c → f (place N c (j + 1)) = f (c % N) := by
    intro j hj
    induction j with
    | zero => rw [place, zero_add, one_mul]
    | succ j ih =>
      have hne : place N c (j + 1) ≠ 0 := by
        rw [← place_zero N c, Ne, place_eq_iff hN]
        intro hmod
        have hdvd := Nat.modEq_zero_iff_dvd.mp hmod
        have hle := Nat.le_of_dvd (by omega) hdvd
        omega
      rw [place_succ, ← h _ (Nat.one_le_iff_ne_zero.mpr hne) (place_lt hN)]
      exact ih (by omega)
  have hperiod := period_pos (r := c) hN
  have hlast := hrun (period N c - 1) (by omega)
  have hback : place N c (period N c - 1 + 1) = 0 := by
    rw [Nat.sub_add_cancel hperiod, ← place_zero N c, place_eq_iff hN]
    exact Nat.modEq_zero_iff_dvd.mpr dvd_rfl
  rwa [hback] at hlast

/-- Such a function takes one value on each class of the greatest common divisor. -/
theorem shift_iff (hN : 0 < N) : (∀ i, 1 ≤ i → i < N → f i = f ((i + c) % N)) ↔
    ∀ i < N, ∀ j < N, i ≡ j [MOD N.gcd c] → f i = f j := by
  constructor
  · intro h i hi j hj hmod
    have hall : ∀ i < N, f i = f ((i + c) % N) := by
      intro i hi
      rcases Nat.eq_zero_or_pos i with rfl | hpos
      · rw [zero_add]
        exact shift_zero hN h
      · exact h i hpos hi
    have hrun : ∀ t, f i = f ((i + t * c) % N) := by
      intro t
      induction t with
      | zero => rw [zero_mul, add_zero, Nat.mod_eq_of_lt hi]
      | succ t ih =>
        rw [ih, hall _ (Nat.mod_lt _ hN), Nat.mod_add_mod, add_mul, one_mul, ← add_assoc]
    have hdvd : N.gcd c ∣ j + N - i := by
      have hzero : N ≡ 0 [MOD N.gcd c] := Nat.modEq_zero_iff_dvd.mpr (Nat.gcd_dvd_left N c)
      exact (Nat.modEq_iff_dvd' (by omega)).mp (hmod.trans (hzero.symm.add_left j))
    obtain ⟨t, ht⟩ := exists_mul_modEq hN hdvd
    rw [hrun t]
    congr 1
    have hsum := ht.add_left i
    have heq : i + (j + N - i) = j + N := by omega
    rw [heq] at hsum
    rw [hsum, Nat.add_mod_right, Nat.mod_eq_of_lt hj]
  · intro h i _ hi
    refine h i hi _ (Nat.mod_lt _ hN) ?_
    have hshift : i + c ≡ i [MOD N.gcd c] :=
      (Nat.modEq_zero_iff_dvd.mpr (Nat.gcd_dvd_right N c)).add_left i
    exact (((Nat.mod_modEq (i + c) N).of_dvd (Nat.gcd_dvd_left N c)).trans hshift).symm

end Shifts

end Rotation
