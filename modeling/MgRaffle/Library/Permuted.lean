import Mathlib.Tactic
import Mathlib.Logic.Equiv.Basic

variable {ι α : Type*}

/-- `b` holds the values of `a` in another order, and outside of `S` each one in its place. -/
def Permuted (S : Set ι) (a b : ι → α) : Prop :=
  ∃ σ : Equiv.Perm ι, (∀ i, i ∉ S → σ i = i) ∧ b = a ∘ σ

namespace Permuted

variable {S T : Set ι} {a b c : ι → α}

theorem refl (S : Set ι) (a : ι → α) : Permuted S a a := ⟨1, fun _ _ => rfl, rfl⟩

theorem trans (hab : Permuted S a b) (hbc : Permuted S b c) : Permuted S a c := by
  obtain ⟨σ, hσ, rfl⟩ := hab
  obtain ⟨τ, hτ, rfl⟩ := hbc
  refine ⟨σ * τ, ?_, rfl⟩
  intro i hi
  rw [Equiv.Perm.mul_apply, hτ i hi, hσ i hi]

theorem mono (h : Permuted S a b) (hST : S ⊆ T) : Permuted T a b := by
  obtain ⟨σ, hσ, hb⟩ := h
  exact ⟨σ, fun i hi => hσ i fun hS => hi (hST hS), hb⟩

theorem swap [DecidableEq ι] {i j : ι} (a : ι → α) (hi : i ∈ S) (hj : j ∈ S) :
    Permuted S a (a ∘ Equiv.swap i j) := by
  refine ⟨Equiv.swap i j, ?_, rfl⟩
  intro k hk
  refine Equiv.swap_apply_of_ne_of_ne ?_ ?_
  · rintro rfl
    exact hk hi
  · rintro rfl
    exact hk hj

theorem eq_of_notMem (h : Permuted S a b) {i : ι} (hi : i ∉ S) : b i = a i := by
  obtain ⟨σ, hσ, rfl⟩ := h
  rw [Function.comp_apply, hσ i hi]

/-- Each place in `S` has got the value of a place in `S`. -/
theorem exists_eq (h : Permuted S a b) {i : ι} (hi : i ∈ S) : ∃ j ∈ S, b i = a j := by
  obtain ⟨σ, hσ, rfl⟩ := h
  refine ⟨σ i, ?_, rfl⟩
  by_contra hout
  have hfix : σ i = i := σ.injective (hσ (σ i) hout)
  rw [hfix] at hout
  exact hout hi

/-- What holds of all values in `S` still holds of them. -/
theorem forall_of_forall {P : α → Prop} (h : Permuted S a b) (ha : ∀ i ∈ S, P (a i)) :
    ∀ i ∈ S, P (b i) := by
  intro i hi
  obtain ⟨j, hj, hij⟩ := h.exists_eq hi
  rw [hij]
  exact ha j hj

theorem symm (h : Permuted S a b) : Permuted S b a := by
  obtain ⟨σ, hσ, rfl⟩ := h
  refine ⟨σ⁻¹, ?_, ?_⟩
  · intro i hi
    rw [Equiv.Perm.inv_eq_iff_eq, hσ i hi]
  · rw [Function.comp_assoc, ← Equiv.Perm.coe_mul, mul_inv_cancel, Equiv.Perm.coe_one,
      Function.comp_id]

/-- Where all values in `S` are one, there is nothing to rearrange. -/
theorem eq_of_forall_eq (h : Permuted S a b) (ha : ∀ i ∈ S, ∀ j ∈ S, a i = a j) : b = a := by
  funext i
  by_cases hi : i ∈ S
  · obtain ⟨j, hj, hij⟩ := h.exists_eq hi
    rw [hij]
    exact ha j hj i hi
  · exact h.eq_of_notMem hi

end Permuted
