import Mathlib.Algebra.BigOperators.Group.List.Basic
import Mathlib.Algebra.Order.BigOperators.Group.List
import Mathlib.Order.SuccPred.Basic
import Mathlib.Tactic

namespace Majorant

section Raise

variable {α : Type*} [LinearOrder α] [SuccOrder α]

/-- Raises each element as little as the ones before it and the lower bound ask for. -/
def raise : α → List α → List α
  | _, [] => []
  | lo, x :: xs => max lo x :: raise (Order.succ (max lo x)) xs

variable {lo : α} {xs ys : List α}

theorem le_raise (lo : α) (xs : List α) : List.Forall₂ (· ≤ ·) xs (raise lo xs) := by
  induction xs generalizing lo with
  | nil => exact .nil
  | cons x xs ih => exact .cons (le_max_right lo x) (ih _)

theorem le_of_mem_raise {y : α} (h : y ∈ raise lo xs) : lo ≤ y := by
  induction xs generalizing lo with
  | nil => cases h
  | cons x xs ih =>
    rcases List.mem_cons.mp h with rfl | h
    · exact le_max_left lo x
    · exact (le_max_left lo x).trans ((Order.le_succ _).trans (ih h))

theorem raise_pairwise [NoMaxOrder α] (lo : α) (xs : List α) : (raise lo xs).Pairwise (· < ·) := by
  induction xs generalizing lo with
  | nil => exact .nil
  | cons x xs ih =>
    refine List.pairwise_cons.mpr ⟨?_, ih _⟩
    intro y hy
    exact Order.succ_le_iff.mp (le_of_mem_raise hy)

/-- What is strictly increasing, above the list and above the bound is above the raised list. -/
theorem raise_le (hle : List.Forall₂ (· ≤ ·) xs ys) (hinc : ys.Pairwise (· < ·))
    (hlo : ∀ y ∈ ys, lo ≤ y) : List.Forall₂ (· ≤ ·) (raise lo xs) ys := by
  induction hle generalizing lo with
  | nil => exact .nil
  | @cons x y xs ys hxy _ ih =>
    have hy : max lo x ≤ y := max_le (hlo y List.mem_cons_self) hxy
    obtain ⟨hfirst, hrest⟩ := List.pairwise_cons.mp hinc
    refine .cons hy (ih hrest ?_)
    intro z hz
    exact Order.succ_le_of_lt (hy.trans_lt (hfirst z hz))

end Raise

section Cost

variable {α : Type*} [AddCommGroup α]

/-- What the elements of `ys` exceed those of `xs` by, all together. -/
def cost (xs ys : List α) : α := (List.zipWith (fun x y => y - x) xs ys).sum

theorem cost_cons (x y : α) (xs ys : List α) : cost (x :: xs) (y :: ys) = y - x + cost xs ys := by
  rw [cost, List.zipWith_cons_cons, List.sum_cons, cost]

variable [LinearOrder α]

/-- The costs of the strictly increasing lists above `xs`. -/
def costs (xs : List α) : Set α :=
  {c | ∃ ys, List.Forall₂ (· ≤ ·) xs ys ∧ ys.Pairwise (· < ·) ∧ cost xs ys = c}

variable [IsOrderedAddMonoid α] {xs ys zs : List α}

theorem cost_nonneg (h : List.Forall₂ (· ≤ ·) xs ys) : 0 ≤ cost xs ys := by
  induction h with
  | nil => exact le_rfl
  | cons hxy _ ih =>
    rw [cost_cons]
    exact add_nonneg (sub_nonneg.mpr hxy) ih

theorem cost_mono (hlen : xs.length = ys.length) (h : List.Forall₂ (· ≤ ·) ys zs) :
    cost xs ys ≤ cost xs zs := by
  induction h generalizing xs with
  | nil => rw [List.length_eq_zero_iff.mp hlen]
  | cons hyz _ ih =>
    cases xs with
    | nil => cases hlen
    | cons x xs =>
      rw [cost_cons, cost_cons]
      exact add_le_add (sub_le_sub_right hyz x) (ih (Nat.succ.inj hlen))

variable [SuccOrder α] [NoMaxOrder α]

/-- The list raised from its own first element on is the cheapest of them. -/
theorem isLeast_costs (x : α) (xs : List α) :
    IsLeast (costs (x :: xs)) (cost (x :: xs) (raise x (x :: xs))) := by
  refine ⟨⟨_, le_raise x _, raise_pairwise x _, rfl⟩, ?_⟩
  rintro c ⟨ys, hle, hinc, rfl⟩
  refine cost_mono (le_raise x (x :: xs)).length_eq (raise_le hle hinc ?_)
  cases hle with
  | cons hxy _ =>
    intro y hy
    rcases List.mem_cons.mp hy with rfl | hy
    · exact hxy
    · exact hxy.trans ((List.pairwise_cons.mp hinc).1 y hy).le

end Cost

end Majorant
