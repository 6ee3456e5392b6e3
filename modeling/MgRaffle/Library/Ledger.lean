import Mathlib.Tactic

namespace Ledger

variable {κ π : Type*} [DecidableEq κ] [DecidableEq π]

/-- The ledger says for each token at which place it is, if it is anywhere; the bags of the places
have it so. -/
def Kept (bag : π → List κ) (at_ : κ → Option π) : Prop :=
  ∀ p c, (bag p).count c = if at_ c = some p then 1 else 0

variable {bag bag' : π → List κ} {at_ : κ → Option π} {c : κ} {p q : π}

theorem kept_empty (h : ∀ p, bag p = []) : Kept bag fun _ => none := by
  intro p c
  simp [h p]

theorem Kept.mem_iff (h : Kept bag at_) : c ∈ bag p ↔ at_ c = some p := by
  rw [← List.count_pos_iff, h p c]
  split_ifs with heq <;> simp [heq]

/-- A token is in one bag, and there once. -/
theorem Kept.once (h : Kept bag at_) (hc : at_ c ≠ none) :
    ∃ p, (bag p).count c = 1 ∧ ∀ q, q ≠ p → c ∉ bag q := by
  obtain ⟨p, hp⟩ := Option.ne_none_iff_exists'.mp hc
  refine ⟨p, by rw [h p c, if_pos hp], ?_⟩
  intro q hq hmem
  rw [h.mem_iff, hp, Option.some.injEq] at hmem
  exact hq hmem.symm

/-- A token turns up at the place `q`, and is nowhere else. -/
theorem Kept.put (h : Kept bag at_) (hq : (bag' q).count c = 1)
    (hout : ∀ p, p ≠ q → c ∉ bag' p) (helse : ∀ p d, d ≠ c → (bag' p).count d = (bag p).count d) :
    Kept bag' (Function.update at_ c (some q)) := by
  intro p d
  by_cases hd : d = c
  · rw [hd, Function.update_self]
    by_cases hp : p = q
    · rw [hp, hq, if_pos rfl]
    · rw [List.count_eq_zero_of_not_mem (hout p hp), if_neg]
      intro heq
      exact hp (Option.some.inj heq).symm
  · rw [helse p d hd, h p d, Function.update_of_ne hd]

/-- A new token is added at the place `q`. -/
theorem Kept.add (h : Kept bag at_) (hc : at_ c = none) (hq : (bag' q).Perm (c :: bag q))
    (helse : ∀ p, p ≠ q → bag' p = bag p) : Kept bag' (Function.update at_ c (some q)) := by
  have hnone (p : π) : c ∉ bag p := by
    rw [h.mem_iff, hc]
    exact nofun
  apply h.put
  · rw [hq.count_eq, List.count_cons_self, List.count_eq_zero_of_not_mem (hnone q)]
  · intro p hp
    rw [helse p hp]
    exact hnone p
  · intro p d hd
    by_cases hp : p = q
    · rw [hp, hq.count_eq, List.count_cons_of_ne hd.symm]
    · rw [helse p hp]

/-- A token moves from one place to another. -/
theorem Kept.move (h : Kept bag at_) (hpq : p ≠ q) (hp : (bag p).Perm (c :: bag' p))
    (hq : (bag' q).Perm (c :: bag q)) (helse : ∀ r, r ≠ p → r ≠ q → bag' r = bag r) :
    Kept bag' (Function.update at_ c (some q)) := by
  have hat : at_ c = some p := by
    apply h.mem_iff.mp
    exact hp.mem_iff.mpr List.mem_cons_self
  have hcount (r : π) : (bag r).count c = if r = p then 1 else 0 := by
    rw [h r c, hat]
    simp only [Option.some.injEq, eq_comm]
  have hone : 1 = (bag' p).count c + 1 := by
    rw [← List.count_cons_self, ← hp.count_eq, hcount, if_pos rfl]
  apply h.put
  · rw [hq.count_eq, List.count_cons_self, hcount, if_neg hpq.symm]
  · intro r hr
    by_cases hrp : r = p
    · rw [hrp, ← List.count_eq_zero]
      omega
    · rw [helse r hrp hr, ← List.count_eq_zero, hcount, if_neg hrp]
  · intro r d hd
    by_cases hrp : r = p
    · rw [hrp, hp.count_eq, List.count_cons_of_ne hd.symm]
    · by_cases hrq : r = q
      · rw [hrq, hq.count_eq, List.count_cons_of_ne hd.symm]
      · rw [helse r hrp hrq]

end Ledger
