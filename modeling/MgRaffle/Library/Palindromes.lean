import Mathlib.Data.List.Palindrome
import Mathlib.Tactic

namespace Palindromes

variable {α : Type*} {s t : List α} {a l : ℕ}

/-- The `l` elements from `a` on are there, and read the same in both directions. -/
def PalindromeAt (s : List α) (a l : ℕ) : Prop :=
  a + l ≤ s.length ∧ ∀ t < l, s[a + t]? = s[a + (l - 1 - t)]?

instance [DecidableEq α] : Decidable (PalindromeAt s a l) :=
  inferInstanceAs (Decidable (_ ∧ _))

theorem PalindromeAt.le_length (h : PalindromeAt s a l) : l ≤ s.length :=
  (Nat.le_add_left l a).trans h.1

/-- It is enough to read up to the middle. -/
theorem palindromeAt_of_half (hle : a + l ≤ s.length)
    (h : ∀ t, 2 * t < l → s[a + t]? = s[a + (l - 1 - t)]?) : PalindromeAt s a l := by
  refine ⟨hle, fun t ht => ?_⟩
  by_cases hhalf : 2 * t < l
  · exact h t hhalf
  · have hback := h (l - 1 - t) (by omega)
    rw [show l - 1 - (l - 1 - t) = t by omega] at hback
    exact hback.symm

theorem PalindromeAt.window (h : PalindromeAt s a l) : ((s.drop a).take l).Palindrome := by
  have hlen : ((s.drop a).take l).length = l := by
    rw [List.length_take, List.length_drop, min_eq_left]
    exact Nat.le_sub_of_add_le' h.1
  refine List.Palindrome.of_reverse_eq (List.ext_getElem? fun t => ?_)
  by_cases ht : t < l
  · rw [List.getElem?_reverse (hlen.symm ▸ ht), hlen, List.getElem?_take_of_lt (by omega),
      List.getElem?_take_of_lt ht, List.getElem?_drop, List.getElem?_drop]
    exact (h.2 t ht).symm
  · rw [List.getElem?_eq_none, List.getElem?_eq_none]
    · exact hlen.trans_le (not_lt.mp ht)
    · rw [List.length_reverse]
      exact hlen.trans_le (not_lt.mp ht)

/-- Each palindrome in a list is a window of it. -/
theorem exists_palindromeAt (ht : t.Palindrome) (hsub : t <:+: s) :
    ∃ a, PalindromeAt s a t.length := by
  obtain ⟨front, back, rfl⟩ := hsub
  refine ⟨front.length, ?_, fun k hk => ?_⟩
  · rw [List.length_append, List.length_append]
    exact Nat.le_add_right _ _
  · have hread : ∀ x < t.length, (front ++ t ++ back)[front.length + x]? = t[x]? := by
      intro x hx
      rw [List.append_assoc, List.getElem?_append_right (Nat.le_add_right _ _),
        Nat.add_sub_cancel_left, List.getElem?_append_left hx]
    rw [hread k hk, hread _ (by omega), ← List.getElem?_reverse hk, ht.reverse_eq]

end Palindromes
