import Mathlib.Algebra.Order.BigOperators.Group.List
import Mathlib.Order.Bounds.Basic
import Mathlib.Tactic

namespace Subarray

variable {α : Type*} [AddCommMonoid α]

/-- The sums of the contiguous parts of a list that are not empty. -/
def partSums (xs : List α) : Set α := {x | ∃ t, t ≠ [] ∧ t <:+: xs ∧ t.sum = x}

/-- The sums of what a list ends with, the empty one too. -/
def endSums (xs : List α) : Set α := {x | ∃ t, t <:+ xs ∧ t.sum = x}

variable {xs : List α} {x y s m : α}

theorem zero_mem_endSums (xs : List α) : 0 ∈ endSums xs := ⟨[], List.nil_suffix, List.sum_nil⟩

/-- What the longer list ends with is empty, or goes on with what the shorter one ends with. -/
theorem mem_endSums_concat :
    y ∈ endSums (xs ++ [x]) ↔ y = 0 ∨ ∃ z ∈ endSums xs, y = z + x := by
  constructor
  · rintro ⟨t, ht, rfl⟩
    rcases List.suffix_concat_iff.mp ht with rfl | ⟨u, rfl, hu⟩
    · exact .inl List.sum_nil
    · exact .inr ⟨u.sum, ⟨u, hu, rfl⟩, by rw [List.sum_append, List.sum_singleton]⟩
  · rintro (rfl | ⟨z, ⟨u, hu, rfl⟩, rfl⟩)
    · exact zero_mem_endSums _
    · refine ⟨u ++ [x], List.suffix_concat_iff.mpr (.inr ⟨u, rfl, hu⟩), ?_⟩
      rw [List.sum_append, List.sum_singleton]

/-- A part of the longer list is one of the shorter list, or ends with the last element. -/
theorem mem_partSums_concat :
    y ∈ partSums (xs ++ [x]) ↔ y ∈ partSums xs ∨ ∃ z ∈ endSums xs, y = z + x := by
  constructor
  · rintro ⟨t, hne, ht, rfl⟩
    rcases List.infix_concat_iff.mp ht with ht | ht
    · rcases List.suffix_concat_iff.mp ht with rfl | ⟨u, rfl, hu⟩
      · exact absurd rfl hne
      · exact .inr ⟨u.sum, ⟨u, hu, rfl⟩, by rw [List.sum_append, List.sum_singleton]⟩
    · exact .inl ⟨t, hne, ht, rfl⟩
  · rintro (⟨t, hne, ht, rfl⟩ | ⟨z, ⟨u, hu, rfl⟩, rfl⟩)
    · exact ⟨t, hne, List.infix_concat_iff.mpr (.inr ht), rfl⟩
    · refine ⟨u ++ [x], List.append_ne_nil_of_right_ne_nil _ (List.cons_ne_nil x []), ?_, ?_⟩
      · exact List.infix_concat_iff.mpr (.inl (List.suffix_concat_iff.mpr (.inr ⟨u, rfl, hu⟩)))
      · rw [List.sum_append, List.sum_singleton]

section Order

variable [LinearOrder α] [IsOrderedAddMonoid α]

/-- One element more: the greatest end is reset where it is not worth going on with. -/
theorem isGreatest_endSums_concat (h : IsGreatest (endSums xs) s) :
    IsGreatest (endSums (xs ++ [x])) (max 0 (s + x)) := by
  constructor
  · rcases max_choice 0 (s + x) with hmax | hmax
    · rw [hmax]
      exact zero_mem_endSums _
    · rw [hmax]
      exact mem_endSums_concat.mpr (.inr ⟨s, h.1, rfl⟩)
  · intro y hy
    rcases mem_endSums_concat.mp hy with rfl | ⟨z, hz, rfl⟩
    · exact le_max_left _ _
    · exact (add_le_add_left (h.2 hz) x).trans (le_max_right _ _)

theorem isGreatest_partSums_concat (h : IsGreatest (endSums xs) s)
    (hm : IsGreatest (partSums xs) m) : IsGreatest (partSums (xs ++ [x])) (max m (s + x)) := by
  constructor
  · rcases max_choice m (s + x) with hmax | hmax
    · rw [hmax]
      exact mem_partSums_concat.mpr (.inl hm.1)
    · rw [hmax]
      exact mem_partSums_concat.mpr (.inr ⟨s, h.1, rfl⟩)
  · intro y hy
    rcases mem_partSums_concat.mp hy with hy | ⟨z, hz, rfl⟩
    · exact (hm.2 hy).trans (le_max_left _ _)
    · exact (add_le_add_left (h.2 hz) x).trans (le_max_right _ _)

omit [IsOrderedAddMonoid α] in
theorem isGreatest_endSums_nil : IsGreatest (endSums ([] : List α)) 0 := by
  refine ⟨zero_mem_endSums [], ?_⟩
  rintro y ⟨t, ht, rfl⟩
  rw [List.suffix_nil.mp ht, List.sum_nil]

theorem isGreatest_partSums_singleton (x : α) : IsGreatest (partSums [x]) x := by
  refine ⟨⟨[x], List.cons_ne_nil x [], List.infix_rfl, List.sum_singleton⟩, ?_⟩
  intro y hy
  rw [← List.nil_append [x], mem_partSums_concat] at hy
  rcases hy with ⟨t, hne, ht, -⟩ | ⟨z, hz, rfl⟩
  · exact absurd (List.infix_nil.mp ht) hne
  · have hzero := isGreatest_endSums_nil.2 hz
    simpa using add_le_add_left hzero x

end Order

end Subarray
