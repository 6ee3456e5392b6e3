import MgRaffle.Library.Majorant
import MgRaffle.Library.Subarray
import MgRaffle.Utils.Sequence

namespace MgRaffle.MgServer.Helloworld
open Utils Subarray Majorant

section ArrTest

/-- `sum` and `max` of `arr_test`. -/
structure Summing where
  sum : ℤ
  max : ℤ

/-- The body of the loop, where `x` is `vec[i]`. -/
def arrTestStep (s : Summing) (x : ℤ) : Option Summing := do
  let sum ← int (s.sum + x)
  let max := if sum > s.max then sum else s.max
  some ⟨if sum ≤ 0 then 0 else sum, max⟩

def arrTest : List ℤ → Option ℤ
  | [] => some 0
  | first :: rest => do
    let s ← (first :: rest).foldlM arrTestStep ⟨0, first⟩
    some s.max

variable {vec pre : List ℤ} {s : Summing} {x : ℤ}

/-- `sum` is the greatest sum of an end of what is read, `max` that of a part. -/
structure Summing.Best (pre : List ℤ) (s : Summing) : Prop where
  sum : IsGreatest (endSums pre) s.sum
  max : IsGreatest (partSums pre) s.max

theorem arrTestStep_of_int (h : int (s.sum + x) = some (s.sum + x)) :
    arrTestStep s x = some ⟨Max.max 0 (s.sum + x), Max.max s.max (s.sum + x)⟩ := by
  rw [arrTestStep, h]
  simp only [bind, Option.bind_some, Option.some.injEq, Summing.mk.injEq]
  constructor
  · split <;> omega
  · split <;> omega

/-- No contiguous sum leaves the range of `int`. -/
def Representable (vec : List ℤ) : Prop :=
  ∀ t, t <:+: vec → -2147483648 ≤ t.sum ∧ t.sum ≤ 2147483647

/-- What one more element makes of the two numbers: `sum` is reset after `max` has seen it. -/
theorem Summing.Best.step (h : s.Best pre) (hvec : Representable (pre ++ [x])) :
    ∃ s', arrTestStep s x = some s' ∧ s'.Best (pre ++ [x]) := by
  obtain ⟨t, ht, hsum⟩ := h.sum.1
  have hint : int (s.sum + x) = some (s.sum + x) := by
    have hinfix : t ++ [x] <:+: pre ++ [x] :=
      (List.suffix_concat_iff.mpr (.inr ⟨t, rfl, ht⟩)).isInfix
    have hrange := hvec _ hinfix
    rw [List.sum_append, List.sum_singleton, hsum] at hrange
    exact int_of_le hrange.1 hrange.2
  exact ⟨_, arrTestStep_of_int hint,
    isGreatest_endSums_concat h.sum, isGreatest_partSums_concat h.sum h.max⟩

/-- The whole loop, from any part of the array on. -/
theorem Summing.Best.run (h : s.Best pre) (hvec : Representable (pre ++ vec)) :
    ∃ s', vec.foldlM arrTestStep s = some s' ∧ s'.Best (pre ++ vec) := by
  induction vec generalizing pre s with
  | nil =>
    rw [List.append_nil]
    exact ⟨s, rfl, h⟩
  | cons x vec ih =>
    have hpre : pre ++ x :: vec = (pre ++ [x]) ++ vec := by rw [List.append_assoc]; rfl
    rw [hpre] at hvec ⊢
    obtain ⟨s', hs', hbest⟩ :=
      h.step fun t ht => hvec t (ht.trans (List.prefix_append _ _).isInfix)
    obtain ⟨s'', hs'', hbest'⟩ := ih hbest hvec
    refine ⟨s'', ?_, hbest'⟩
    rw [List.foldlM_cons, hs']
    exact hs''

/-- The first turn, which compares `vec[0]` with itself. -/
theorem best_first (hvec : Representable [x]) :
    ∃ s, arrTestStep ⟨0, x⟩ x = some s ∧ s.Best [x] := by
  have hrange := hvec [x] List.infix_rfl
  rw [List.sum_singleton] at hrange
  have hint : int (0 + x) = some (0 + x) := by
    rw [zero_add]
    exact int_of_le hrange.1 hrange.2
  refine ⟨_, arrTestStep_of_int (s := ⟨0, x⟩) hint, ?_, ?_⟩
  · show IsGreatest (endSums ([] ++ [x])) (Max.max 0 (0 + x))
    exact isGreatest_endSums_concat isGreatest_endSums_nil
  · show IsGreatest (partSums [x]) (Max.max x (0 + x))
    rw [zero_add, max_self]
    exact isGreatest_partSums_singleton x

/-- `arr_test` returns the greatest sum of a part of the array that is not empty. -/
theorem arrTest_isGreatest (hne : vec ≠ []) (hvec : Representable vec) :
    ∃ m, arrTest vec = some m ∧ IsGreatest (partSums vec) m := by
  cases vec with
  | nil => exact absurd rfl hne
  | cons x vec =>
    obtain ⟨s, hs, hbest⟩ := best_first (x := x) fun t ht =>
      hvec t (ht.trans (List.prefix_append [x] vec).isInfix)
    obtain ⟨s', hs', hbest'⟩ := hbest.run hvec
    refine ⟨s'.max, ?_, hbest'.max⟩
    rw [arrTest, List.foldlM_cons, hs]
    simp only [bind, Option.bind_some] at hs' ⊢
    rw [hs', Option.bind_some]

theorem arrTest_isGreatest_negative :
    ∃ m, arrTest [-5, -4, -3, -2, -1] = some m ∧
      IsGreatest (partSums [-5, -4, -3, -2, -1]) m := by
  refine arrTest_isGreatest (by decide) fun t ht => ?_
  have hall : ∀ t ∈ [-5, -4, -3, -2, -1].sublists',
      -2147483648 ≤ t.sum ∧ t.sum ≤ (2147483647 : ℤ) := by decide
  exact hall t (List.mem_sublists'.mpr ht.sublist)

example : arrTest [-5, -4, -3, -2, -1] = some (-1) := by decide

example : arrTest [-2, 1, -3, 4, -1, 2, 1, -5, 4] = some 6 := by decide

end ArrTest

section MinOperations

/-- `steps` and `needAddTo` of `minOperations`. -/
structure Raising where
  steps : ℤ
  needAddTo : ℤ

/-- The body of the loop. -/
def minOperationsStep (s : Raising) (item : ℤ) : Option Raising :=
  if item > s.needAddTo then do
    let needAddTo ← int (item + 1)
    some ⟨s.steps, needAddTo⟩
  else do
    let missing ← int (s.needAddTo - item)
    let steps ← int (s.steps + missing)
    let needAddTo ← int (s.needAddTo + 1)
    some ⟨steps, needAddTo⟩

def minOperations (nums : List ℤ) : Option ℤ :=
  if nums.length ≤ 1 then some 0
  else do
    let first ← nums.head?
    let s ← nums.foldlM minOperationsStep ⟨0, first⟩
    some s.steps

variable {s s' : Raising} {item : ℤ} {nums : List ℤ} {r : ℤ}

/-- The values that are `int`s, the steps counted from 0. -/
structure Raising.InRange (s : Raising) : Prop where
  steps : 0 ≤ s.steps ∧ s.steps ≤ 2147483647
  needAddTo : -2147483648 ≤ s.needAddTo ∧ s.needAddTo ≤ 2147483647

/-- The element is raised to `max needAddTo item`, and one more is asked for from then on. -/
def Raising.raised (s : Raising) (item : ℤ) : Raising :=
  ⟨s.steps + (max s.needAddTo item - item), max s.needAddTo item + 1⟩

/-- Either branch does the same, where it does not overflow. -/
theorem minOperationsStep_eq_some (hs : s.InRange) (h : minOperationsStep s item = some s') :
    s' = s.raised item ∧ s'.InRange := by
  unfold minOperationsStep at h
  split at h
  · obtain ⟨need, hneed, h⟩ := Option.bind_eq_some_iff.mp h
    obtain ⟨rfl, hlow, hhigh⟩ := int_eq_some hneed
    cases h
    refine ⟨?_, hs.steps, hlow, hhigh⟩
    rw [Raising.raised, max_eq_right (by omega), sub_self, add_zero]
  · obtain ⟨missing, hmissing, h⟩ := Option.bind_eq_some_iff.mp h
    obtain ⟨steps, hsteps, h⟩ := Option.bind_eq_some_iff.mp h
    obtain ⟨need, hneed, h⟩ := Option.bind_eq_some_iff.mp h
    obtain ⟨rfl, -⟩ := int_eq_some hmissing
    obtain ⟨rfl, -, htotal⟩ := int_eq_some hsteps
    obtain ⟨rfl, hlow, hhigh⟩ := int_eq_some hneed
    cases h
    have hzero := hs.steps.1
    refine ⟨?_, ⟨?_, htotal⟩, hlow, hhigh⟩
    · rw [Raising.raised, max_eq_left (by omega)]
    · show 0 ≤ s.steps + (s.needAddTo - item)
      omega

theorem minOperationsStep_of_inRange (hs : s.InRange)
    (hitem : -2147483648 ≤ item ∧ item ≤ 2147483647) (h : (s.raised item).InRange) :
    minOperationsStep s item = some (s.raised item) := by
  obtain ⟨hsteps, hneed⟩ := hs
  obtain ⟨hlow, hhigh⟩ := hitem
  obtain ⟨htotal, hnext⟩ := h
  simp only [Raising.raised] at htotal hnext ⊢
  unfold minOperationsStep
  split
  · rw [max_eq_right (by omega)] at hnext ⊢
    rw [int_of_le hnext.1 hnext.2, sub_self, add_zero]
    rfl
  · rw [max_eq_left (by omega)] at htotal hnext ⊢
    -- one element's share is no more than all the steps
    rw [int_of_le (by omega) (by omega)]
    simp only [bind, Option.bind_some]
    rw [int_of_le (by omega) htotal.2, int_of_le hnext.1 hnext.2]
    rfl

/-- A whole run raises the elements as little as can be, and counts what that costs. -/
theorem minOperations_run (hs : s.InRange) (h : nums.foldlM minOperationsStep s = some s') :
    s'.steps = s.steps + cost nums (raise s.needAddTo nums) ∧ s'.InRange ∧
      ∀ y ∈ raise s.needAddTo nums, y + 1 ≤ 2147483647 := by
  induction nums generalizing s with
  | nil =>
    cases h
    exact ⟨(add_zero _).symm, hs, fun y hy => absurd hy List.not_mem_nil⟩
  | cons item nums ih =>
    rw [List.foldlM_cons] at h
    obtain ⟨t, ht, h⟩ := Option.bind_eq_some_iff.mp h
    obtain ⟨rfl, hrange⟩ := minOperationsStep_eq_some hs ht
    obtain ⟨hsteps, hrange', hmax⟩ := ih hrange h
    refine ⟨?_, hrange', ?_⟩
    · rw [hsteps, raise, cost_cons, Order.succ_eq_add_one]
      exact add_assoc _ _ _
    · intro y hy
      rcases List.mem_cons.mp hy with rfl | hy
      · exact hrange.needAddTo.2
      · exact hmax y hy

theorem minOperations_ends (hs : s.InRange)
    (hint : ∀ x ∈ nums, -2147483648 ≤ x ∧ x ≤ 2147483647)
    (hcost : s.steps + cost nums (raise s.needAddTo nums) ≤ 2147483647)
    (hmax : ∀ y ∈ raise s.needAddTo nums, y + 1 ≤ 2147483647) :
    ∃ s', nums.foldlM minOperationsStep s = some s' := by
  induction nums generalizing s with
  | nil => exact ⟨s, rfl⟩
  | cons item nums ih =>
    rw [raise, cost_cons, Order.succ_eq_add_one] at hcost
    rw [raise, Order.succ_eq_add_one] at hmax
    have hrest := cost_nonneg (le_raise (max s.needAddTo item + 1) nums)
    have hrange : (s.raised item).InRange := by
      have hneed := hs.needAddTo
      have hsteps := hs.steps
      have hfirst := hmax _ List.mem_cons_self
      constructor
      · show 0 ≤ s.steps + (max s.needAddTo item - item) ∧ _ ≤ (2147483647 : ℤ)
        simp only [Raising.raised]
        omega
      · show -2147483648 ≤ max s.needAddTo item + 1 ∧ max s.needAddTo item + 1 ≤ 2147483647
        omega
    rw [List.foldlM_cons, minOperationsStep_of_inRange hs (hint item List.mem_cons_self) hrange]
    refine ih hrange (fun x hx => hint x (List.mem_cons_of_mem _ hx)) ?_
      fun y hy => hmax y (List.mem_cons_of_mem _ hy)
    show s.steps + (max s.needAddTo item - item) +
      cost nums (raise (max s.needAddTo item + 1) nums) ≤ 2147483647
    omega

/-- No intermediate value leaves the range of `int`: not the steps, and not what is asked for. -/
def Contained (nums : List ℤ) : Prop :=
  nums.length ≤ 1 ∨ ∃ first ∈ nums.head?, cost nums (raise first nums) ≤ 2147483647 ∧
    ∀ y ∈ raise first nums, y + 1 ≤ 2147483647

theorem isLeast_costs_of_length_le_one (h : nums.length ≤ 1) : IsLeast (costs nums) 0 := by
  match nums with
  | [] =>
    refine ⟨⟨[], .nil, .nil, rfl⟩, ?_⟩
    rintro c ⟨ys, hle, -, rfl⟩
    exact cost_nonneg hle
  | [x] =>
    have hleast := isLeast_costs x []
    rw [raise, raise, cost_cons, max_self, sub_self, zero_add] at hleast
    exact hleast

theorem minOperations_of_length (h : ¬ nums.length ≤ 1) {first : ℤ} (hfirst : first ∈ nums.head?) :
    minOperations nums = (nums.foldlM minOperationsStep ⟨0, first⟩).map (·.steps) := by
  rw [minOperations, if_neg h, Option.mem_def.mp hfirst]
  rw [Option.map_eq_bind]
  rfl

/-- `minOperations` returns the least cost of a strictly increasing list above the vector, and
returns wherever no intermediate value overflows. -/
theorem minOperations_isLeast (hint : ∀ x ∈ nums, -2147483648 ≤ x ∧ x ≤ 2147483647) :
    ((∃ r, minOperations nums = some r) ↔ Contained nums) ∧
      ∀ r, minOperations nums = some r → IsLeast (costs nums) r := by
  by_cases hlen : nums.length ≤ 1
  · have hzero : minOperations nums = some 0 := if_pos hlen
    refine ⟨iff_of_true ⟨0, hzero⟩ (.inl hlen), fun r hr => ?_⟩
    rw [hzero, Option.some.injEq] at hr
    exact hr ▸ isLeast_costs_of_length_le_one hlen
  · obtain ⟨first, rest, rfl⟩ : ∃ first rest, nums = first :: rest :=
      List.exists_cons_of_length_pos (by omega)
    have hinit : Raising.InRange ⟨0, first⟩ :=
      ⟨⟨le_rfl, by norm_num⟩, hint first List.mem_cons_self⟩
    have heq := minOperations_of_length hlen rfl
    constructor
    · constructor
      · rintro ⟨r, hr⟩
        rw [heq] at hr
        obtain ⟨s, hs, rfl⟩ := Option.map_eq_some_iff.mp hr
        obtain ⟨hsteps, hrange, hmax⟩ := minOperations_run hinit hs
        rw [zero_add] at hsteps
        exact .inr ⟨first, rfl, hsteps ▸ hrange.steps.2, hmax⟩
      · rintro (hshort | ⟨x, hx, hcost, hmax⟩)
        · exact absurd hshort hlen
        · cases hx
          obtain ⟨s, hs⟩ := minOperations_ends hinit hint (by rw [zero_add]; exact hcost) hmax
          exact ⟨s.steps, by rw [heq, hs]; rfl⟩
    · intro r hr
      rw [heq] at hr
      obtain ⟨s, hs, rfl⟩ := Option.map_eq_some_iff.mp hr
      rw [(minOperations_run hinit hs).1, zero_add]
      exact isLeast_costs first rest

theorem minOperations_isLeast_four :
    ((∃ r, minOperations [1, 5, 2, 4] = some r) ↔ Contained [1, 5, 2, 4]) ∧
      ∀ r, minOperations [1, 5, 2, 4] = some r → IsLeast (costs [1, 5, 2, 4]) r :=
  minOperations_isLeast (by decide)

example : minOperations [1, 5, 2, 4] = some 7 := by decide

end MinOperations

end MgRaffle.MgServer.Helloworld
