import MgRaffle.Utils.HeapSort

namespace MgRaffle.Utils.Sequence
open Looping

variable {α : Type} {s : Sequence α} {n i j fuel : ℕ} {a b : ℕ → α}

theorem bubbleStep_eq (valid : ℕ → Prop) [DecidablePred valid] (hi : valid i) (hj : valid j) :
    s.bubbleStep valid i j a =
      some (if s.comp (a i) (a j) > 0 then a ∘ Equiv.swap i j else a) := by
  simp only [bubbleStep, load_of_valid hi, load_of_valid hj, exchange_of_valid hi hj,
    Option.bind_eq_bind, Option.bind_some]
  split <;> rfl

/-- `array[i]` against the first `j` elements, in the inner loop. -/
structure Scanned (s : Sequence α) (a : ℕ → α) (i j : ℕ) (b : ℕ → α) : Prop where
  permuted : Permuted {k | k ≤ i} a b
  least : ∀ k, k < j → s.le (b i) (b k)

theorem Scanned.step (h : Scanned s a i j b) (hji : j < i) :
    Scanned s a i (j + 1) (if s.comp (b i) (b j) > 0 then b ∘ Equiv.swap i j else b) := by
  by_cases hgt : s.comp (b i) (b j) > 0
  · rw [if_pos hgt]
    have hle : s.le (b j) (b i) :=
      (Std.Total.total (r := s.le) _ _).resolve_left ((s.not_le_iff_pos _ _).mpr hgt)
    refine ⟨h.permuted.trans (.swap b (le_refl i) hji.le), ?_⟩
    intro k hk
    rw [Function.comp_apply, Function.comp_apply, Equiv.swap_apply_left]
    by_cases hkj : k = j
    · rw [hkj, Equiv.swap_apply_right]
      exact hle
    · rw [Equiv.swap_apply_of_ne_of_ne (by omega) hkj]
      exact s.comp_trans _ _ _ hle (h.least k (by omega))
  · rw [if_neg hgt]
    refine ⟨h.permuted, ?_⟩
    intro k hk
    by_cases hkj : k = j
    · rw [hkj]
      exact not_lt.mp hgt
    · exact h.least k (by omega)

/-- The inner loop brings the least of the first `i + 1` elements to `array[i]`. -/
theorem scanned_of_countUp (hi : i < n)
    (h : countUp (s.bubbleStep (· < n) i) i a = some b) : Scanned s a i i b := by
  refine countUp_partial (fun j c => Scanned s a i j c) ?_ ⟨.refl _ a, ?_⟩ h
  · intro j c d hj hc hd
    rw [bubbleStep_eq (· < n) hi (hj.trans hi)] at hd
    cases hd
    exact hc.step hj
  · intro k hk
    omega

/-- Behind `i` everything is in its place, in descending order. -/
structure Descended (s : Sequence α) (a : ℕ → α) (n : ℕ) (i : ℤ) (b : ℕ → α) : Prop where
  permuted : Permuted {k | k < n} a b
  below : i < n
  descending : ∀ p q : ℕ, p < q → i < q → q < n → s.le (b q) (b p)

theorem Descended.step {c : ℕ → α} (h : Descended s a n i b) (hscan : Scanned s b i i c) :
    Descended s a n (i - 1) c := by
  have hin : i < n := by exact_mod_cast h.below
  have hperm := hscan.permuted
  have hafter : ∀ k, i < k → c k = b k := fun k hk => hperm.eq_of_notMem hk.not_ge
  refine ⟨h.permuted.trans (hperm.mono ?_), by omega, ?_⟩
  · rintro k (hk : k ≤ i)
    exact hk.trans_lt hin
  · intro p q hpq hiq hqn
    by_cases hq : q = i
    · subst hq
      exact hscan.least p hpq
    · rw [hafter q (by omega)]
      by_cases hp : p ≤ i
      · -- the elements up to `i` have changed places among themselves
        exact hperm.forall_of_forall (P := fun x => s.le (b q) x)
          (fun k (hk : k ≤ i) => h.descending k q (by omega) (by omega) hqn) p hp
      · rw [hafter p (by omega)]
        exact h.descending p q hpq (by omega) hqn

/-- A turn of the outer loop always leads to another one. -/
theorem bubbleTurn_eq_some {c : Bubbling α} {x : Bubbling α ⊕ (ℕ → α)} (hlt : c.i < n)
    (h : s.bubbleTurn (· < n) n c = some x) :
    ∃ b, countUp (s.bubbleStep (· < n) c.i) c.i.toNat c.array = some b ∧
      x = .inl ⟨b, c.i - 1⟩ := by
  rw [bubbleTurn, if_pos hlt] at h
  obtain ⟨b, hb, hrest⟩ := Option.bind_eq_some_iff.mp h
  obtain ⟨m, hm, hd⟩ := Option.bind_eq_some_iff.mp hrest
  obtain ⟨rfl, -⟩ := int_eq_some hm
  cases hd
  exact ⟨b, hb, rfl⟩

theorem descended_of_bubbleTurn {c d : Bubbling α} (h : Descended s a n c.i c.array)
    (hturn : s.bubbleTurn (· < n) n c = some (.inl d)) (hpos : 0 ≤ c.i) :
    Descended s a n d.i d.array ∧ -1 ≤ d.i := by
  obtain ⟨b, hb, hd⟩ := bubbleTurn_eq_some h.below hturn
  cases hd
  obtain ⟨array, ci⟩ := c
  obtain ⟨i, rfl⟩ := Int.eq_ofNat_of_zero_le hpos
  have hin : (i : ℤ) < n := h.below
  refine ⟨h.step (scanned_of_countUp (by omega) hb), ?_⟩
  change -1 ≤ (i : ℤ) - 1
  omega

theorem descended_start (n : ℕ) (a : ℕ → α) : Descended s a n (n - 1) a := by
  refine ⟨.refl _ a, by omega, ?_⟩
  intro p q _ hlast hqn
  omega

/-- Once its index is below 0, `bubble` has sorted the array in descending order. -/
theorem bubbleToZero_descending (h : s.bubbleToZero (· < n) fuel a n = some b) :
    Permuted {k | k < n} a b ∧ ∀ p q, p < q → q < n → s.le (b q) (b p) := by
  unfold bubbleToZero at h
  split at h
  · cases h
    refine ⟨.refl _ a, ?_⟩
    intro p q hpq hqn
    omega
  · refine loop_partial (fun c => Descended s a n c.i c.array ∧ -1 ≤ c.i)
      (fun b => Permuted {k | k < n} a b ∧ ∀ p q, p < q → q < n → s.le (b q) (b p)) ?_ ?_
      ⟨descended_start n a, ?_⟩ h
    · rintro c d ⟨hc, -⟩ hd
      split at hd
      · cases hd
      · exact descended_of_bubbleTurn hc hd (by omega)
    · rintro c r ⟨hc, hlow⟩ hr
      split at hr
      · cases hr
        refine ⟨hc.permuted, ?_⟩
        intro p q hpq hqn
        exact hc.descending p q hpq (by omega) hqn
      · obtain ⟨b, -, hb⟩ := bubbleTurn_eq_some hc.below hr
        cases hb
    · change -1 ≤ (n : ℤ) - 1
      omega

/-- The index only goes down, and the loop asks for it to be too great. -/
theorem bubble_eq_none (hn : 2 ≤ n) : s.bubble (· < n) fuel a n = none := by
  rw [bubble, if_neg (by omega), Option.eq_none_iff_forall_not_mem]
  intro b hb
  refine loop_partial (fun c : Bubbling α => c.i < n) (fun _ => False) ?_ ?_ ?_ hb
  · intro c d hc hd
    obtain ⟨e, -, he⟩ := bubbleTurn_eq_some hc hd
    cases he
    have hlt : c.i < n := hc
    change c.i - 1 < n
    omega
  · intro c r hc hr
    obtain ⟨e, -, he⟩ := bubbleTurn_eq_some hc hr
    cases he
  · change (n : ℤ) - 1 < n
    omega

/-- `bubble` comes to an end only where there is nothing to sort. -/
theorem bubble_sorts_iff (s : Sequence α) (n : ℕ) (a : ℕ → α) :
    (∃ fuel b, s.bubble (· < n) fuel a n = some b ∧ Permuted {k | k < n} a b ∧
      ((∀ k, k + 1 < n → s.comp (b k) (b (k + 1)) ≤ 0) ∨
        ∀ k, k + 1 < n → 0 ≤ s.comp (b k) (b (k + 1)))) ↔ n < 2 := by
  constructor
  · rintro ⟨fuel, b, h, -, -⟩
    by_contra hn
    rw [bubble_eq_none (by omega)] at h
    cases h
  · intro hn
    refine ⟨0, a, if_pos (by exact_mod_cast hn), .refl _ a, .inl ?_⟩
    intro k hk
    omega

theorem not_bubble_twoInts :
    ¬ ∃ fuel b, ints.bubble (· < 2) fuel threeInts 2 = some b ∧
      Permuted {k | k < 2} threeInts b ∧
      ((∀ k, k + 1 < 2 → ints.comp (b k) (b (k + 1)) ≤ 0) ∨
        ∀ k, k + 1 < 2 → 0 ≤ ints.comp (b k) (b (k + 1))) := by
  rintro ⟨fuel, b, h, -, -⟩
  have hnone : ints.bubble (· < 2) fuel threeInts 2 = none := bubble_eq_none le_rfl
  rw [hnone] at h
  cases h

/-- The two sorts put the elements in opposite orders: they agree exactly on arrays of one value. -/
theorem bubbleToZero_eq_heapSort_iff (s : Sequence α) (n fuel fuel' : ℕ) (a b c : ℕ → α)
    (hn : n ≤ 2147483647) (hstrict : ∀ x y, s.comp x y = 0 → x = y)
    (hb : s.bubbleToZero (· < n) fuel a n = some b) (hc : s.heapSort (· < n) fuel' a n = some c) :
    b = c ↔ ∀ p q, p < n → q < n → a p = a q := by
  obtain ⟨hbperm, hdesc⟩ := bubbleToZero_descending hb
  obtain ⟨-, rfl⟩ := sortable_of_heapSort hn hc
  constructor
  · rintro rfl p q hp hq
    -- what ascends and descends stays where it is
    have heq : ∀ k l, k < l → l < n → BinaryHeap.sort s.le n a k = BinaryHeap.sort s.le n a l := by
      intro k l hkl hl
      have hle : s.comp _ _ ≤ 0 := BinaryHeap.sort_sorted (r := s.le) n a k l hkl hl
      have hge := (s.comp_le_iff _ _).mp (hdesc k l hkl hl)
      exact hstrict _ _ (le_antisymm hle hge)
    have hall : ∀ k l, k < n → l < n →
        BinaryHeap.sort s.le n a k = BinaryHeap.sort s.le n a l := by
      intro k l hk hl
      rcases lt_trichotomy k l with hkl | rfl | hlk
      · exact heq k l hkl hl
      · rfl
      · exact (heq l k hlk hk).symm
    obtain ⟨k, hk, hpk⟩ := hbperm.symm.exists_eq hp
    obtain ⟨l, hl, hql⟩ := hbperm.symm.exists_eq hq
    rw [hpk, hql]
    exact hall k l hk hl
  · intro hall
    have hconst : ∀ p ∈ {k | k < n}, ∀ q ∈ {k | k < n}, a p = a q := fun p hp q hq => hall p q hp hq
    rw [hbperm.eq_of_forall_eq hconst, (BinaryHeap.sort_permuted n a).eq_of_forall_eq hconst]

theorem ints_strict (x y : ℤ) (h : ints.comp x y = 0) : x = y := by
  have hsub : x - y = 0 := h
  omega

/-- Five times the same. -/
theorem bubbleToZero_eq_heapSort_five :
    ∃ b c, ints.bubbleToZero (· < 5) 6 (fun _ => 7) 5 = some b ∧
      ints.heapSort (· < 5) 6 (fun _ => 7) 5 = some c ∧ b = c := by
  have hb : ∃ b, ints.bubbleToZero (· < 5) 6 (fun _ => 7) 5 = some b := ⟨_, rfl⟩
  have hc : ∃ c, ints.heapSort (· < 5) 6 (fun _ => 7) 5 = some c := ⟨_, rfl⟩
  obtain ⟨b, hb⟩ := hb
  obtain ⟨c, hc⟩ := hc
  refine ⟨b, c, hb, hc, ?_⟩
  exact (bubbleToZero_eq_heapSort_iff ints 5 6 6 _ b c (by decide) ints_strict hb hc).mpr
    fun _ _ _ _ => rfl

/-- 3, 2, 1 against 1, 2, 3. -/
theorem bubbleToZero_ne_heapSort_threeInts :
    ∃ b c, ints.bubbleToZero (· < 3) 4 threeInts 3 = some b ∧
      ints.heapSort (· < 3) 4 threeInts 3 = some c ∧ b ≠ c := by
  have hb : ∃ b, ints.bubbleToZero (· < 3) 4 threeInts 3 = some b ∧ b 0 = 3 := ⟨_, rfl, rfl⟩
  have hc : ∃ c, ints.heapSort (· < 3) 4 threeInts 3 = some c ∧ c 0 = 1 := ⟨_, rfl, rfl⟩
  obtain ⟨b, hb, hb0⟩ := hb
  obtain ⟨c, hc, hc0⟩ := hc
  refine ⟨b, c, hb, hc, ?_⟩
  rintro rfl
  rw [hb0] at hc0
  cases hc0

end MgRaffle.Utils.Sequence
