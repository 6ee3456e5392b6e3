import MgRaffle.Utils.HeapSort

namespace MgRaffle.Utils.Sequence
open Looping

variable {α : Type}

/-- The indices from `low` to `high`. -/
def Between (low : ℕ) (high : ℤ) (k : ℕ) : Prop := low ≤ k ∧ (k : ℤ) ≤ high

instance (low : ℕ) (high : ℤ) : DecidablePred (Between low high) :=
  fun _ => inferInstanceAs (Decidable (_ ∧ _))

variable {s : Sequence α} {low fuel : ℕ} {high : ℤ} {key : α}

theorem of_load_eq_some {a : ℕ → α} {j : ℤ} {x : α}
    (h : load (Between low high) a j = some x) : ∃ k : ℕ, j = k ∧ low ≤ k ∧ x = a k := by
  cases j with
  | ofNat k =>
    have hk : Between low high k := by
      by_contra hno
      cases h.symm.trans (load_of_not_valid hno)
    cases h.symm.trans (load_of_valid hk)
    exact ⟨k, rfl, hk.1, rfl⟩
  | negSucc k => cases h

theorem of_store_eq_some {a b : ℕ → α} {x : α}
    (h : store (Between low high) a x (low : ℤ) = some b) : b low = x := by
  by_cases hlow : Between low high low
  · have hb : store (Between low high) a x (low : ℤ) = some (Function.update a low x) := if_pos hlow
    cases h.symm.trans hb
    exact Function.update_self low x a
  · have hb : store (Between low high) a x (low : ℤ) = none := if_neg hlow
    cases h.symm.trans hb

/-- The hole never leaves `low`, since what comes there is not above `key`. -/
structure Stuck (s : Sequence α) (low : ℕ) (key : α) (p : Partitioning α) : Prop where
  i_eq : p.i = low
  le : s.comp (p.array low) key ≤ 0
  lt : p.j ≤ low → s.comp (p.array low) key < 0

/-- Everything that a turn of the first inner loop can do. -/
theorem partitionDown_cases {p : Partitioning α} {x : Partitioning α ⊕ Partitioning α}
    (h : s.partitionDown (Between low high) key p = some x) :
    ∃ y, load (Between low high) p.array p.j = some y ∧
      ((s.comp y key < 0 ∧ ∃ b j, store (Between low high) p.array y p.i = some b ∧
        x = .inl ⟨b, p.i, j⟩) ∨ (¬ s.comp y key < 0 ∧ x = .inr p)) := by
  obtain ⟨y, hy, hrest⟩ := Option.bind_eq_some_iff.mp h
  refine ⟨y, hy, ?_⟩
  split at hrest
  · rename_i hlt
    obtain ⟨b, hb, hrest⟩ := Option.bind_eq_some_iff.mp hrest
    obtain ⟨j, -, hx⟩ := Option.bind_eq_some_iff.mp hrest
    cases hx
    exact .inl ⟨hlt, b, j, hb, rfl⟩
  · rename_i hge
    cases hrest
    exact .inr ⟨hge, rfl⟩

/-- The first inner loop ends above `low`, if it ends. -/
theorem stuck_of_partitionDown {p q : Partitioning α} (h : Stuck s low key p)
    (hloop : loop (s.partitionDown (Between low high) key) fuel p = some q) :
    Stuck s low key q ∧ (low : ℤ) < q.j := by
  refine loop_partial (Stuck s low key) (fun q => Stuck s low key q ∧ (low : ℤ) < q.j) ?_ ?_ h hloop
  · intro p q hp hq
    obtain ⟨x, -, ⟨hlt, b, j, hb, hq⟩ | ⟨-, hq⟩⟩ := partitionDown_cases hq
    · cases hq
      -- what is stored at `low` is less than `key` itself
      rw [hp.i_eq] at hb
      have hblow := of_store_eq_some hb
      rw [← hblow] at hlt
      exact ⟨hp.i_eq, hlt.le, fun _ => hlt⟩
    · cases hq
  · intro p q hp hq
    obtain ⟨x, hx, ⟨-, b, j, -, hq⟩ | ⟨hge, hq⟩⟩ := partitionDown_cases hq
    · cases hq
    · cases hq
      refine ⟨hp, ?_⟩
      obtain ⟨k, hjk, hlk, rfl⟩ := of_load_eq_some hx
      by_contra hle
      -- at `low` the scan would have gone on
      have hkl : k = low := by omega
      subst hkl
      exact hge (hp.lt (by omega))

/-- The second one does nothing. -/
theorem eq_of_partitionUp {p q : Partitioning α} (h : Stuck s low key p)
    (hloop : loop (s.partitionUp (Between low high) key) fuel p = some q) : q = p := by
  have hturn : ∀ x, s.partitionUp (Between low high) key p = some x → x = .inr p := by
    intro x hx
    obtain ⟨y, hy, hrest⟩ := Option.bind_eq_some_iff.mp hx
    rw [h.i_eq] at hy
    obtain ⟨k, hk, -, rfl⟩ := of_load_eq_some hy
    have hkl : k = low := by omega
    subst hkl
    rw [if_neg (not_lt.mpr h.le)] at hrest
    cases hrest
    rfl
  refine loop_partial (fun r => r = p) (fun r => r = p) ?_ ?_ rfl hloop
  · rintro t r rfl hr
    cases hturn _ hr
  · rintro t r rfl hr
    cases hturn _ hr
    rfl

/-- A turn of `while (i < j)` leaves the hole at `low` and `j` above it. -/
theorem partitionTurn_stuck {p : Partitioning α} {x : Partitioning α ⊕ Partitioning α}
    (h : Stuck s low key p) (hj : (low : ℤ) < p.j)
    (hx : s.partitionTurn (Between low high) fuel key p = some x) :
    ∃ q, x = .inl q ∧ Stuck s low key q ∧ (low : ℤ) < q.j := by
  rw [partitionTurn, if_pos (by rw [h.i_eq]; exact hj)] at hx
  obtain ⟨t, ht, hrest⟩ := Option.bind_eq_some_iff.mp hx
  obtain ⟨u, hu, hx⟩ := Option.bind_eq_some_iff.mp hrest
  cases hx
  have hdown := stuck_of_partitionDown h ht
  rw [eq_of_partitionUp hdown.1 hu]
  exact ⟨t, rfl, hdown⟩

/-- `while (i < j)` goes on for ever. -/
theorem partition_eq_none {p : Partitioning α} {n : ℕ} (h : Stuck s low key p)
    (hj : (low : ℤ) < p.j) :
    loop (s.partitionTurn (Between low high) fuel key) n p = none := by
  rw [Option.eq_none_iff_forall_not_mem]
  intro r hr
  refine loop_partial (fun p => Stuck s low key p ∧ (low : ℤ) < p.j) (fun _ => False) ?_ ?_
    ⟨h, hj⟩ hr
  · rintro p q ⟨hp, hlt⟩ hq
    obtain ⟨t, ht, hstuck⟩ := partitionTurn_stuck hp hlt hq
    cases ht
    exact hstuck
  · rintro p q ⟨hp, hlt⟩ hq
    obtain ⟨t, ht, -⟩ := partitionTurn_stuck hp hlt hq
    cases ht

theorem fastSort_eq_none (a : ℕ → α) (h : (low : ℤ) < high) :
    s.fastSort (Between low high) fuel a low high = none := by
  cases fuel with
  | zero => rfl
  | succ fuel =>
    have hlow : Between low high low := ⟨le_rfl, h.le⟩
    have hstart : Stuck s low (a low) ⟨a, low, high⟩ :=
      ⟨rfl, s.comp_self _, fun hle => absurd h (not_lt.mpr hle)⟩
    rw [fastSort, if_neg (not_le.mpr h), load_of_valid hlow, Option.bind_eq_bind, Option.bind_some,
      partition_eq_none hstart h]
    rfl

/-- `fast_sort` comes to an end only where there is nothing to sort. -/
theorem fastSort_sorts_iff (s : Sequence α) (low : ℕ) (high : ℤ) (a : ℕ → α) :
    (∃ fuel b, s.fastSort (Between low high) fuel a low high = some b ∧
      Permuted {k | Between low high k} a b ∧
      ((∀ k : ℕ, low ≤ k → ((k + 1 : ℕ) : ℤ) ≤ high → s.comp (b k) (b (k + 1)) ≤ 0) ∨
        ∀ k : ℕ, low ≤ k → ((k + 1 : ℕ) : ℤ) ≤ high → 0 ≤ s.comp (b k) (b (k + 1)))) ↔
      high ≤ low := by
  constructor
  · rintro ⟨fuel, b, h, -, -⟩
    by_contra hlt
    rw [fastSort_eq_none a (not_le.mp hlt)] at h
    cases h
  · intro h
    refine ⟨1, a, if_pos h, .refl _ a, .inl ?_⟩
    intro k hk hhigh
    omega

theorem not_fastSort_twoInts :
    ¬ ∃ fuel b, ints.fastSort (Between 0 1) fuel threeInts 0 1 = some b ∧
      Permuted {k | Between 0 1 k} threeInts b ∧
      ((∀ k : ℕ, 0 ≤ k → ((k + 1 : ℕ) : ℤ) ≤ 1 → ints.comp (b k) (b (k + 1)) ≤ 0) ∨
        ∀ k : ℕ, 0 ≤ k → ((k + 1 : ℕ) : ℤ) ≤ 1 → 0 ≤ ints.comp (b k) (b (k + 1))) := by
  rintro ⟨fuel, b, h, -, -⟩
  have hnone : ints.fastSort (Between 0 1) fuel threeInts 0 1 = none :=
    fastSort_eq_none threeInts (by decide)
  rw [hnone] at h
  cases h

end MgRaffle.Utils.Sequence
