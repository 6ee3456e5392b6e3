import MgRaffle.Utils.HashTable

namespace MgRaffle.Utils

open LinkedChain

namespace HashTable

variable {ι : Type*} {hash : ι → UInt32} {mem : ℕ → ℕ → Pointer ι} {T : HashTable ι}
  {n x : UInt32} {fuel : ℕ} {chains : ℕ → List ι}

section Growth

theorem bucketOf_lt (hn : 0 < n.toNat) (x : UInt32) : bucketOf n x < n.toNat := by
  have hle : (1 : UInt32) ≤ n := by
    rw [UInt32.le_iff_toNat_le]
    exact hn
  have hsub : (n - 1).toNat = n.toNat - 1 := UInt32.toNat_sub_of_le n 1 hle
  have hand : bucketOf n x ≤ (n - 1).toNat := by
    rw [bucketOf, UInt32.toNat_and]
    exact Nat.and_le_right
  omega

/-- The sizes that the loop tries. -/
def size (j : ℕ) : UInt32 := UInt32.ofNat (4 ^ j)

theorem size_shift {j : ℕ} (hj : j < 15) : size j <<< 2 = size (j + 1) := by
  revert j
  decide

theorem size_toNat {j : ℕ} (hj : j ≤ 15) : (size j).toNat = 4 ^ j := by
  have hlt : 4 ^ j < 2 ^ 32 :=
    calc 4 ^ j ≤ 4 ^ 15 := Nat.pow_le_pow_right (by decide) hj
      _ < 2 ^ 32 := by decide
  exact UInt32.toNat_ofNat_of_lt' hlt

/-- The size has `m` steps to go to the largest power of four. -/
def Growing (m : ℕ) (newLength : UInt32) : Prop := ∃ j, 1 ≤ j ∧ j + m = 15 ∧ newLength = size j

/-- Up to `2 ^ 30` elements the loop ends before the size wraps around. -/
theorem growth_ends {elem : UInt32} (h : elem.toNat ≤ 2 ^ 30) (hfuel : 15 < fuel) :
    ∃ n, Looping.loop (growTurn elem) fuel 4 = some n ∧ elem ≤ n ∧ ∃ j, n.toNat = 4 ^ j := by
  have hstart : Growing 14 4 := ⟨1, le_rfl, rfl, rfl⟩
  have hfuel' : 14 < fuel := by omega
  apply Looping.loop_total _ hstart hfuel'
  intro m s hs
  obtain ⟨j, hj, hjm, hsize⟩ := hs
  have htoNat := size_toNat (j := j) (by omega)
  rw [hsize]
  by_cases hlt : size j < elem
  · apply Or.inl
    have hpow : 4 ^ j < 2 ^ 30 := by
      rw [UInt32.lt_iff_toNat_lt, htoNat] at hlt
      omega
    have hj15 : j < 15 := by
      by_contra hge
      have hmono : 4 ^ 15 ≤ 4 ^ j := Nat.pow_le_pow_right (by decide) (by omega)
      have heq : (4 : ℕ) ^ 15 = 2 ^ 30 := by decide
      omega
    refine ⟨size (j + 1), ?_, m - 1, by omega, j + 1, by omega, by omega, rfl⟩
    rw [growTurn, if_pos hlt, size_shift hj15]
  · apply Or.inr
    exact ⟨size j, if_neg hlt, UInt32.not_lt.mp hlt, j, htoNat⟩

/-- With more elements the size becomes 0, and stays 0. -/
theorem growth_endless {elem : UInt32} (h : 2 ^ 30 < elem.toNat) :
    Looping.loop (growTurn elem) fuel 4 = none := by
  rw [Option.eq_none_iff_forall_not_mem]
  intro n hn
  have hshort : ∀ s, s = 0 ∨ (∃ j, j ≤ 15 ∧ s = size j) → s < elem := by
    rintro s (rfl | ⟨j, hj, rfl⟩)
    · rw [UInt32.lt_iff_toNat_lt]
      exact (Nat.zero_le _).trans_lt h
    · have hpow : 4 ^ j ≤ 4 ^ 15 := Nat.pow_le_pow_right (by decide) hj
      have heq : (4 : ℕ) ^ 15 = 2 ^ 30 := by decide
      rw [UInt32.lt_iff_toNat_lt, size_toNat hj]
      omega
  refine Looping.loop_partial (fun s => s = 0 ∨ ∃ j, j ≤ 15 ∧ s = size j) (fun _ => False) ?_ ?_
    (.inr ⟨1, by decide, rfl⟩) hn
  · intro s t hs ht
    rw [growTurn, if_pos (hshort s hs)] at ht
    cases ht
    rcases hs with rfl | ⟨j, hj, rfl⟩
    · exact .inl (by decide)
    · by_cases hj15 : j < 15
      · exact .inr ⟨j + 1, hj15, size_shift hj15⟩
      · -- four times the largest power of four is `2 ^ 32`
        obtain rfl : j = 15 := by omega
        exact .inl (by decide)
  · intro s r hs hr
    rw [growTurn, if_pos (hshort s hs)] at hr
    cases hr

/-- The loop ends, with a power of two that is large enough, exactly for up to `2 ^ 30` elements. -/
theorem growth_usable_iff (elem : UInt32) :
    (∃ fuel n, Looping.loop (growTurn elem) fuel 4 = some n ∧ (∃ j, n.toNat = 2 ^ j) ∧
      elem ≤ n ∧ ∀ x, bucketOf n x < n.toNat) ↔ elem.toNat ≤ 2 ^ 30 := by
  constructor
  · rintro ⟨fuel, n, hn, -⟩
    by_contra hlt
    rw [growth_endless (not_le.mp hlt)] at hn
    cases hn
  · intro h
    obtain ⟨n, hn, hle, j, hj⟩ := growth_ends h (Nat.lt_succ_self 15)
    refine ⟨16, n, hn, ⟨2 * j, ?_⟩, hle, bucketOf_lt ?_⟩
    · rw [hj, Nat.pow_mul]
    · rw [hj]
      exact Nat.pow_pos (by decide)

theorem not_growth_usable :
    ¬ ∃ fuel n, Looping.loop (growTurn 1073741825) fuel 4 = some n ∧ (∃ j, n.toNat = 2 ^ j) ∧
      1073741825 ≤ n ∧ ∀ x, bucketOf n x < n.toNat := by
  rintro ⟨fuel, n, hn, -⟩
  rw [growth_endless (by decide)] at hn
  cases hn

end Growth

section Move

variable [DecidableEq ι] {s : Moving ι} {ms xs : List ι} {p : Pointer ι}

omit [DecidableEq ι] in
/-- The bucket `i` of a new array once the nodes have come one after another, each to the front. -/
def rebuilt (hash : ι → UInt32) (n : UInt32) (ms : List ι) (i : ℕ) : List ι :=
  (ms.filter fun a => bucketOf n (hash a) = i).reverse

omit [DecidableEq ι] in
theorem mem_rebuilt {a : ι} {i : ℕ} :
    a ∈ rebuilt hash n ms i ↔ a ∈ ms ∧ bucketOf n (hash a) = i := by
  rw [rebuilt, List.mem_reverse, List.mem_filter, decide_eq_true_iff]

omit [DecidableEq ι] in
theorem rebuilt_append (hash : ι → UInt32) (n : UInt32) (ms : List ι) (a : ι) (i : ℕ) :
    rebuilt hash n (ms ++ [a]) i =
      if bucketOf n (hash a) = i then a :: rebuilt hash n ms i else rebuilt hash n ms i := by
  unfold rebuilt
  rw [List.filter_append, List.reverse_append]
  by_cases hai : bucketOf n (hash a) = i <;> simp [hai]

/-- The nodes `ms` are in their new buckets; the others have the links that they had. -/
structure Moved (hash : ι → UInt32) (T : HashTable ι) (n : UInt32) (ms : List ι) (s : Moving ι) :
    Prop where
  chain : ∀ i < n.toNat, Segment s.next (s.list i) (rebuilt hash n ms i) .null
  rest : ∀ a ∉ ms, s.next a = T.next a
  count : s.count = UInt32.ofNat ms.length

omit [DecidableEq ι] in
theorem moved_start (hclear : ∀ i < n.toNat, newList mem (T.array + 1) n i = .null) :
    Moved hash T n [] ⟨newList mem (T.array + 1) n, T.next, 0⟩ where
  chain := hclear
  rest _ _ := rfl
  count := rfl

/-- One turn puts the node `a` in front of its new bucket. -/
theorem Moved.step {a : ι} (h : Moved hash T n ms s) (ha : a ∉ ms) :
    Moved hash T n (ms ++ [a]) {
      list := Function.update s.list (bucketOf n (hash a)) (.node a)
      next := Function.update s.next a (s.list (bucketOf n (hash a)))
      count := s.count + 1 } where
  chain i hi := by
    have hold := h.chain i hi
    have hnot : a ∉ rebuilt hash n ms i := fun hmem => ha (mem_rebuilt.mp hmem).1
    rw [rebuilt_append]
    dsimp only
    by_cases hai : bucketOf n (hash a) = i
    · rw [if_pos hai, hai, Function.update_self]
      exact hold.push hnot
    · rw [if_neg hai, Function.update_of_ne (Ne.symm hai)]
      apply hold.congr
      intro b hb
      have hne : b ≠ a := fun heq => hnot (heq ▸ hb)
      exact Function.update_of_ne hne _ _
  rest b hb := by
    rw [List.mem_append, List.mem_singleton, not_or] at hb
    dsimp only
    rw [Function.update_of_ne hb.2]
    exact h.rest b hb.1
  count := by
    rw [h.count, List.length_append, List.length_singleton, UInt32.ofNat_add]
    rfl

/-- The inner loop moves one chain. -/
theorem Moved.move_chain (h : Moved hash T n ms s) (hxs : Segment T.next p xs .null)
    (hnd : (ms ++ xs).Nodup) (hfuel : xs.length < fuel) :
    ∃ s', Looping.loop (moveTurn hash n) fuel (p, s) = some s' ∧ Moved hash T n (ms ++ xs) s' := by
  induction xs generalizing ms s p fuel with
  | nil =>
    obtain ⟨m, hm⟩ : ∃ m, fuel = m + 1 := ⟨fuel - 1, by simp at hfuel; omega⟩
    have hp : p = .null := hxs
    rw [hp, hm, List.append_nil]
    exact ⟨s, Looping.loop_inr rfl, h⟩
  | cons a as ih =>
    obtain ⟨m, hm⟩ : ∃ m, fuel = m + 1 := ⟨fuel - 1, by omega⟩
    rw [List.length_cons, hm] at hfuel
    have ha : a ∉ ms := by
      intro hmem
      exact (List.nodup_append.mp hnd).2.2 a hmem a (List.mem_cons_self ..) rfl
    have hnext : Segment T.next (s.next a) as .null := by
      rw [h.rest a ha]
      exact hxs.2
    rw [List.append_cons] at hnd ⊢
    have hm' : as.length < m := by omega
    obtain ⟨s', hloop, hs'⟩ := ih (h.step ha) hnext hnd hm'
    refine ⟨s', ?_, hs'⟩
    rw [hxs.1, hm, Looping.loop_inl rfl]
    exact hloop

/-- The outer loop moves all of them. -/
theorem Moved.move_all {is : List ℕ} (h : Moved hash T n ms s)
    (hchains : ∀ i ∈ is, Segment T.next (T.list i) (chains i) .null)
    (hnd : (ms ++ is.flatMap chains).Nodup) (hfuel : ∀ i ∈ is, (chains i).length < fuel) :
    ∃ s', moveAll hash fuel n T is s = some s' ∧ Moved hash T n (ms ++ is.flatMap chains) s' := by
  induction is generalizing ms s with
  | nil =>
    rw [List.flatMap_nil, List.append_nil]
    exact ⟨s, rfl, h⟩
  | cons i is ih =>
    rw [List.flatMap_cons, ← List.append_assoc] at hnd ⊢
    have hi := List.mem_cons_self (a := i) (l := is)
    obtain ⟨s₁, hloop, hs₁⟩ :=
      h.move_chain (hchains i hi) (List.nodup_append.mp hnd).1 (hfuel i hi)
    obtain ⟨s', hall, hs'⟩ := ih hs₁ (fun j hj => hchains j (List.mem_cons_of_mem _ hj)) hnd
      fun j hj => hfuel j (List.mem_cons_of_mem _ hj)
    refine ⟨s', ?_, hs'⟩
    rw [moveAll, List.foldlM_cons, hloop]
    exact hall

end Move

section Resize

variable [DecidableEq ι]

/-- Each bucket has the nodes of its chain, which belong there. -/
structure Coherent (hash : ι → UInt32) (T : HashTable ι) (chains : ℕ → List ι) : Prop where
  chain : ∀ i < T.length.toNat, Segment T.next (T.list i) (chains i) .null
  home : ∀ i < T.length.toNat, ∀ a ∈ chains i, T.index (hash a) = i
  nodup : ∀ i < T.length.toNat, (chains i).Nodup

omit [DecidableEq ι] in
def nodes (T : HashTable ι) (chains : ℕ → List ι) : List ι :=
  (List.range T.length.toNat).flatMap chains

omit [DecidableEq ι] in
theorem mem_nodes {a : ι} : a ∈ nodes T chains ↔ ∃ i < T.length.toNat, a ∈ chains i := by
  simp only [nodes, List.mem_flatMap, List.mem_range]

omit [DecidableEq ι] in
theorem Coherent.mem_nodes_iff {a : ι} (h : Coherent hash T chains) (hpos : 0 < T.length.toNat) :
    a ∈ nodes T chains ↔ a ∈ chains (T.index (hash a)) := by
  rw [mem_nodes]
  constructor
  · intro hmem
    obtain ⟨i, hi, ha⟩ := hmem
    rw [h.home i hi a ha]
    exact ha
  · intro ha
    exact ⟨_, bucketOf_lt hpos (hash a), ha⟩

omit [DecidableEq ι] in
theorem Coherent.nodup_nodes (h : Coherent hash T chains) : (nodes T chains).Nodup := by
  rw [nodes, List.nodup_flatMap]
  constructor
  · intro i hi
    exact h.nodup i (List.mem_range.mp hi)
  · apply List.nodup_range.pairwise_of_forall_ne
    intro i hi j hj hne a ha ha'
    apply hne
    rw [← h.home i (List.mem_range.mp hi) a ha, h.home j (List.mem_range.mp hj) a ha']

/-- What `memset` has not reached is null as well. -/
def Cleared (mem : ℕ → ℕ → Pointer ι) (array : ℕ) (n : UInt32) : Prop :=
  ∀ i < n.toNat, newList mem array n i = .null

/-- The nodes stay the same, and come to the buckets of a new array. -/
theorem resize_coherent (h : Coherent hash T chains)
    (helem : T.elem.toNat = (nodes T chains).length) (hle : T.elem.toNat ≤ 2 ^ 30)
    (hclear : ∀ n, Looping.loop (growTurn T.elem) fuel 4 = some n → Cleared mem (T.array + 1) n)
    (hfuel : 15 < fuel) (hlen : (nodes T chains).length < fuel) :
    ∃ T' chains', resize hash mem fuel T = some T' ∧ 0 < T'.length.toNat ∧
      Coherent hash T' chains' ∧
      (∀ a, a ∈ chains' (T'.index (hash a)) ↔ a ∈ nodes T chains) ∧ T'.elem = T.elem ∧
      ∀ a ∉ nodes T chains, T'.next a = T.next a := by
  obtain ⟨n, hn, -, j, hj⟩ := growth_ends hle hfuel
  have hpos : 0 < n.toNat := by
    rw [hj]
    exact Nat.pow_pos (by decide)
  have hstart : Moved hash T n [] _ := moved_start (hclear n hn)
  have hchains : ∀ i ∈ List.range T.length.toNat, Segment T.next (T.list i) (chains i) .null :=
    fun i hi => h.chain i (List.mem_range.mp hi)
  have hfuels : ∀ i ∈ List.range T.length.toNat, (chains i).length < fuel := by
    intro i hi
    have hsub : (chains i).Sublist (nodes T chains) :=
      List.sublist_flatten_of_mem (List.mem_map_of_mem hi)
    exact hsub.length_le.trans_lt hlen
  obtain ⟨s, hall, hs⟩ := hstart.move_all hchains h.nodup_nodes hfuels
  rw [List.nil_append] at hs
  have hcount : s.count = T.elem := by
    have hlt : (nodes T chains).length < 2 ^ 32 := by omega
    rw [hs.count, ← UInt32.toNat_inj, helem]
    exact UInt32.toNat_ofNat_of_lt' hlt
  refine ⟨{ T with length := n, list := s.list, array := T.array + 1, next := s.next },
    rebuilt hash n (nodes T chains), ?_, hpos, ⟨hs.chain, ?_, ?_⟩, ?_, rfl, hs.rest⟩
  · rw [resize, hn, Option.bind_some, hall, Option.bind_some]
    exact if_pos hcount
  · intro i _ a ha
    exact (mem_rebuilt.mp ha).2
  · intro i _
    exact List.nodup_reverse.mpr (h.nodup_nodes.filter _)
  · intro a
    rw [mem_rebuilt]
    exact and_iff_left rfl

end Resize

end HashTable

end MgRaffle.Utils
