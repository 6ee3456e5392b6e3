import MgRaffle.Library.HeapLadder
import MgRaffle.Utils.Sequence

namespace MgRaffle.Utils.Sequence
open Looping BinaryHeap

variable {α : Type}

section AdjustHeap

/-- There are the children of `e` that `adjust_heap` looks at. -/
def Open (valid : ℕ → Prop) (stop : ℤ) (e : ℕ) : Prop :=
  ∀ c : ℕ, IsChild e c → (c : ℤ) ≤ stop → valid c

/-- Where nothing is missing, `stop` is the last one of `n` elements. -/
def Fits (valid : ℕ → Prop) (stop : ℤ) (n : ℕ) : Prop :=
  ∀ c : ℕ, ((c : ℤ) ≤ stop → valid c) → ((c : ℤ) ≤ stop ↔ c < n)

/-- Wherever the element at `d` sinks to among the first `n`, the children are there, and their
indices are `int`s. -/
def Clear (s : Sequence α) (valid : ℕ → Prop) (stop : ℤ) (n : ℕ) (a : ℕ → α) (d : ℕ) : Prop :=
  ∀ e, Sinks s.le n a d e → Open valid stop e ∧ 2 * e + 1 ≤ 2147483647

variable {s : Sequence α} {valid : ℕ → Prop} [DecidablePred valid] {stop : ℤ} {n d e : ℕ}
  {a b : ℕ → α}

theorem son_eq (e : ℕ) : (e : ℤ) * 2 + 1 = ((2 * e + 1 : ℕ) : ℤ) := by
  push_cast
  ring

theorem right_eq (e : ℕ) : ((2 * e + 1 : ℕ) : ℤ) + 1 = ((2 * e + 2 : ℕ) : ℤ) := by
  push_cast
  ring

/-- A child that is not there is met before the turn is over. -/
theorem adjustTurn_of_not_open (h : ¬ Open valid stop e) :
    s.adjustTurn valid stop ⟨a, e, e * 2 + 1⟩ = none := by
  unfold Open at h
  push Not at h
  obtain ⟨c, hc, hcs, hcv⟩ := h
  have hson : ((2 * e + 1 : ℕ) : ℤ) ≤ stop := by
    rcases hc with rfl | rfl <;> omega
  simp only [adjustTurn, greaterSon, son_eq, right_eq, if_pos hson, bind]
  cases hint : int ((2 * e + 2 : ℕ) : ℤ) with
  | none => rfl
  | some m =>
    obtain ⟨rfl, -⟩ := int_eq_some hint
    rw [Option.bind_some]
    rcases hc with rfl | rfl
    · rw [load_of_not_valid hcv]
      split
      · rfl
      · rw [Option.bind_some, load_of_not_valid hcv]
        cases load valid a (e : ℤ) <;> rfl
    · rw [if_pos hcs, load_of_not_valid hcv]
      cases load valid a ((2 * e + 1 : ℕ) : ℤ) <;> rfl

theorem greaterSon_of_open (hfit : Fits valid stop n) (hn : n ≤ 2147483647)
    (ho : Open valid stop e) (hson : ((2 * e + 1 : ℕ) : ℤ) ≤ stop) :
    s.greaterSon valid stop ⟨a, e, e * 2 + 1⟩ = some (greater s.le n a e : ℤ) := by
  have hleft : 2 * e + 1 < n := (hfit _ (ho _ (.inl rfl))).mp hson
  have hright := hfit _ (ho _ (.inr rfl))
  have hint : int ((2 * e + 2 : ℕ) : ℤ) = some ((2 * e + 2 : ℕ) : ℤ) :=
    int_of_le (by omega) (by omega)
  simp only [greaterSon, son_eq, right_eq, hint, bind, Option.bind_some]
  by_cases hrs : ((2 * e + 2 : ℕ) : ℤ) ≤ stop
  · rw [if_pos hrs, load_of_valid (ho _ (.inl rfl) hson), load_of_valid (ho _ (.inr rfl) hrs)]
    simp only [Option.bind_some, ← s.not_le_iff_neg]
    rw [greater]
    by_cases hle : s.le (a (2 * e + 2)) (a (2 * e + 1))
    · rw [if_neg (fun hnot => hnot hle), if_neg (fun hnot => hnot.2 hle)]
    · rw [if_pos hle, if_pos ⟨hright.mp hrs, hle⟩]
  · rw [if_neg hrs, greater, if_neg fun h => hrs (hright.mpr h.1)]

/-- The step down, where the next children have an index. -/
theorem descend_eq_some_iff (hd : valid d) (he : valid e) {h : Adjusting α} :
    descend valid a d e = some h ↔
      2 * e + 1 ≤ 2147483647 ∧ h = ⟨a ∘ Equiv.swap d e, e, e * 2 + 1⟩ := by
  rw [descend, exchange_of_valid hd he, Option.bind_eq_bind, Option.bind_some]
  constructor
  · intro h
    obtain ⟨next, hnext, hh⟩ := Option.bind_eq_some_iff.mp h
    obtain ⟨rfl, -, hle⟩ := int_eq_some hnext
    cases hh
    exact ⟨by omega, rfl⟩
  · rintro ⟨hle, rfl⟩
    exact Option.bind_eq_some_iff.mpr ⟨_, int_of_le (by omega) (by omega), rfl⟩

omit [DecidablePred valid] in
theorem valid_greater (hfit : Fits valid stop n) (ho : Open valid stop e) (he : 2 * e + 1 < n) :
    valid (greater s.le n a e) := by
  have hchild := greater_isChild (r := s.le) n a e
  exact ho _ hchild ((hfit _ (ho _ hchild)).mpr (greater_lt he))

theorem adjustTurn_of_open (hfit : Fits valid stop n) (hn : n ≤ 2147483647) (he : valid e)
    (ho : Open valid stop e) :
    s.adjustTurn valid stop ⟨a, e, e * 2 + 1⟩ =
      if Sinking s.le n a e then (descend valid a e (greater s.le n a e)).map .inl
      else some (.inr a) := by
  have hfirst := hfit _ (ho _ (.inl rfl))
  by_cases hson : ((2 * e + 1 : ℕ) : ℤ) ≤ stop
  · have hvalid := valid_greater (s := s) (a := a) hfit ho (hfirst.mp hson)
    have hle : ((e : ℤ) * 2 + 1) ≤ stop := by
      rw [son_eq]
      exact hson
    rw [adjustTurn, if_pos hle, greaterSon_of_open hfit hn ho hson]
    simp only [Option.bind_eq_bind, Option.bind_some, load_of_valid he, load_of_valid hvalid]
    by_cases hle : s.le (a e) (a (greater s.le n a e))
    · have hnot : ¬ s.comp (a e) (a (greater s.le n a e)) > 0 := fun h => absurd hle (not_le.mpr h)
      rw [if_neg hnot, if_pos ⟨hfirst.mp hson, hle⟩]
    · rw [if_pos ((s.not_le_iff_pos _ _).mp hle), if_neg fun h => hle h.2]
  · rw [if_neg fun h => hson (hfirst.mpr h.1), adjustTurn, if_neg (by rw [son_eq]; exact hson)]

theorem adjustLoop_of_clear (hfit : Fits valid stop n) (hn : n ≤ 2147483647) (hd : valid d)
    (h : Clear s valid stop n a d) {fuel : ℕ} (hfuel : n - d < fuel) :
    loop (s.adjustTurn valid stop) fuel ⟨a, d, d * 2 + 1⟩ = some (sift s.le n a d) := by
  -- each turn moves the hole down, so that `n - d` turns are enough
  induction fuel generalizing a d with
  | zero => omega
  | succ fuel ih =>
    have ho := (h d .here).1
    have hturn := adjustTurn_of_open (s := s) (a := a) hfit hn hd ho
    by_cases hs : Sinking s.le n a d
    · have hc := valid_greater (s := s) (a := a) hfit ho hs.1
      have hlt := (greater_isChild (r := s.le) n a d).lt
      have hdown := (descend_eq_some_iff (a := a) hd hc).mpr ⟨(h _ (.deeper hs .here)).2, rfl⟩
      rw [if_pos hs, hdown] at hturn
      rw [loop_inl hturn, sift_of_sinking hs]
      have hn := hs.1
      exact ih hc (fun e he => h e (.deeper hs he)) (by omega)
    · rw [if_neg hs] at hturn
      rw [loop_inr hturn, sift_of_not_sinking hs]

theorem clear_of_adjustLoop (hfit : Fits valid stop n) (hn : n ≤ 2147483647) (hd : valid d)
    (hson : 2 * d + 1 ≤ 2147483647) {fuel : ℕ}
    (h : loop (s.adjustTurn valid stop) fuel ⟨a, d, d * 2 + 1⟩ = some b) :
    Clear s valid stop n a d := by
  induction fuel generalizing a d with
  | zero => cases h
  | succ fuel ih =>
    -- a turn at a place that is not open has no result, and so every place passed is open
    have ho : Open valid stop d := by
      by_contra hno
      rw [loop_none (adjustTurn_of_not_open hno)] at h
      cases h
    have hturn := adjustTurn_of_open (s := s) (a := a) hfit hn hd ho
    intro e he
    by_cases hs : Sinking s.le n a d
    · have hc := valid_greater (s := s) (a := a) hfit ho hs.1
      rw [if_pos hs] at hturn
      cases hdown : descend valid a d (greater s.le n a d) with
      | none =>
        rw [hdown] at hturn
        rw [loop_none hturn] at h
        cases h
      | some t =>
        obtain ⟨hle, rfl⟩ := (descend_eq_some_iff hd hc).mp hdown
        rw [hdown] at hturn
        rw [loop_inl hturn] at h
        cases he with
        | here => exact ⟨ho, hson⟩
        | deeper _ he => exact ih hc hle h e he
    · rw [sinks_of_not_sinking hs he]
      exact ⟨ho, hson⟩

/-- `adjust_heap` is `sift` where it meets only elements that are there. -/
theorem adjustHeap_of_clear (hfit : Fits valid stop n) (hn : n ≤ 2147483647) (hd : valid d)
    (h : Clear s valid stop n a d) {fuel : ℕ} (hfuel : n < fuel) :
    s.adjustHeap valid fuel a d stop = some (sift s.le n a d) := by
  have hson := (h d .here).2
  have hint : int ((d : ℤ) * 2 + 1) = some ((d : ℤ) * 2 + 1) := int_of_le (by omega) (by omega)
  rw [adjustHeap, hint, Option.bind_eq_bind, Option.bind_some]
  exact adjustLoop_of_clear hfit hn hd h (by omega)

/-- Otherwise it does not come back. -/
theorem clear_of_adjustHeap (hfit : Fits valid stop n) (hn : n ≤ 2147483647) (hd : valid d)
    {fuel : ℕ} (h : s.adjustHeap valid fuel a d stop = some b) :
    Clear s valid stop n a d ∧ b = sift s.le n a d := by
  rw [adjustHeap, Option.bind_eq_bind] at h
  obtain ⟨son, hson, hloop⟩ := Option.bind_eq_some_iff.mp h
  obtain ⟨rfl, -, hle⟩ := int_eq_some hson
  have hclear := clear_of_adjustLoop hfit hn hd (by omega) hloop
  refine ⟨hclear, ?_⟩
  exact loop_unique hloop (adjustLoop_of_clear hfit hn hd hclear (Nat.lt_succ_self _))

end AdjustHeap

section Restoring

variable (s : Sequence α) (a : ℕ → α) (length start : ℕ) (stop : ℤ)

/-- The elements of the subtree up to `stop`. -/
def Subtree (start : ℕ) (stop : ℤ) (k : ℕ) : Prop := Below start k ∧ (k : ℤ) ≤ stop

instance (start : ℕ) (stop : ℤ) : DecidablePred (Subtree start stop) :=
  fun _ => inferInstanceAs (Decidable (_ ∧ _))

/-- Each parent in the subtree, but for its root, comes after its children. -/
def HeapBelow : Prop :=
  ∀ p c, Below start p → p ≠ start → IsChild p c → (c : ℤ) ≤ stop → 0 ≤ s.comp (a p) (a c)

/-- `adjust_heap` comes to an end, sees the subtree only, and makes a heap of it. -/
def Restores : Prop :=
  ∃ fuel b, s.adjustHeap (fun k => k < length ∧ Subtree start stop k) fuel a start stop = some b ∧
    Permuted {k | Subtree start stop k} a b ∧
    ∀ p c, Below start p → IsChild p c → (c : ℤ) ≤ stop → 0 ≤ s.comp (b p) (b c)

variable {s a length start stop}

/-- Nothing is looked at where the subtree has no children, or is not there at all. -/
theorem restores_of_leaf (hson : stop < 2 * start + 1) (hint : 2 * start + 1 ≤ 2147483647) :
    Restores s a length start stop := by
  have hadjust : int ((start : ℤ) * 2 + 1) = some ((start : ℤ) * 2 + 1) :=
    int_of_le (by omega) (by omega)
  refine ⟨1, a, ?_, .refl _ a, ?_⟩
  · rw [adjustHeap, hadjust, Option.bind_eq_bind, Option.bind_some]
    apply loop_inr
    exact if_neg (by simp only; omega)
  · intro p c hp hc hcn
    have := hp.le
    rcases hc with rfl | rfl <;> omega

theorem clear_of_subtree {n : ℕ} (hn : stop + 1 = n) (hlength : stop < length)
    (hint : 2 * stop + 2 ≤ 2147483647) (hle : (start : ℤ) ≤ stop) :
    Clear s (fun k => k < length ∧ Subtree start stop k) stop n a start := by
  intro e he
  obtain ⟨hbelow, hlt⟩ := below_of_sinks he
  have hen : e < n := hlt (by omega)
  refine ⟨fun c hc hcn => ⟨by omega, .child hbelow hc, hcn⟩, by omega⟩

/-- A subtree that is a heap but for its root becomes a heap. -/
theorem adjustHeap_restores (s : Sequence α) (a : ℕ → α) (length start : ℕ) (stop : ℤ)
    (hlength : stop < length) (hint : 2 * stop + 2 ≤ 2147483647)
    (hstart : 2 * start + 1 ≤ 2147483647) (hheap : HeapBelow s a start stop) :
    Restores s a length start stop := by
  by_cases hle : (start : ℤ) ≤ stop
  · obtain ⟨n, hn⟩ : ∃ n : ℕ, stop + 1 = n := ⟨(stop + 1).toNat, by omega⟩
    have hclear : Clear s (fun k => k < length ∧ Subtree start stop k) stop n a start :=
      clear_of_subtree hn hlength hint hle
    have hfit : Fits (fun k => k < length ∧ Subtree start stop k) stop n := by
      intro c _
      omega
    have hset : {k | Subtree start stop k} = {k | Below start k ∧ k < n} := by
      ext k
      simp only [Subtree, Set.mem_ofPred_eq]
      exact and_congr_right fun _ => by omega
    refine ⟨n + 1, sift s.le n a start, ?_, ?_, ?_⟩
    · exact adjustHeap_of_clear hfit (by omega) ⟨by omega, .root, hle⟩ hclear n.lt_succ_self
    · rw [hset]
      exact sift_permuted n a start
    · intro p c hp hc hcn
      rw [← s.comp_le_iff]
      refine sift_dominates (r := s.le) ?_ p hp c hc (by omega)
      intro q hq hne k hk hkn
      exact (s.comp_le_iff _ _).mpr (hheap q k hq hne hk (by omega))
  · exact restores_of_leaf (by omega) hstart

/-- 1 sinks below the greater one of 5 and 3. -/
theorem adjustHeap_restores_three :
    Restores ints (fun k => [1, 5, 3].getD k 0) 3 0 2 := by
  apply adjustHeap_restores _ _ 3 0 2 (by decide) (by decide) (by decide)
  intro p c hp hne hc hcn
  have := hp.le
  rcases hc with rfl | rfl <;> omega

/-- Far behind `stop`, the index of a child that is not looked at is computed all the same. -/
theorem not_restores_far : ¬ ∀ (a : ℕ → ℤ) (length start : ℕ) (stop : ℤ), stop < length →
    2 * stop + 2 ≤ 2147483647 → HeapBelow ints a start stop → Restores ints a length start stop := by
  intro h
  have hheap : HeapBelow ints (fun _ => 0) 1073741824 0 := by
    intro p c hp hne hc hcn
    have := hp.le
    have := hc.lt
    omega
  obtain ⟨fuel, b, hb, -⟩ := h _ 1073741825 _ _ (by decide) (by decide) hheap
  have hint : int (((1073741824 : ℕ) : ℤ) * 2 + 1) = none := if_neg (by decide)
  rw [adjustHeap, hint] at hb
  cases hb

end Restoring

section HeapSort

/-- The calls of the first loop: no element sinks to a place whose child would be
`array[length]`. -/
def Buildable (s : Sequence α) (n : ℕ) : ℕ → (ℕ → α) → Prop
  | 0, _ => True
  | i + 1, a =>
    (∀ e, Sinks s.le n a i e → 2 * e + 1 ≠ n ∧ 2 * e + 2 ≠ n ∧ 2 * e + 1 ≤ 2147483647) ∧
      Buildable s n i (sift s.le n a i)

/-- The calls of the second loop: no element sinks so deep that the index of its child is no
`int`. -/
def Drainable (s : Sequence α) : ℕ → (ℕ → α) → Prop
  | 0, _ => True
  | i + 1, a =>
    (∀ e, Sinks s.le (i + 1) (a ∘ Equiv.swap 0 (i + 1)) 0 e → 2 * e + 1 ≤ 2147483647) ∧
      Drainable s i (sift s.le (i + 1) (a ∘ Equiv.swap 0 (i + 1)) 0)

def Sortable (s : Sequence α) (n : ℕ) (a : ℕ → α) : Prop :=
  Buildable s n (n / 2) a ∧ Drainable s (n - 1) (heapify s.le n (n / 2) a)

/-- How many of the first `n` elements are smaller. -/
def rank (s : Sequence α) (n : ℕ) (a : ℕ → α) (k : ℕ) : ℕ :=
  ((Finset.range n).filter fun j => s.comp (a j) (a k) < 0).card

/-- What `heap_sort` needs of an array that is not empty, in terms of the order of its elements
only. The ancestors of the first leaf, the lowest one first, do not come down to it; and beyond
2^30 elements, where the index of a child is no `int`, neither they nor the elements behind it
come down to any leaf from there on. -/
structure Settled (s : Sequence α) (n : ℕ) (a : ℕ → α) : Prop where
  odd : n % 2 = 1
  leaf : Unreached n (rank s n a) ((n - 1) / 2)
  far : ∀ e, 1073741824 ≤ e → e < n → Unreached n (rank s n a) e ∧
    Kept (rank s n a) e (n - 1) (ladder n (rank s n a) e (depth e)).tail

variable {s : Sequence α} {n i fuel : ℕ} {a b : ℕ → α}

theorem clear_build_iff :
    Clear s (· < n) n n a i ↔
      ∀ e, Sinks s.le n a i e → 2 * e + 1 ≠ n ∧ 2 * e + 2 ≠ n ∧ 2 * e + 1 ≤ 2147483647 := by
  have hopen : ∀ e, Open (· < n) (n : ℤ) e ↔ 2 * e + 1 ≠ n ∧ 2 * e + 2 ≠ n := by
    intro e
    constructor
    · intro h
      have hl := h _ (.inl rfl)
      have hr := h _ (.inr rfl)
      omega
    · rintro ⟨hl, hr⟩ c (rfl | rfl) hc <;> omega
  simp only [Clear, hopen, and_assoc]

theorem clear_drain_iff (hi : i < n) :
    Clear s (· < n) i (i + 1) a 0 ↔ ∀ e, Sinks s.le (i + 1) a 0 e → 2 * e + 1 ≤ 2147483647 := by
  have hopen : ∀ e, Open (· < n) (i : ℤ) e := by
    intro e c _ hc
    omega
  simp only [Clear, hopen, true_and]

theorem fits_build (n : ℕ) : Fits (· < n) (n : ℤ) n := by
  intro c hc
  omega

theorem fits_drain (n i : ℕ) : Fits (· < n) (i : ℤ) (i + 1) := by
  intro c _
  omega

theorem build_of_buildable (hn : n ≤ 2147483647) (hi : i ≤ n) (hfuel : n < fuel)
    (h : Buildable s n i a) :
    countDown (fun i array => s.adjustHeap (· < n) fuel array i n) i a =
      some (heapify s.le n i a) := by
  induction i generalizing a with
  | zero => rfl
  | succ i ih =>
    have hclear := clear_build_iff.mpr h.1
    rw [countDown, adjustHeap_of_clear (fits_build n) hn (by omega) hclear hfuel, Option.bind_some]
    exact ih (by omega) h.2

theorem buildable_of_build (hn : n ≤ 2147483647) (hi : i ≤ n)
    (h : countDown (fun i array => s.adjustHeap (· < n) fuel array i n) i a = some b) :
    Buildable s n i a ∧ b = heapify s.le n i a := by
  induction i generalizing a with
  | zero =>
    cases h
    exact ⟨trivial, rfl⟩
  | succ i ih =>
    obtain ⟨c, hc, hrest⟩ := Option.bind_eq_some_iff.mp h
    obtain ⟨hclear, rfl⟩ := clear_of_adjustHeap (fits_build n) hn (by omega) hc
    obtain ⟨hbuild, hb⟩ := ih (by omega) hrest
    exact ⟨⟨clear_build_iff.mp hclear, hbuild⟩, hb⟩

/-- The second loop's body. -/
theorem drainStep_eq (hi : i + 1 < n) :
    ((exchange (· < n) a 0 (i + 1)).bind fun array =>
      s.adjustHeap (· < n) fuel array 0 ((i : ℤ) + 1 - 1)) =
      s.adjustHeap (· < n) fuel (a ∘ Equiv.swap 0 (i + 1)) (0 : ℕ) i := by
  have hx : exchange (· < n) a ((0 : ℕ) : ℤ) ((i + 1 : ℕ) : ℤ) = some (a ∘ Equiv.swap 0 (i + 1)) :=
    exchange_of_valid (by omega) hi
  have hstop : (i : ℤ) + 1 - 1 = i := by omega
  push_cast at hx
  rw [hx, hstop, Option.bind_some]
  rfl

theorem drain_of_drainable (hn : n ≤ 2147483647) (hi : i < n) (hfuel : n < fuel)
    (h : Drainable s i a) :
    countDown (fun i array => (exchange (· < n) array 0 (i + 1)).bind fun array =>
      s.adjustHeap (· < n) fuel array 0 ((i : ℤ) + 1 - 1)) i a = some (drain s.le i a) := by
  induction i generalizing a with
  | zero => rfl
  | succ i ih =>
    have hclear := (clear_drain_iff (n := n) (by omega)).mpr h.1
    have hcall := adjustHeap_of_clear (fits_drain n i) (by omega) (by omega) hclear
      (by omega : i + 1 < fuel)
    rw [countDown, drainStep_eq hi, hcall, Option.bind_some]
    exact ih (by omega) h.2

theorem drainable_of_drain (hn : n ≤ 2147483647) (hi : i < n)
    (h : countDown (fun i array => (exchange (· < n) array 0 (i + 1)).bind fun array =>
      s.adjustHeap (· < n) fuel array 0 ((i : ℤ) + 1 - 1)) i a = some b) :
    Drainable s i a ∧ b = drain s.le i a := by
  induction i generalizing a with
  | zero =>
    cases h
    exact ⟨trivial, rfl⟩
  | succ i ih =>
    obtain ⟨c, hc, hrest⟩ := Option.bind_eq_some_iff.mp h
    have hcall := (drainStep_eq hi).symm.trans hc
    obtain ⟨hclear, rfl⟩ := clear_of_adjustHeap (fits_drain n i) (by omega) (by omega) hcall
    obtain ⟨hdrain, hb⟩ := ih (by omega) hrest
    exact ⟨⟨(clear_drain_iff (n := n) (by omega)).mp hclear, hdrain⟩, hb⟩

theorem heapSort_of_sortable (hn : n ≤ 2147483647) (hfuel : n < fuel) (h : Sortable s n a) :
    s.heapSort (· < n) fuel a n = some (BinaryHeap.sort s.le n a) := by
  have hbuild := build_of_buildable hn (Nat.div_le_self n 2) hfuel h.1
  rw [heapSort, hbuild, Option.bind_eq_bind, Option.bind_some]
  cases n with
  | zero => rfl
  | succ n => exact drain_of_drainable hn (Nat.lt_succ_self n) hfuel h.2

theorem sortable_of_heapSort (hn : n ≤ 2147483647) (h : s.heapSort (· < n) fuel a n = some b) :
    Sortable s n a ∧ b = BinaryHeap.sort s.le n a := by
  obtain ⟨c, hc, hdrain⟩ := Option.bind_eq_some_iff.mp h
  obtain ⟨hbuildable, rfl⟩ := buildable_of_build hn (Nat.div_le_self n 2) hc
  cases n with
  | zero =>
    cases hdrain
    exact ⟨⟨hbuildable, trivial⟩, rfl⟩
  | succ n =>
    obtain ⟨hdrainable, hb⟩ := drainable_of_drain hn (Nat.lt_succ_self n) hdrain
    exact ⟨⟨hbuildable, hdrainable⟩, hb⟩

/-- Of an even length the last parent's right child would be `array[length]`. -/
theorem not_sortable_of_even (heven : n % 2 = 0) (hpos : 0 < n) : ¬ Sortable s n a := by
  obtain ⟨m, rfl⟩ : ∃ m, n = 2 * m + 2 := ⟨n / 2 - 1, by omega⟩
  have hhalf : (2 * m + 2) / 2 = m + 1 := by omega
  rintro ⟨hbuild, -⟩
  rw [hhalf] at hbuild
  exact (hbuild.1 m .here).2.1 rfl

theorem buildable_iff :
    Buildable s n i a ↔ ∀ e, BuildPasses s.le n i a e →
      2 * e + 1 ≠ n ∧ 2 * e + 2 ≠ n ∧ 2 * e + 1 ≤ 2147483647 := by
  induction i generalizing a with
  | zero => exact iff_of_true trivial fun _ hp => hp.elim
  | succ i ih =>
    rw [Buildable, ih, ← forall_and]
    exact forall_congr' fun e => or_imp.symm

theorem drainable_iff :
    Drainable s i a ↔ ∀ e, DrainPasses s.le i a e → 2 * e + 1 ≤ 2147483647 := by
  induction i generalizing a with
  | zero => exact iff_of_true trivial fun _ hp => hp.elim
  | succ i ih =>
    rw [Drainable, ih, ← forall_and]
    exact forall_congr' fun e => or_imp.symm

theorem alike_rank (s : Sequence α) (n : ℕ) (a : ℕ → α) :
    Alike s.le (· ≤ ·) n a (rank s n a) := by
  intro j hj k hk
  constructor
  · intro hle
    refine Finset.card_le_card (Finset.monotone_filter_right _ fun l _ hl => ?_)
    rw [← s.not_le_iff_neg] at hl ⊢
    exact fun hkl => hl (s.comp_trans _ _ _ hle hkl)
  · intro hrank
    by_contra hle
    have hkj : s.le (a k) (a j) := (Std.Total.total (r := s.le) _ _).resolve_left hle
    -- the `k`-th element counts among those below the `j`-th, and not below itself
    refine absurd hrank (Finset.card_lt_card ⟨?_, ?_⟩).not_ge
    · refine Finset.monotone_filter_right _ fun l _ hl => ?_
      rw [← s.not_le_iff_neg] at hl ⊢
      exact fun hjl => hl (s.comp_trans _ _ _ hkj hjl)
    · intro hsub
      have hmem := hsub (Finset.mem_filter.mpr
        ⟨Finset.mem_range.mpr hk, (s.not_le_iff_neg _ _).mp hle⟩)
      have hself := (s.comp_le_iff _ _).mp (s.comp_self (a k))
      exact absurd (Finset.mem_filter.mp hmem).2 hself.not_gt

/-- In building the heap nothing comes to a leaf exactly where, by the ranks, no ancestor does. -/
theorem unreached_iff {e : ℕ} (he : e < n) (hleaf : n / 2 ≤ e) :
    ¬ BuildPasses s.le n (n / 2) a e ↔ Unreached n (rank s n a) e := by
  rw [(alike_rank s n a).buildPasses_iff]
  exact not_buildPasses_iff he hleaf

theorem kept_iff {w : ℕ} (hpos : 0 < n) (hw : n / 2 ≤ w)
    (h : ∀ e, w ≤ e → e < n → Unreached n (rank s n a) e) :
    (∀ e, w ≤ e → ¬ DrainPasses s.le (n - 1) (heapify s.le n (n / 2) a) e) ↔
      ∀ e, w ≤ e → e < n →
        Kept (rank s n a) e (n - 1) (ladder n (rank s n a) e (depth e)).tail := by
  have halike : Alike s.le (· ≤ ·) (n - 1 + 1) (heapify s.le n (n / 2) a)
      (heapify (· ≤ ·) n (n / 2) (rank s n a)) := by
    rw [Nat.sub_add_cancel hpos]
    exact (alike_rank s n a).heapify _
  rw [← not_drainPasses_iff hpos hw h]
  exact forall₂_congr fun e _ => not_congr halike.drainPasses_iff

theorem settled_of_sortable (hn : n ≤ 2147483647) (hodd : n % 2 = 1) (h : Sortable s n a) :
    Settled s n a := by
  rw [Sortable, buildable_iff, drainable_iff] at h
  obtain ⟨hbuild, hdrain⟩ := h
  have hfar : ∀ e, 1073741824 ≤ e → e < n → Unreached n (rank s n a) e := by
    intro e hwe he
    refine (unreached_iff he (by omega)).mp fun hp => ?_
    have := hbuild e hp
    omega
  refine ⟨hodd, ?_, fun e hwe he => ⟨hfar e hwe he, ?_⟩⟩
  · refine (unreached_iff (by omega) (by omega)).mp fun hp => ?_
    have := hbuild _ hp
    omega
  · refine (kept_iff (by omega) (by omega) hfar).mp (fun e hwe hp => ?_) e hwe he
    have := hdrain e hp
    omega

theorem sortable_of_settled (hn : n ≤ 2147483647) (h : Settled s n a) : Sortable s n a := by
  have hodd := h.odd
  have hfar := fun e hwe he => (h.far e hwe he).1
  have hkept := (kept_iff (by omega) (by omega) hfar).mpr fun e hwe he => (h.far e hwe he).2
  rw [Sortable, buildable_iff, drainable_iff]
  refine ⟨fun e hp => ?_, fun e hp => ?_⟩
  · have hlt := lt_of_buildPasses (Nat.div_le_self n 2) hp
    have hne : e ≠ (n - 1) / 2 := by
      rintro rfl
      exact (unreached_iff hlt (by omega)).mpr h.leaf hp
    have hnear : e < 1073741824 := by
      by_contra hwe
      exact (unreached_iff hlt (by omega)).mpr (hfar e (by omega) hlt) hp
    omega
  · have hnear : e < 1073741824 := by
      by_contra hwe
      exact hkept e (by omega) hp
    omega

theorem sortable_iff (hn : n ≤ 2147483647) : Sortable s n a ↔ n = 0 ∨ Settled s n a := by
  rcases Nat.eq_zero_or_pos n with rfl | hpos
  · exact iff_of_true ⟨trivial, trivial⟩ (.inl rfl)
  · rw [or_iff_right hpos.ne']
    by_cases hodd : n % 2 = 1
    · exact ⟨settled_of_sortable hn hodd, sortable_of_settled hn⟩
    · exact iff_of_false (not_sortable_of_even (by omega) hpos) fun h => hodd h.odd

/-- `heap_sort` sorts in place exactly where the length is zero, or is odd and nothing that is
above the first leaf comes down to it, whose children would begin with `array[length]`. -/
theorem heapSort_sorts_iff (s : Sequence α) (n : ℕ) (a : ℕ → α) (hn : n ≤ 2147483647) :
    (∃ fuel b, s.heapSort (· < n) fuel a n = some b ∧ Permuted {k | k < n} a b ∧
      ∀ k, k + 1 < n → s.comp (b k) (b (k + 1)) ≤ 0) ↔ n = 0 ∨ Settled s n a := by
  rw [← sortable_iff hn]
  constructor
  · rintro ⟨fuel, b, h, -, -⟩
    exact (sortable_of_heapSort hn h).1
  · intro h
    refine ⟨n + 1, _, heapSort_of_sortable hn n.lt_succ_self h, sort_permuted n a, ?_⟩
    intro k hk
    exact sort_sorted (r := s.le) n a k (k + 1) k.lt_succ_self hk

/-- 3, 1, 2. -/
def threeInts (k : ℕ) : ℤ := [3, 1, 2].getD k 0

theorem heapSort_threeInts :
    ∃ fuel b, ints.heapSort (· < 3) fuel threeInts 3 = some b ∧
      Permuted {k | k < 3} threeInts b ∧ ∀ k, k + 1 < 3 → ints.comp (b k) (b (k + 1)) ≤ 0 := by
  have hrun : ∃ b, ints.heapSort (· < 3) 4 threeInts 3 = some b := ⟨_, rfl⟩
  obtain ⟨b, hb⟩ := hrun
  exact (heapSort_sorts_iff ints 3 threeInts (by decide)).mpr
    ((sortable_iff (by decide)).mp (sortable_of_heapSort (by decide) hb).1)

theorem not_heapSort_twoInts :
    ¬ ∃ fuel b, ints.heapSort (· < 2) fuel threeInts 2 = some b ∧
      Permuted {k | k < 2} threeInts b ∧ ∀ k, k + 1 < 2 → ints.comp (b k) (b (k + 1)) ≤ 0 := by
  rintro ⟨fuel, b, h, -, -⟩
  exact not_sortable_of_even rfl (by decide) (sortable_of_heapSort (by decide) h).1

end HeapSort

end MgRaffle.Utils.Sequence
