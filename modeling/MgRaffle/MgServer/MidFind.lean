import MgRaffle.Utils.Sequence

namespace MgRaffle.MgServer.Helloworld
open Looping Utils Relation

/-- `front` and `end` of `mid_find`. -/
structure Finding where
  front : ℤ
  stop : ℤ

/-- `while (front < end)`, and what follows it. -/
def midTurn (vec : ℕ → ℤ) (length num : ℤ) (s : Finding) : Option (Finding ⊕ ℤ) :=
  if s.front < s.stop then do
    let distance ← int (s.stop - s.front)
    let midIdx := distance.tdiv 2
    let mid ← load (· < length.toNat) vec midIdx
    if mid > num then do
      let stop ← int (midIdx - 1)
      some (.inl { s with stop })
    else if mid < num then do
      let front ← int (midIdx + 1)
      some (.inl { s with front })
    else some (.inr midIdx)
  else do
    let first ← load (· < length.toNat) vec s.front
    if first ≠ num ∧ first > num then some (.inr s.front)
    else do
      let absent ← int (length + 1)
      some (.inr absent)

def midFind (fuel : ℕ) (vec : ℕ → ℤ) (length num : ℤ) : Option ℤ :=
  if length ≤ 0 then some 1
  else if length ≤ 0 then some 1
  else loop (midTurn vec length num) fuel ⟨0, length - 1⟩

variable {vec : ℕ → ℤ} {n : ℕ} {num : ℤ} {s t : Finding} {e e' f : ℕ}

section Turns

theorem load_of_lt (h : e < n) : load (· < (n : ℤ).toNat) vec (e : ℤ) = some (vec e) :=
  load_of_valid (by omega)

/-- The midpoint is the middle of the distance between the two, wherever `front` is. -/
theorem midTurn_eq (vec : ℕ → ℤ) (num : ℤ) (hlt : f < e) (hen : e < n) (hn : n ≤ 2147483647) :
    midTurn vec n num ⟨f, e⟩ = if vec ((e - f) / 2) > num then
        some (.inl ⟨f, ((e - f) / 2 : ℕ) - 1⟩)
      else if vec ((e - f) / 2) < num then some (.inl ⟨((e - f) / 2 : ℕ) + 1, e⟩)
      else some (.inr ((e - f) / 2 : ℕ)) := by
  have hdistance : int ((e : ℤ) - f) = some ((e - f : ℕ) : ℤ) := by
    rw [int_of_le (by omega) (by omega), Nat.cast_sub hlt.le]
  have hmid : ((e - f : ℕ) : ℤ).tdiv 2 = ((e - f) / 2 : ℕ) := rfl
  have hfront : (f : ℤ) < e := by exact_mod_cast hlt
  unfold midTurn
  simp only [hfront, hdistance, hmid, if_true, bind, Option.bind_some]
  rw [load_of_lt (by omega), Option.bind_some, int_of_le (by omega) (by omega),
    int_of_le (by omega) (by omega)]
  rfl

theorem midTurn_zero (vec : ℕ → ℤ) (num : ℤ) (he : 0 < e) (hen : e < n) (hn : n ≤ 2147483647) :
    midTurn vec n num ⟨0, e⟩ = if vec (e / 2) > num then some (.inl ⟨0, (e / 2 : ℕ) - 1⟩)
      else if vec (e / 2) < num then some (.inl ⟨(e / 2 : ℕ) + 1, e⟩)
      else some (.inr (e / 2 : ℕ)) := by
  have hturn := midTurn_eq vec num he hen hn
  rwa [Nat.sub_zero] at hturn

theorem midTurn_final (vec : ℕ → ℤ) (num : ℤ) {stop : ℤ} (hstop : stop ≤ e) (hen : e < n) :
    midTurn vec n num ⟨e, stop⟩ = if vec e > num then some (.inr (e : ℤ))
      else (int (n + 1)).map .inr := by
  have hfront : ¬ (e : ℤ) < stop := not_lt.mpr hstop
  unfold midTurn
  simp only [hfront, if_false, bind, load_of_lt hen, Option.bind_some]
  by_cases hgt : vec e > num
  · rw [if_pos ⟨hgt.ne', hgt⟩, if_pos hgt]
  · rw [if_neg fun h => hgt h.2, if_neg hgt]
    cases int (n + 1) <;> rfl

end Turns

/-- From `s` on, `mid_find` returns, and returns where `num` is if it is in the array. -/
def Locates (vec : ℕ → ℤ) (n : ℕ) (num : ℤ) (s : Finding) : Prop :=
  ∃ fuel i, loop (midTurn vec n num) fuel s = some i ∧
    ((∃ j < n, vec j = num) → ∃ j < n, (j : ℤ) = i ∧ vec j = num)

theorem locates_iff_of_inl (h : midTurn vec n num s = some (.inl t)) :
    Locates vec n num s ↔ Locates vec n num t := by
  constructor
  · rintro ⟨fuel, i, hi, hfound⟩
    cases fuel with
    | zero => cases hi
    | succ fuel => exact ⟨fuel, i, by rw [← loop_inl h, hi], hfound⟩
  · rintro ⟨fuel, i, hi, hfound⟩
    exact ⟨fuel + 1, i, by rw [loop_inl h, hi], hfound⟩

theorem locates_iff_of_inr {i : ℤ} (h : midTurn vec n num s = some (.inr i)) :
    Locates vec n num s ↔ ((∃ j < n, vec j = num) → ∃ j < n, (j : ℤ) = i ∧ vec j = num) := by
  constructor
  · rintro ⟨fuel, i', hi, hfound⟩
    rwa [← loop_unique hi (loop_inr (n := 0) h)]
  · exact fun hfound => ⟨1, i, loop_inr h, hfound⟩

theorem not_locates_of_none (h : midTurn vec n num s = none) : ¬ Locates vec n num s := by
  rintro ⟨fuel, i, hi, -⟩
  rw [loop_none h] at hi
  cases hi

/-- Where `num` can only be `vec[front]`, it is reported to be absent. -/
theorem locates_final {stop : ℤ} (hstop : stop ≤ e) (hen : e < n) (hn : n ≤ 2147483647)
    (hother : ∀ j < n, j ≠ e → vec j ≠ num) :
    Locates vec n num ⟨e, stop⟩ ↔ vec e ≠ num ∧ (n < 2147483647 ∨ num < vec e) := by
  have hturn := midTurn_final vec num hstop hen
  by_cases hgt : vec e > num
  · rw [if_pos hgt] at hturn
    refine iff_of_true ((locates_iff_of_inr hturn).mpr ?_) ⟨hgt.ne', .inr hgt⟩
    rintro ⟨j, hj, heq⟩
    by_cases hje : j = e
    · subst hje
      omega
    · exact absurd heq (hother j hj hje)
  · rw [if_neg hgt] at hturn
    by_cases hlast : n < 2147483647
    · rw [int_of_le (by omega) (by omega)] at hturn
      rw [locates_iff_of_inr hturn]
      constructor
      · intro hfound
        refine ⟨fun heq => ?_, .inl hlast⟩
        obtain ⟨j, hj, hlength, -⟩ := hfound ⟨e, hen, heq⟩
        omega
      · rintro ⟨hne, -⟩ ⟨j, hj, heq⟩
        by_cases hje : j = e
        · exact absurd (hje ▸ heq) hne
        · exact absurd heq (hother j hj hje)
    · have hnone : int ((n : ℤ) + 1) = none := if_neg (by omega)
      rw [hnone] at hturn
      refine iff_of_false (not_locates_of_none hturn) ?_
      rintro ⟨-, hlt | hgt'⟩
      · exact hlast hlt
      · exact hgt hgt'

/-- The array is ascending. -/
def Ascending (vec : ℕ → ℤ) (n : ℕ) : Prop := ∀ i j, i ≤ j → j < n → vec i ≤ vec j

section Diverging

/-- Once `front` has left 0, the midpoint is never above the one it has left for. -/
theorem stays (hasc : Ascending vec n) (hen : e < n) (hn : n ≤ 2147483647) (he : 3 ≤ e)
    (hlow : vec (e / 2) < num) (hf : 1 ≤ f) (hfe : f < e) :
    ∃ f', 1 ≤ f' ∧ f' < e ∧ midTurn vec n num ⟨f, e⟩ = some (.inl ⟨(f' : ℕ), e⟩) := by
  have hmid : vec ((e - f) / 2) < num :=
    (hasc _ _ (Nat.div_le_div_right (Nat.sub_le e f)) (by omega)).trans_lt hlow
  refine ⟨(e - f) / 2 + 1, by omega, by omega, ?_⟩
  rw [midTurn_eq vec num hfe hen hn, if_neg (by omega), if_pos hmid]
  rfl

theorem not_locates_of_stays (hasc : Ascending vec n) (hen : e < n) (hn : n ≤ 2147483647)
    (he : 3 ≤ e) (hlow : vec (e / 2) < num) (hf : 1 ≤ f) (hfe : f < e) :
    ¬ Locates vec n num ⟨f, e⟩ := by
  rintro ⟨fuel, i, hi, -⟩
  refine loop_partial (fun s => ∃ f' : ℕ, 1 ≤ f' ∧ f' < e ∧ s = ⟨f', e⟩) (fun _ => False) ?_ ?_
    ⟨f, hf, hfe, rfl⟩ hi
  · rintro _ t ⟨f', hf', hfe', rfl⟩ ht
    obtain ⟨g, hg, hge, hturn⟩ := stays hasc hen hn he hlow hf' hfe'
    rw [hturn] at ht
    cases ht
    exact ⟨g, hg, hge, rfl⟩
  · rintro _ r ⟨f', hf', hfe', rfl⟩ hr
    obtain ⟨g, -, -, hturn⟩ := stays hasc hen hn he hlow hf' hfe'
    rw [hturn] at hr
    cases hr

end Diverging

section Chain

/-- The next `end`, where the middle of the lower part is too great. -/
def Halves (e e' : ℕ) : Prop := 2 ≤ e ∧ e' = e / 2 - 1

theorem le_of_halves (h : ReflTransGen Halves e e') : e' ≤ e := by
  induction h with
  | refl => exact le_rfl
  | tail _ hstep ih =>
    obtain ⟨-, rfl⟩ := hstep
    omega

/-- `e` is the `end` at which the search no longer goes down: `num` is not above it. -/
structure Turning (vec : ℕ → ℤ) (n : ℕ) (num : ℤ) (e : ℕ) : Prop where
  above : e + 1 < n → num < vec (e + 1)
  middle : e = 0 ∨ vec (e / 2) ≤ num

/-- There the middle is `num`, or nothing is left but an element that is not `num`. -/
def Settled (vec : ℕ → ℤ) (n : ℕ) (num : ℤ) (e : ℕ) : Prop :=
  0 < e ∧ vec (e / 2) = num ∨ e ≤ 2 ∧ vec e ≠ num ∧ (n < 2147483647 ∨ num < vec e)

/-- A lower `end` is no turning point, where the middle is not too great. -/
theorem not_turning (hasc : Ascending vec n) (hen : e < n) (hmid : vec (e / 2) ≤ num)
    (hchain : ReflTransGen Halves e e') (hne : e' ≠ e) : ¬ Turning vec n num e' := by
  intro hturning
  rcases ReflTransGen.cases_head hchain with rfl | ⟨c, ⟨he, rfl⟩, hrest⟩
  · exact hne rfl
  · have hle := le_of_halves hrest
    have habove := hturning.above (by omega)
    have hmono := hasc (e' + 1) (e / 2) (by omega) (by omega)
    omega

theorem forall_settled_iff (hasc : Ascending vec n) (hen : e < n) (h : Turning vec n num e) :
    (∀ e', ReflTransGen Halves e e' → Turning vec n num e' → Settled vec n num e') ↔
      Settled vec n num e := by
  refine ⟨fun hall => hall e .refl h, fun hsettled e' hchain hturning => ?_⟩
  by_cases hne : e' = e
  · exact hne ▸ hsettled
  · rcases h.middle with hzero | hmid
    · have hle := le_of_halves hchain
      omega
    · exact absurd hturning (not_turning hasc hen hmid hchain hne)

theorem forall_chain_iff {P : ℕ → Prop} (he : 2 ≤ e) :
    (∀ e', ReflTransGen Halves e e' → P e') ↔
      P e ∧ ∀ e', ReflTransGen Halves (e / 2 - 1) e' → P e' := by
  constructor
  · exact fun h => ⟨h e .refl, fun e' hchain => h e' (.head ⟨he, rfl⟩ hchain)⟩
  · rintro ⟨hfirst, hrest⟩ e' hchain
    rcases ReflTransGen.cases_head hchain with rfl | ⟨c, ⟨-, rfl⟩, hchain⟩
    · exact hfirst
    · exact hrest e' hchain

theorem locates_of_first (hasc : Ascending vec n) (hn : n ≤ 2147483647) (hpos : 0 < n)
    (hfirst : num < vec 0) {stop : ℤ} (hstop : stop ≤ 0) : Locates vec n num ⟨0, stop⟩ := by
  refine (locates_final (e := 0) hstop hpos hn ?_).mpr ⟨hfirst.ne', .inr hfirst⟩
  exact fun j hj _ => (hfirst.trans_le (hasc 0 j j.zero_le hj)).ne'

/-- Up to `vec[2]`, the search ends right after it has gone up. -/
theorem locates_iff_of_lt (hasc : Ascending vec n) (hn : n ≤ 2147483647) (hen : e < n)
    (habove : e + 1 < n → num < vec (e + 1)) (he : 0 < e) (hlow : vec (e / 2) < num) :
    Locates vec n num ⟨0, e⟩ ↔ Settled vec n num e := by
  have hturn := midTurn_zero vec num he hen hn
  rw [if_neg (by omega), if_pos hlow] at hturn
  rw [locates_iff_of_inl hturn]
  by_cases hsmall : e ≤ 2
  · have hfront : ((e / 2 : ℕ) : ℤ) + 1 = (e : ℕ) := by omega
    rw [hfront, locates_final le_rfl hen hn]
    · unfold Settled
      constructor
      · exact fun h => .inr ⟨hsmall, h⟩
      · rintro (⟨-, heq⟩ | ⟨-, h⟩)
        · omega
        · exact h
    · intro j hj hne
      rcases Nat.lt_or_gt_of_ne hne with hlt | hgt
      · have hmono := hasc j (e / 2) (by omega) (by omega)
        omega
      · have hmono := hasc (e + 1) j hgt hj
        have hnext := habove (by omega)
        omega
  · refine iff_of_false ?_ ?_
    · exact not_locates_of_stays hasc hen hn (by omega) hlow (f := e / 2 + 1) (by omega) (by omega)
    · rintro (⟨-, heq⟩ | ⟨hle, -⟩)
      · omega
      · exact hsmall hle

/-- What becomes of a search below `e`, by how far down it goes. -/
theorem locates_iff (hasc : Ascending vec n) (hn : n ≤ 2147483647) (hen : e < n)
    (habove : e + 1 < n → num < vec (e + 1)) :
    Locates vec n num ⟨0, e⟩ ↔
      ∀ e', ReflTransGen Halves e e' → Turning vec n num e' → Settled vec n num e' := by
  induction e using Nat.strong_induction_on with
  | _ e ih =>
    rcases Nat.eq_zero_or_pos e with rfl | he
    · rw [forall_settled_iff hasc hen ⟨habove, .inl rfl⟩]
      show Locates vec n num ⟨(0 : ℕ), (0 : ℕ)⟩ ↔ _
      rw [locates_final le_rfl hen hn]
      · unfold Settled
        simp
      · intro j hj hne
        have hmono : vec (0 + 1) ≤ vec j := hasc 1 j (by omega) hj
        have hnext := habove (by omega)
        omega
    · have hturn := midTurn_zero vec num he hen hn
      rcases lt_trichotomy (vec (e / 2)) num with hlow | heq | hhigh
      · rw [forall_settled_iff hasc hen ⟨habove, .inr hlow.le⟩]
        exact locates_iff_of_lt hasc hn hen habove he hlow
      · rw [forall_settled_iff hasc hen ⟨habove, .inr heq.le⟩]
        rw [if_neg (by omega), if_neg (by omega)] at hturn
        refine iff_of_true ((locates_iff_of_inr hturn).mpr fun _ => ?_) (.inl ⟨he, heq⟩)
        exact ⟨e / 2, by omega, rfl, heq⟩
      · rw [if_pos hhigh] at hturn
        rw [locates_iff_of_inl hturn]
        have hnot : ¬ Turning vec n num e := fun h => by
          have hmid := h.middle
          omega
        -- the search goes down, and so does the chain if anything is left
        by_cases htwo : 2 ≤ e
        · rw [forall_chain_iff htwo, and_iff_right fun h => absurd h hnot]
          have hstop : ((e / 2 : ℕ) : ℤ) - 1 = (e / 2 - 1 : ℕ) := by omega
          rw [hstop, ← Nat.cast_zero (R := ℤ)]
          have hnext : e / 2 - 1 + 1 = e / 2 := by omega
          exact ih (e / 2 - 1) (by omega) (by omega) fun _ => by rwa [hnext]
        · have hmid : e / 2 = 0 := by omega
          rw [hmid] at hhigh ⊢
          refine iff_of_true (locates_of_first hasc hn (by omega) hhigh (by omega)) ?_
          intro e' hchain hturning
          rcases ReflTransGen.cases_head hchain with rfl | ⟨c, ⟨hge, -⟩, -⟩
          · exact absurd hturning hnot
          · exact absurd hge htwo

end Chain

/-- The search ends, reads nothing outside the array, and returns where `num` is if it is there. -/
def Found (vec : ℕ → ℤ) (n : ℕ) (num : ℤ) : Prop :=
  ∃ fuel i, midFind fuel vec n num = some i ∧
    ((∃ j < n, vec j = num) → ∃ j < n, (j : ℤ) = i ∧ vec j = num)

theorem found_iff_locates (hpos : 1 ≤ n) :
    Found vec n num ↔ Locates vec n num ⟨0, (n - 1 : ℕ)⟩ := by
  have hlength : ¬ (n : ℤ) ≤ 0 := by omega
  have hstop : (n : ℤ) - 1 = (n - 1 : ℕ) := by omega
  simp only [Found, midFind, if_neg hlength, hstop]
  exact Iff.rfl

/-- `mid_find` is right exactly where each `end` it turns at has `num` as its middle, or is no
greater than 2 and not `num`. -/
theorem midFind_iff (hpos : 1 ≤ n) (hn : n ≤ 2147483647) (hasc : Ascending vec n) :
    Found vec n num ↔
      ∀ e, ReflTransGen Halves (n - 1) e → Turning vec n num e → Settled vec n num e := by
  rw [found_iff_locates hpos]
  exact locates_iff hasc hn (by omega) fun h => by omega

/-- In `{1, 2, 3}` the search for 2 ends at 1, and every `end` it turns at is settled. -/
theorem midFind_iff_three : Found (fun i => (i : ℤ) + 1) 3 2 ∧
    ∀ e, ReflTransGen Halves 2 e → Turning (fun i => (i : ℤ) + 1) 3 2 e →
      Settled (fun i => (i : ℤ) + 1) 3 2 e := by
  have hasc : Ascending (fun i => (i : ℤ) + 1) 3 := fun i j h _ => by
    show (i : ℤ) + 1 ≤ j + 1
    omega
  have hfound : Found (fun i => (i : ℤ) + 1) 3 2 :=
    ⟨5, 1, by decide, fun _ => ⟨1, by decide, rfl, rfl⟩⟩
  exact ⟨hfound, (midFind_iff (by decide) (by decide) hasc).mp hfound⟩

/-- In `{1, 2, 3, 4}` the search for 4 reads the lower half again and again. -/
theorem not_found_four :
    Ascending (fun i => (i : ℤ) + 1) 4 ∧ ¬ Found (fun i => (i : ℤ) + 1) 4 4 := by
  have hasc : Ascending (fun i => (i : ℤ) + 1) 4 := fun i j h _ => by
    show (i : ℤ) + 1 ≤ j + 1
    omega
  refine ⟨hasc, ?_⟩
  rw [found_iff_locates (by decide)]
  rw [locates_iff_of_lt hasc (by decide) (by decide) (by decide) (by decide) (by decide)]
  unfold Settled
  decide

example : midFind 5 (fun i => (i : ℤ) + 1) 3 2 = some 1 := by decide

example : midFind 5 (fun _ => 7) 1 7 = some 2 := by decide

end MgRaffle.MgServer.Helloworld
