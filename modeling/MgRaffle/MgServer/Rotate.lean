import MgRaffle.Library.Rotation
import MgRaffle.Utils.Sequence

namespace MgRaffle.MgServer.Helloworld
open Looping Utils Rotation

/-- The value of `a % b`, which does not exist where that of `a / b` does not. -/
def remainder (a b : ℤ) : Option ℤ :=
  if b = 0 then none else (int (a.tdiv b)).map fun _ => a.tmod b

/-- `nums`, `times`, `save` and `next` of `rotate`. -/
structure Rotating where
  nums : ℕ → ℤ
  times : ℤ
  save : ℤ
  next : ℤ

/-- `while (times <= size)`, on `n` elements. -/
def rotateTurn (n : ℕ) (size right : ℤ) (s : Rotating) : Option (Rotating ⊕ (ℕ → ℤ)) :=
  if s.times ≤ size then do
    let tmp ← load (· < n) s.nums s.next
    let nums ← store (· < n) s.nums s.save s.next
    let sum ← int (s.next + right)
    let next ← remainder sum size
    let times ← int (s.times + 1)
    some (.inl ⟨nums, times, tmp, next⟩)
  else some (.inr s.nums)

/-- What follows `int size = nums.size();`, where `n` is the number of the elements. -/
def rotateBy (fuel : ℕ) (nums : ℕ → ℤ) (n : ℕ) (size k : ℤ) : Option (ℕ → ℤ) := do
  let right ← remainder k size
  if right = 0 then some nums
  else do
    let save ← load (· < n) nums 0
    loop (rotateTurn n size right) fuel ⟨nums, 0, save, right⟩

/-- `nums.size()` as an `int`, which is the size up to a multiple of `2 ^ 32`. -/
def intSize (n : ℕ) : ℤ := (n : ℤ).bmod 4294967296

def rotate (fuel : ℕ) (nums : ℕ → ℤ) (n : ℕ) (k : ℤ) : Option (ℕ → ℤ) :=
  rotateBy fuel nums n (intSize n) k

variable {nums out : ℕ → ℤ} {n s r k t i j m : ℕ} {st : Rotating}

section Cycle

/-- What the turn that comes to place `j` carries on from there. -/
def carried (nums : ℕ → ℤ) (s r j : ℕ) : ℤ := nums (place s r (j % (period s r + 1)))

/-- After `t` turns: the places of one cycle hold what is carried there, and the last element
carried is on its way. -/
structure Turned (nums : ℕ → ℤ) (s r t : ℕ) (st : Rotating) : Prop where
  times : st.times = t
  save : st.save = carried nums s r t
  next : st.next = (place s r (t + 1) : ℕ)
  cycle : ∀ j, t < j → j ≤ t + period s r → st.nums (place s r j) = carried nums s r j
  rest : ∀ m, (∀ j, place s r j ≠ m) → st.nums m = nums m

theorem turned_zero (nums : ℕ → ℤ) (hr : r < s) : Turned nums s r 0 ⟨nums, 0, nums 0, r⟩ where
  times := rfl
  save := by rw [carried, Nat.zero_mod, place_zero]
  next := by rw [zero_add, place_one hr]
  cycle j _ hj := by rw [carried, Nat.mod_eq_of_lt (by omega)]
  rest m _ := rfl

/-- Neither the next index nor the number of turns overflows in turn `t`. -/
structure TurnFits (s r t : ℕ) : Prop where
  sum : place s r (t + 1) + r ≤ 2147483647
  times : t + 1 ≤ 2147483647

theorem load_place (hs : 0 < s) (hsn : s ≤ n) (f : ℕ → ℤ) :
    load (· < n) f (place s r j : ℕ) = some (f (place s r j)) :=
  load_of_valid ((place_lt hs).trans_le hsn)

theorem store_place (hs : 0 < s) (hsn : s ≤ n) (f : ℕ → ℤ) (x : ℤ) :
    store (· < n) f x (place s r j : ℕ) = some (Function.update f (place s r j) x) :=
  if_pos ((place_lt hs).trans_le hsn)

theorem remainder_of_nonneg {a b : ℤ} (ha : 0 ≤ a) (hmax : a ≤ 2147483647) (hb : b ≠ 0) :
    remainder a b = some (a.tmod b) := by
  have habs : (a.tdiv b).natAbs ≤ a.natAbs := by
    rw [Int.natAbs_tdiv]
    exact Nat.div_le_self _ _
  rw [remainder, if_neg hb, int_of_le (by omega) (by omega)]
  rfl

theorem rotateTurn_of_fits {size right x m next times : ℤ} (hturn : st.times ≤ size)
    (hload : load (· < n) st.nums st.next = some x)
    (hstore : store (· < n) st.nums st.save st.next = some out)
    (hsum : int (st.next + right) = some m) (hnext : remainder m size = some next)
    (htimes : int (st.times + 1) = some times) :
    rotateTurn n size right st = some (.inl ⟨out, times, x, next⟩) := by
  rw [rotateTurn, if_pos hturn, hload, hstore, hsum]
  simp only [bind, Option.bind_some]
  rw [hnext, htimes]
  rfl

/-- One turn: what the place holds is taken along, and what was carried is left there. -/
theorem Turned.step (hr : 0 < r) (hrs : r < s) (hsn : s ≤ n) (h : Turned nums s r t st)
    (ht : t ≤ s) (hfits : TurnFits s r t) :
    ∃ st', rotateTurn n s r st = some (.inl st') ∧ Turned nums s r (t + 1) st' := by
  obtain ⟨hsum, htimes⟩ := hfits
  have hs : 0 < s := by omega
  have hturn : st.times ≤ s := by
    rw [h.times]
    exact_mod_cast ht
  have hnext : ((place s r (t + 1) : ℤ) + r).tmod s = (place s r (t + 2) : ℕ) := by
    rw [place_succ s r (t + 1)]
    rfl
  refine ⟨⟨Function.update st.nums (place s r (t + 1)) st.save, t + 1,
    st.nums (place s r (t + 1)), (place s r (t + 2) : ℕ)⟩, ?_, ?_⟩
  · refine rotateTurn_of_fits hturn ?_ ?_ (m := place s r (t + 1) + r) ?_ ?_ ?_
    · rw [h.next, load_place hs hsn]
    · rw [h.next, store_place hs hsn]
    · rw [h.next, int_of_le (by omega) (by omega)]
    · rw [remainder_of_nonneg (by omega) (by omega) (by omega), hnext]
    · rw [h.times, int_of_le (by omega) (by omega)]
  · have hperiod := period_pos (r := r) hs
    constructor
    · rfl
    · exact h.cycle (t + 1) (by omega) (by omega)
    · rfl
    · intro j hlow hhigh
      by_cases hlast : j = t + 1 + period s r
      · -- the place just left is the last of the next period
        have hplace : place s r j = place s r (t + 1) := by
          rw [place_eq_iff hs, hlast]
          exact Nat.add_modEq_right
        have hcarried : carried nums s r j = carried nums s r t := by
          have hj : j = t + (period s r + 1) := by omega
          rw [carried, hj, Nat.add_mod_right, carried]
        rw [hplace, hcarried, ← h.save]
        exact Function.update_self _ _ _
      · have hplace : place s r j ≠ place s r (t + 1) := by
          rw [Ne, place_eq_iff hs]
          intro hmod
          have hdvd := (Nat.modEq_iff_dvd' (by omega)).mp hmod.symm
          have hle := Nat.le_of_dvd (by omega) hdvd
          omega
        rw [← h.cycle j (by omega) (by omega)]
        exact Function.update_of_ne hplace _ _
    · intro m hm
      rw [← h.rest m hm]
      exact Function.update_of_ne (hm _).symm _ _

theorem Turned.fits_of_step (h : Turned nums s r t st) (ht : t ≤ s)
    {x : Rotating ⊕ (ℕ → ℤ)} (hx : rotateTurn n s r st = some x) : TurnFits s r t := by
  have hturn : st.times ≤ s := by
    rw [h.times]
    exact_mod_cast ht
  rw [rotateTurn, if_pos hturn] at hx
  obtain ⟨tmp, -, hx⟩ := Option.bind_eq_some_iff.mp hx
  obtain ⟨nums', -, hx⟩ := Option.bind_eq_some_iff.mp hx
  obtain ⟨sum, hsum, hx⟩ := Option.bind_eq_some_iff.mp hx
  obtain ⟨next, -, hx⟩ := Option.bind_eq_some_iff.mp hx
  obtain ⟨times, htimes, -⟩ := Option.bind_eq_some_iff.mp hx
  obtain ⟨-, -, hsum⟩ := int_eq_some hsum
  obtain ⟨-, -, htimes⟩ := int_eq_some htimes
  rw [h.next] at hsum
  rw [h.times] at htimes
  constructor
  · omega
  · omega

theorem Turned.final (h : Turned nums s r (s + 1) st) :
    rotateTurn n s r st = some (.inr st.nums) := by
  have hturn : ¬ st.times ≤ s := by
    rw [h.times]
    omega
  rw [rotateTurn, if_neg hturn]

end Cycle

section Run

/-- There are `m` turns to go. -/
def Remaining (nums : ℕ → ℤ) (s r m : ℕ) (st : Rotating) : Prop :=
  ∃ t, t + m = s + 1 ∧ Turned nums s r t st

/-- What the vector is after turn `size`. -/
def Ended (nums : ℕ → ℤ) (s r : ℕ) (out : ℕ → ℤ) : Prop :=
  ∃ st, Turned nums s r (s + 1) st ∧ st.nums = out

theorem Remaining.turn (hr : 0 < r) (hrs : r < s) (hsn : s ≤ n)
    (hfits : ∀ t ≤ s, TurnFits s r t) (h : Remaining nums s r m st) :
    (∃ st', rotateTurn n s r st = some (.inl st') ∧ ∃ l < m, Remaining nums s r l st') ∨
      ∃ out, rotateTurn n s r st = some (.inr out) ∧ Ended nums s r out := by
  obtain ⟨t, ht, h⟩ := h
  cases m with
  | zero =>
    obtain rfl : t = s + 1 := ht
    exact .inr ⟨_, h.final, st, h, rfl⟩
  | succ m =>
    obtain ⟨st', hst', hturned⟩ := h.step hr hrs hsn (by omega) (hfits t (by omega))
    exact .inl ⟨st', hst', m, m.lt_succ_self, t + 1, by omega, hturned⟩

/-- The loop ends after turn `size`, where nothing overflows. -/
theorem loop_ends (nums : ℕ → ℤ) (hr : 0 < r) (hrs : r < s) (hsn : s ≤ n)
    (hfits : ∀ t ≤ s, TurnFits s r t) :
    ∃ fuel out, loop (rotateTurn n s r) fuel ⟨nums, 0, nums 0, r⟩ = some out ∧
      Ended nums s r out := by
  have hstart : Remaining nums s r (s + 1) ⟨nums, 0, nums 0, r⟩ :=
    ⟨0, Nat.zero_add _, turned_zero nums hrs⟩
  exact ⟨s + 2, loop_total (fun m st => Remaining.turn hr hrs hsn hfits) hstart (by omega)⟩

/-- Where the loop has a result, no turn has overflowed. -/
theorem Turned.fits (hr : 0 < r) (hrs : r < s) (hsn : s ≤ n) (h : Turned nums s r t st) {fuel : ℕ}
    (hloop : loop (rotateTurn n s r) fuel st = some out) :
    ∀ t', t ≤ t' → t' ≤ s → TurnFits s r t' := by
  induction fuel generalizing t st with
  | zero => cases hloop
  | succ fuel ih =>
    intro t' hle hle'
    have hfits : TurnFits s r t := by
      cases hturn : rotateTurn n s r st with
      | none =>
        rw [loop_none hturn] at hloop
        cases hloop
      | some x => exact h.fits_of_step (by omega) hturn
    obtain ⟨st', hst', hturned⟩ := h.step hr hrs hsn (by omega) hfits
    rw [loop_inl hst'] at hloop
    rcases Nat.eq_or_lt_of_le hle with rfl | hlt
    · exact hfits
    · exact ih hturned hloop t' hlt hle'

/-- The turns come to the last place of the cycle, so that its successor is an `int`. -/
theorem forall_turnFits_iff (hrs : r < s) : (∀ t ≤ s, TurnFits s r t) ↔
    s + 1 ≤ 2147483647 ∧ s - s.gcd r + r ≤ 2147483647 := by
  have hs : 0 < s := by omega
  have hgcd := Nat.gcd_pos_of_pos_left r hs
  have hle := Nat.gcd_le_left r hs
  constructor
  · intro h
    refine ⟨(h s le_rfl).times, ?_⟩
    have hdvd : s.gcd r ∣ s - s.gcd r := Nat.dvd_sub (Nat.gcd_dvd_left s r) dvd_rfl
    obtain ⟨j, hlow, hhigh, hplace⟩ := exists_place (by omega) hdvd 0
    have hperiod := period_le s r
    have hsum := (h (j - 1) (by omega)).sum
    rwa [Nat.sub_add_cancel hlow, hplace] at hsum
  · rintro ⟨htimes, hsum⟩ t ht
    have hdvd : s.gcd r ∣ s - place s r (t + 1) :=
      Nat.dvd_sub (Nat.gcd_dvd_left s r) (dvd_place s r _)
    have hlt := place_lt (r := r) (j := t + 1) hs
    have hrest := Nat.le_of_dvd (by omega) hdvd
    exact ⟨by omega, by omega⟩

/-- What is in the end where turn `j` of a period leaves what it carries. -/
theorem Ended.value (hs : 0 < s) (h : Ended nums s r out) (hpos : 1 ≤ j)
    (hle : j ≤ period s r) : out (place s r (j + 1)) = carried nums s r (s + 1 + j) := by
  obtain ⟨st, h, rfl⟩ := h
  rw [← h.cycle (s + 1 + j) (by omega) (by omega)]
  congr 1
  rw [place_eq_iff hs]
  have hzero : s ≡ 0 [MOD period s r] :=
    Nat.modEq_zero_iff_dvd.mpr ⟨s.gcd r, (period_mul_gcd s r).symm⟩
  have hsum := (hzero.add_right (1 + j)).symm
  rwa [zero_add, ← add_assoc, add_comm 1 j] at hsum

theorem Ended.rest (h : Ended nums s r out) (hm : ∀ j, place s r j ≠ m) : out m = nums m := by
  obtain ⟨st, h, rfl⟩ := h
  exact h.rest m hm

end Run

section Outcome

/-- The element `k` places on from `i`, of `n`, is what was at `i`. -/
def Shifted (nums out : ℕ → ℤ) (n k : ℕ) : Prop := ∀ i < n, out ((i + k) % n) = nums i

/-- The vector is rotated to the right by `k`. -/
def Rotated (nums : ℕ → ℤ) (n k : ℕ) : Prop :=
  ∃ fuel out, rotate fuel nums n k = some out ∧ Shifted nums out n k

/-- What the loop makes of `s` of the elements is right: what is carried to a place of its cycle
belongs there, and what is not in the cycle stays where it is. -/
structure Carries (nums : ℕ → ℤ) (n s r k : ℕ) : Prop where
  times : s + 1 ≤ 2147483647
  sum : s - s.gcd r + r ≤ 2147483647
  cycle : ∀ i < n, ∀ j, 1 ≤ j → j ≤ period s r → place s r (j + 1) = (i + k) % n →
    carried nums s r (s + 1 + j) = nums i
  rest : ∀ i < n, (∀ j, place s r j ≠ (i + k) % n) → nums ((i + k) % n) = nums i

theorem Ended.shifted_iff (hs : 0 < s) (h : Ended nums s r out) : Shifted nums out n k ↔
    (∀ i < n, ∀ j, 1 ≤ j → j ≤ period s r → place s r (j + 1) = (i + k) % n →
      carried nums s r (s + 1 + j) = nums i) ∧
    ∀ i < n, (∀ j, place s r j ≠ (i + k) % n) → nums ((i + k) % n) = nums i := by
  constructor
  · intro hout
    constructor
    · intro i hi j hpos hle hplace
      rw [← h.value hs hpos hle, hplace]
      exact hout i hi
    · intro i hi hno
      rw [← h.rest hno]
      exact hout i hi
  · rintro ⟨hcycle, hrest⟩ i hi
    by_cases hplace : ∃ j, place s r j = (i + k) % n
    · obtain ⟨j, hj⟩ := hplace
      obtain ⟨j', hlow, hhigh, hj'⟩ := exists_place (place_lt hs) (dvd_place s r j) 1
      obtain ⟨l, rfl⟩ : ∃ l, j' = l + 1 := ⟨j' - 1, by omega⟩
      rw [← hj, ← hj', h.value hs (by omega) (by omega)]
      exact hcycle i hi l (by omega) (by omega) (hj'.trans hj)
    · rw [h.rest fun j hj => hplace ⟨j, hj⟩]
      exact hrest i hi fun j hj => hplace ⟨j, hj⟩

theorem loop_shifted_iff (hr : 0 < r) (hrs : r < s) (hsn : s ≤ n) :
    (∃ fuel out, loop (rotateTurn n s r) fuel ⟨nums, 0, nums 0, r⟩ = some out ∧
      Shifted nums out n k) ↔ Carries nums n s r k := by
  have hs : 0 < s := by omega
  constructor
  · rintro ⟨fuel, out, hloop, hout⟩
    have hfits := (turned_zero nums hrs).fits hr hrs hsn hloop
    obtain ⟨fuel', out', hloop', hended⟩ := loop_ends nums hr hrs hsn fun t => hfits t t.zero_le
    rw [loop_unique hloop hloop', hended.shifted_iff hs] at hout
    obtain ⟨htimes, hsum⟩ := (forall_turnFits_iff hrs).mp fun t => hfits t t.zero_le
    exact ⟨htimes, hsum, hout.1, hout.2⟩
  · rintro ⟨htimes, hsum, hcycle, hrest⟩
    obtain ⟨fuel, out, hloop, hended⟩ :=
      loop_ends nums hr hrs hsn ((forall_turnFits_iff hrs).mpr ⟨htimes, hsum⟩)
    exact ⟨fuel, out, hloop, (hended.shifted_iff hs).mpr ⟨hcycle, hrest⟩⟩

end Outcome

section Regular

/-- A vector for which the loop rotates by `k`: it has one element on each class of the places of
the cycle, which the loop goes round too often, and what the cycle leaves out is periodic. -/
structure Regular (nums : ℕ → ℤ) (n k : ℕ) : Prop where
  times : n + 1 ≤ 2147483647
  sum : n - n.gcd k + k % n ≤ 2147483647
  cycle : ∀ i < period n k + 1, ∀ j < period n k + 1,
    i ≡ j [MOD (period n k + 1).gcd (n + 1)] → nums (place n k i) = nums (place n k j)
  rest : ∀ i < n, ¬ n.gcd k ∣ i → nums ((i + k) % n) = nums i

theorem cycle_iff (hn : 0 < n) :
    (∀ i < n, ∀ j, 1 ≤ j → j ≤ period n k → place n k (j + 1) = (i + k) % n →
      nums (place n k ((n + 1 + j) % (period n k + 1))) = nums i) ↔
    ∀ i < period n k + 1, ∀ j < period n k + 1,
      i ≡ j [MOD (period n k + 1).gcd (n + 1)] → nums (place n k i) = nums (place n k j) := by
  rw [← shift_iff (f := fun j => nums (place n k j)) (Nat.succ_pos _)]
  constructor
  · intro h j hpos hlt
    rw [← h (place n k j) (place_lt hn) j hpos (by omega) (place_succ n k j), add_comm j]
  · intro h i hi j hpos hle hplace
    have hij : place n k j = i := by
      rw [place_succ] at hplace
      have hmod := Nat.ModEq.add_right_cancel' k hplace
      rwa [Nat.ModEq, Nat.mod_eq_of_lt (place_lt hn), Nat.mod_eq_of_lt hi] at hmod
    rw [← hij, h j hpos (by omega), add_comm j]

theorem rest_iff (hn : 0 < n) :
    (∀ i < n, (∀ j, place n k j ≠ (i + k) % n) → nums ((i + k) % n) = nums i) ↔
      ∀ i < n, ¬ n.gcd k ∣ i → nums ((i + k) % n) = nums i := by
  refine forall₂_congr fun i _ => ?_
  have hplace : (∀ j, place n k j ≠ (i + k) % n) ↔ ¬ n.gcd k ∣ i := by
    rw [← not_exists, exists_place_iff (Nat.mod_lt _ hn), Nat.dvd_mod_iff (Nat.gcd_dvd_left n k),
      Nat.dvd_add_left (Nat.gcd_dvd_right n k)]
  rw [hplace]

theorem carries_iff_regular (hn : 0 < n) :
    Carries nums n n (k % n) k ↔ Regular nums n k := by
  constructor
  · rintro ⟨htimes, hsum, hcycle, hrest⟩
    simp only [carried, place_mod, period_mod, gcd_mod] at hsum hcycle hrest
    exact ⟨htimes, hsum, (cycle_iff hn).mp hcycle, (rest_iff hn).mp hrest⟩
  · rintro ⟨htimes, hsum, hcycle, hrest⟩
    constructor
    · exact htimes
    · rwa [gcd_mod]
    · simp only [carried, place_mod, period_mod]
      exact (cycle_iff hn).mpr hcycle
    · simp only [place_mod]
      exact (rest_iff hn).mpr hrest

end Regular

section Rotate

theorem rotateBy_eq {size : ℤ} (hsize : size ≠ 0) (hk : k ≤ 2147483647) (fuel : ℕ) :
    rotateBy fuel nums n size k = if (k : ℤ).tmod size = 0 then some nums
      else (load (· < n) nums 0).bind fun save =>
        loop (rotateTurn n size ((k : ℤ).tmod size)) fuel ⟨nums, 0, save, (k : ℤ).tmod size⟩ := by
  have hint : (k : ℤ) ≤ 2147483647 := by omega
  rw [rotateBy, remainder_of_nonneg (Int.natCast_nonneg k) hint hsize]
  rfl

theorem rotateBy_zero (fuel : ℕ) : rotateBy fuel nums n 0 k = none := by
  have hnone : remainder k 0 = none := if_pos rfl
  rw [rotateBy, hnone]
  rfl

theorem rotateBy_of_dvd {size : ℤ} (hsize : size ≠ 0) (hdvd : size ∣ k) (hk : k ≤ 2147483647)
    (fuel : ℕ) : rotateBy fuel nums n size k = some nums := by
  rw [rotateBy_eq hsize hk, if_pos (Int.tmod_eq_zero_of_dvd hdvd)]

/-- The loop makes no turn where the size is negative as an `int`. -/
theorem rotateBy_of_neg {size : ℤ} (hn : 0 < n) (hsize : size < 0) (hk : k ≤ 2147483647)
    (fuel : ℕ) : rotateBy (fuel + 1) nums n size k = some nums := by
  have hload : load (· < n) nums 0 = some (nums 0) := if_pos hn
  rw [rotateBy_eq hsize.ne hk]
  split
  · rfl
  · rw [hload, Option.bind_some]
    exact loop_inr (if_neg (not_le.mpr hsize))

theorem rotateBy_of_pos (hn : 0 < n) (hs : 0 < s) (hdvd : ¬ s ∣ k) (hk : k ≤ 2147483647)
    (fuel : ℕ) : rotateBy fuel nums n s k =
      loop (rotateTurn n s (k % s : ℕ)) fuel ⟨nums, 0, nums 0, (k % s : ℕ)⟩ := by
  have hright : (k : ℤ).tmod s = (k % s : ℕ) := rfl
  have hne : ((k % s : ℕ) : ℤ) ≠ 0 := fun h => hdvd (Nat.dvd_of_mod_eq_zero (by exact_mod_cast h))
  have hload : load (· < n) nums 0 = some (nums 0) := if_pos hn
  rw [rotateBy_eq (by omega) hk, hright, if_neg hne, hload, Option.bind_some]

theorem rotateBy_unique {size : ℤ} {fuel fuel' : ℕ} {out' : ℕ → ℤ}
    (h : rotateBy fuel nums n size k = some out) (h' : rotateBy fuel' nums n size k = some out') :
    out = out' := by
  obtain ⟨right, hright, h⟩ := Option.bind_eq_some_iff.mp h
  obtain ⟨right', hright', h'⟩ := Option.bind_eq_some_iff.mp h'
  rw [hright, Option.some.injEq] at hright'
  subst hright'
  split at h
  · rw [if_pos ‹_›] at h'
    exact Option.some.inj (h.symm.trans h')
  · rw [if_neg ‹_›] at h'
    obtain ⟨save, hsave, h⟩ := Option.bind_eq_some_iff.mp h
    obtain ⟨save', hsave', h'⟩ := Option.bind_eq_some_iff.mp h'
    rw [hsave, Option.some.injEq] at hsave'
    subst hsave'
    exact loop_unique h h'

/-- Where nothing is done, the vector has to be its own rotation. -/
theorem rotatedBy_iff_of_still {size : ℤ} (hn : 0 < n) (hk : k ≤ 2147483647) (hsize : size ≠ 0)
    (hstill : size < 0 ∨ size ∣ k) :
    (∃ fuel out, rotateBy fuel nums n size k = some out ∧ Shifted nums out n k) ↔
      Shifted nums nums n k := by
  have hone : rotateBy 1 nums n size k = some nums := by
    rcases hstill with hneg | hdvd
    · exact rotateBy_of_neg hn hneg hk 0
    · exact rotateBy_of_dvd hsize hdvd hk 1
  constructor
  · rintro ⟨fuel, out, hout, hshifted⟩
    rwa [rotateBy_unique hout hone] at hshifted
  · exact fun h => ⟨1, nums, hone, h⟩

/-- What becomes of a vector, by its size as an `int`. -/
theorem rotatedBy_iff {size : ℤ} (hn : 0 < n) (hk : k ≤ 2147483647) (hle : size ≤ n) :
    (∃ fuel out, rotateBy fuel nums n size k = some out ∧ Shifted nums out n k) ↔
      size ≠ 0 ∧ (size < 0 ∨ size ∣ k) ∧ Shifted nums nums n k ∨
        ∃ s : ℕ, size = s ∧ 0 < s ∧ ¬ s ∣ k ∧ Carries nums n s (k % s) k := by
  by_cases hzero : size = 0
  · subst hzero
    refine iff_of_false ?_ ?_
    · rintro ⟨fuel, out, hout, -⟩
      rw [rotateBy_zero] at hout
      cases hout
    · rintro (⟨hne, -⟩ | ⟨s, hs, hspos, -⟩)
      · exact hne rfl
      · omega
  · by_cases hstill : size < 0 ∨ size ∣ k
    · rw [rotatedBy_iff_of_still hn hk hzero hstill, and_iff_right hzero, and_iff_right hstill]
      refine (or_iff_left ?_).symm
      rintro ⟨s, rfl, hspos, hdvd, -⟩
      rcases hstill with hneg | hdvd'
      · omega
      · exact hdvd (Int.natCast_dvd_natCast.mp hdvd')
    · obtain ⟨s, rfl⟩ := Int.eq_ofNat_of_zero_le (not_lt.mp fun h => hstill (.inl h))
      have hs : 0 < s := by omega
      have hdvd : ¬ s ∣ k := fun h => hstill (.inr (Int.natCast_dvd_natCast.mpr h))
      have hr : 0 < k % s := Nat.pos_of_ne_zero fun h => hdvd (Nat.dvd_of_mod_eq_zero h)
      simp only [rotateBy_of_pos hn hs hdvd hk]
      rw [loop_shifted_iff hr (Nat.mod_lt k hs) (by omega), or_iff_right fun h => hstill h.2.1]
      constructor
      · exact fun h => ⟨s, rfl, hs, hdvd, h⟩
      · rintro ⟨t, hst, -, -, h⟩
        obtain rfl : s = t := by omega
        exact h

theorem intSize_le (n : ℕ) : intSize n ≤ n := by
  unfold intSize
  rw [Int.bmod_def]
  split
  · omega
  · omega

theorem intSize_eq (hn : n ≤ 2147483647) : intSize n = n := by
  unfold intSize
  rw [Int.bmod_def]
  omega

/-- More elements than an `int` counts: where no turn is made, the vector is its own rotation, and
else what the loop makes of the first `intSize n` of them is right. -/
def Overlong (nums : ℕ → ℤ) (n k : ℕ) : Prop :=
  intSize n ≠ 0 ∧ (intSize n < 0 ∨ intSize n ∣ k) ∧ Shifted nums nums n k ∨
    ∃ s : ℕ, intSize n = s ∧ 0 < s ∧ ¬ s ∣ k ∧ Carries nums n s (k % s) k

theorem shifted_self_of_dvd (h : n ∣ k) : Shifted nums nums n k := by
  intro i hi
  obtain ⟨c, rfl⟩ := h
  rw [Nat.add_mul_mod_self_left, Nat.mod_eq_of_lt hi]

theorem rotated_iff_overlong (hn : 0 < n) (hk : k ≤ 2147483647) :
    Rotated nums n k ↔ Overlong nums n k :=
  rotatedBy_iff hn hk (intSize_le n)

theorem rotated_iff_regular (hn : 0 < n) (hmax : n ≤ 2147483647) (hk : k ≤ 2147483647) :
    Rotated nums n k ↔ n ∣ k ∨ Regular nums n k := by
  rw [rotated_iff_overlong hn hk]
  unfold Overlong
  rw [intSize_eq hmax]
  constructor
  · rintro (⟨-, hneg | hdvd, -⟩ | ⟨s, hs, -, -, hcarries⟩)
    · omega
    · exact .inl (Int.natCast_dvd_natCast.mp hdvd)
    · obtain rfl : n = s := by omega
      exact .inr ((carries_iff_regular hn).mp hcarries)
  · intro h
    by_cases hdvd : n ∣ k
    · exact .inl ⟨by omega, .inr (Int.natCast_dvd_natCast.mpr hdvd), shifted_self_of_dvd hdvd⟩
    · have hregular := h.resolve_left hdvd
      exact .inr ⟨n, rfl, hn, hdvd, (carries_iff_regular hn).mpr hregular⟩

/-- `rotate` rotates exactly where `k` is a multiple of the size, or the vector is regular; a
vector of more elements than an `int` counts is a case of its own. -/
theorem rotate_iff (hn : 0 < n) (hk : k ≤ 2147483647) : Rotated nums n k ↔
    n ≤ 2147483647 ∧ (n ∣ k ∨ Regular nums n k) ∨ 2147483647 < n ∧ Overlong nums n k := by
  by_cases hmax : n ≤ 2147483647
  · rw [and_iff_right hmax, or_iff_left fun h => absurd hmax (by omega)]
    exact rotated_iff_regular hn hmax hk
  · rw [or_iff_right fun h => hmax h.1, and_iff_right (by omega)]
    exact rotated_iff_overlong hn hk

/-- `{0, 1, 2, 3}` is regular by 3, and is rotated to `{1, 2, 3, 0}`. -/
theorem rotate_iff_four : Regular (fun i => i) 4 3 ∧ Rotated (fun i => i) 4 3 := by
  have hrotated : Rotated (fun i => i) 4 3 := by
    refine ⟨6, _, rfl, ?_⟩
    intro i hi
    interval_cases i <;> rfl
  have hiff : Rotated (fun i => i) 4 3 ↔ _ := rotate_iff (by decide) (by decide)
  refine ⟨?_, hrotated⟩
  rcases hiff.mp hrotated with ⟨-, hdvd | hregular⟩ | ⟨hlong, -⟩
  · exact absurd hdvd (by decide)
  · exact hregular
  · exact absurd hlong (by decide)

/-- The vector `{-1, -100, 1, 99}`, by 2: the odd indices are in no turn, and the even ones come
back to where they were. -/
theorem not_rotated_four : ¬ Rotated (fun i => [-1, -100, 1, 99].getD i 0) 4 2 := by
  rw [rotated_iff_regular (by decide) (by decide) (by decide)]
  rintro (hdvd | hregular)
  · revert hdvd
    decide
  · have hrest := hregular.rest 1 (by decide) (by decide)
    revert hrest
    decide

example : (rotate 6 (fun i => [-1, -100, 1, 99].getD i 0) 4 2).map (List.map · (List.range 4)) =
    some [-1, -100, 1, 99] := by decide

/-- A size for which every vector is rotated is coprime to `k`, if it does not divide it. -/
theorem forall_rotated_iff (hn : 0 < n) (hmax : n ≤ 2147483647) (hk : k ≤ 2147483647) :
    (∀ nums, Rotated nums n k) ↔ n ∣ k ∨
      n.Coprime k ∧ n + 1 ≤ 2147483647 ∧ n - 1 + k % n ≤ 2147483647 := by
  simp only [rotated_iff_regular hn hmax hk]
  by_cases hdvd : n ∣ k
  · exact iff_of_true (fun _ => .inl hdvd) (.inl hdvd)
  · simp only [or_iff_right hdvd]
    constructor
    · intro h
      have hregular := h fun i => i
      have hone : n ≠ 1 := fun h => hdvd (h ▸ one_dvd k)
      have hcoprime : n.gcd k = 1 := by
        by_contra hne
        have hrest := hregular.rest 1 (by omega) fun h => hne (Nat.dvd_one.mp h)
        have heq : (1 + k) % n = 1 := by exact_mod_cast hrest
        have hmod : 1 + k ≡ 1 + 0 [MOD n] := by
          rw [Nat.ModEq, heq, add_zero, Nat.mod_eq_of_lt (by omega)]
        exact hdvd (Nat.modEq_zero_iff_dvd.mp (Nat.ModEq.add_left_cancel' 1 hmod))
      have hsum := hregular.sum
      rw [hcoprime] at hsum
      exact ⟨hcoprime, hregular.times, hsum⟩
    · rintro ⟨hcoprime, htimes, hsum⟩ nums
      have hgcd : n.gcd k = 1 := hcoprime
      have hperiod : period n k = n := by rw [period, hgcd, Nat.div_one]
      constructor
      · exact htimes
      · rwa [hgcd]
      · intro i hi j hj hmod
        rw [hperiod] at hi hj
        rw [hperiod, Nat.gcd_self] at hmod
        rw [hmod.eq_of_lt_of_lt hi hj]
      · intro i _ hndvd
        exact absurd (hgcd ▸ one_dvd i) hndvd

end Rotate

end MgRaffle.MgServer.Helloworld
