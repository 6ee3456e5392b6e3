import MgRaffle.Library.Looping
import MgRaffle.Library.Palindromes
import MgRaffle.Utils.Sequence

namespace MgRaffle.Leetcode
open Looping Palindromes
open Utils (int int_of_le)

/-- `max_length`, `max_index` and `len`. -/
structure Search where
  maxLength : ℕ
  maxIndex : ℕ
  len : ℕ

structure Cursor where
  istart : ℕ
  jstart : ℕ
  len : ℕ

/-- The body of `while (istart <= jstart)`, which ends with `istart` and `len`. There is no result
where `len` overflows. A `jstart` of 0 stays 0 where the source has -1: `istart` is above both. -/
def compareTurn (s : List Char) (i : ℕ) (c : Cursor) : Option (Cursor ⊕ ℕ × ℕ) :=
  if c.istart ≤ c.jstart then
    if s[c.istart]? = s[c.jstart]? then
      let len := c.len + if c.istart = c.jstart then 1 else 2
      if len ≤ 2147483647 then some (.inl ⟨c.istart + 1, c.jstart - 1, len⟩) else none
    else some (.inr (i, c.len))
  else some (.inr (c.istart, c.len))

def compare (s : List Char) (i : ℕ) (c : Cursor) : Option (ℕ × ℕ) :=
  loop (compareTurn s i) (s.length + 1) c

/-- `for (int j = length - 1; j >= i; j--)`, with `r` values of `j` left. -/
def tryEnds (s : List Char) (i : ℕ) : ℕ → ℕ → Search → Option Search
  | 0, _, p => some p
  | r + 1, istart, p =>
    (compare s i ⟨istart, i + r, p.len⟩).bind fun (istart, len) =>
      if len > p.maxLength then some ⟨len, i, len⟩
      else tryEnds s i r istart { p with len := 0 }

def substr (s : List Char) (pos count : ℕ) : Option (List Char) :=
  if pos ≤ s.length then some ((s.drop pos).take count) else none

/-- `none` where there is no defined result. -/
def longestPalindrome (s : List Char) : Option (List Char) :=
  let length := ((s.length : ℤ).bmod 4294967296).toNat
  (countUp (fun i p => tryEnds s i (length - i) i p) length ⟨0, 0, 0⟩).bind fun p =>
    substr s p.maxIndex p.maxLength

section Compare

variable {s : List Char} {i x y l : ℕ}

/-- What can come of comparing `s[x]`, …, `s[y]` from both ends, with `len` at `l`: all pairs match,
or the first `k` pairs do, and then `len` has grown though there is no palindrome. -/
inductive Compared (s : List Char) (i x y l : ℕ) : ℕ × ℕ → Prop
  | whole {x' : ℕ} (hx : x ≤ x') (hpairs : ∀ t, x + 2 * t ≤ y → s[x + t]? = s[y - t]?) :
      Compared s i x y l (x', l + (y + 1 - x))
  | broken {k : ℕ} (hk : x + 2 * k < y) (hpairs : ∀ t < k, s[x + t]? = s[y - t]?)
      (hne : s[x + k]? ≠ s[y - k]?) : Compared s i x y l (i, l + 2 * k)

/-- The first `k` pairs match, and `m` more comparisons are enough. -/
def Matched (s : List Char) (x y l m : ℕ) (c : Cursor) : Prop :=
  ∃ k, k + m = y + 1 - x ∧ x + 2 * k ≤ y + 2 ∧ (∀ t < k, s[x + t]? = s[y - t]?) ∧
    c = ⟨x + k, y - k, l + min (2 * k) (y + 1 - x)⟩

theorem compareTurn_matched {m : ℕ} {c : Cursor} (hl : l + (y + 1 - x) ≤ 2147483647)
    (h : Matched s x y l m c) :
    (∃ c', compareTurn s i c = some (.inl c') ∧ ∃ m' < m, Matched s x y l m' c') ∨
      ∃ r, compareTurn s i c = some (.inr r) ∧ Compared s i x y l r := by
  obtain ⟨k, hm, hk, hpairs, rfl⟩ := h
  by_cases hle : x + k ≤ y - k
  · have hroom : x + 2 * k ≤ y := by omega
    by_cases heq : s[x + k]? = s[y - k]?
    · left
      have hlen : l + min (2 * k) (y + 1 - x) + (if x + k = y - k then 1 else 2) =
          l + min (2 * (k + 1)) (y + 1 - x) := by
        split <;> omega
      refine ⟨⟨x + (k + 1), y - (k + 1), l + min (2 * (k + 1)) (y + 1 - x)⟩, ?_, m - 1, by omega,
        k + 1, by omega, by omega, fun t ht => ?_, rfl⟩
      · rw [compareTurn, if_pos hle, if_pos heq]
        simp only [hlen]
        exact if_pos (by omega)
      · rcases Nat.lt_succ_iff_lt_or_eq.mp ht with ht | rfl
        · exact hpairs t ht
        · exact heq
    · right
      have hlt : x + 2 * k < y := by
        refine lt_of_le_of_ne hroom fun hmid => heq ?_
        rw [show y - k = x + k by omega]
      refine ⟨(i, l + 2 * k), ?_, .broken hlt hpairs heq⟩
      rw [compareTurn, if_pos hle, if_neg heq, min_eq_left (by omega)]
  · right
    refine ⟨(x + k, l + (y + 1 - x)), ?_, .whole (Nat.le_add_right x k) fun t ht => ?_⟩
    · rw [compareTurn, if_neg hle, min_eq_right (by omega)]
    · exact hpairs t (by omega)

theorem compare_spec (hy : y < s.length) (hl : l + (y + 1 - x) ≤ 2147483647) :
    ∃ r, compare s i ⟨x, y, l⟩ = some r ∧ Compared s i x y l r := by
  by_cases hxy : x ≤ y
  · refine loop_total (fun m c => compareTurn_matched (m := m) hl) (m := y + 1 - x) ?_ (by omega)
    refine ⟨0, Nat.zero_add _, by omega, fun t ht => absurd ht t.not_lt_zero, ?_⟩
    rw [Nat.mul_zero, Nat.zero_min]
    rfl
  · refine ⟨(x, l + (y + 1 - x)), ?_, .whole le_rfl fun t ht => absurd ht (by omega)⟩
    rw [show y + 1 - x = 0 by omega]
    exact loop_inr (if_neg hxy)

/-- Where the first pair does not match, nothing is compared to `len`'s account. -/
theorem compare_of_ne (hxy : x ≤ y) (hne : s[x]? ≠ s[y]?) :
    compare s i ⟨x, y, l⟩ = some (i, l) := by
  apply loop_inr
  rw [compareTurn, if_pos hxy, if_neg hne]

theorem Compared.bounds {r : ℕ × ℕ} (h : Compared s i x y l r) (hi : i ≤ x) :
    i ≤ r.1 ∧ r.2 ≤ l + (y + 1 - x) := by
  cases h with
  | whole hx hpairs => exact ⟨hi.trans hx, le_rfl⟩
  | broken hk hpairs hne => exact ⟨le_rfl, Nat.add_le_add_left (by omega) l⟩

end Compare

section Searching

variable {s : List Char} {i j k l m r x : ℕ} {p : Search}

/-- At `i` starts a palindrome that is longer than all those that start before. -/
def Longer (s : List Char) (i l : ℕ) : Prop :=
  PalindromeAt s i l ∧ ∀ a < i, ∀ m ≤ s.length, PalindromeAt s a m → m < l

/-- From `i` and `j` inwards, the first `k` pairs match and the next one does not. -/
def BrokenAt (s : List Char) (i j k : ℕ) : Prop :=
  i + 2 * k < j ∧ (∀ t < k, s[i + t]? = s[j - t]?) ∧ s[i + k]? ≠ s[j - k]?

instance : Decidable (Longer s i l) := inferInstanceAs (Decidable (_ ∧ _))

instance : Decidable (BrokenAt s i j k) := inferInstanceAs (Decidable (_ ∧ _ ∧ _))

/-- Before the `k` pairs, the search meets a palindrome from `i` that ends the turn, or has met one
that is not shorter than they are. -/
def Preceded (s : List Char) (i j k : ℕ) : Prop :=
  (∃ l ≤ s.length, j + 1 < i + l ∧ Longer s i l) ∨
    ∃ a < i, ∃ l ≤ s.length, 2 * k ≤ l ∧ PalindromeAt s a l

instance : Decidable (Preceded s i j k) := inferInstanceAs (Decidable (_ ∨ _))

/-- What is counted is always a palindrome: the count left over from a match meets a pair that does
not match, and pairs that lead to no palindrome are not more than what has been found before. -/
structure Clean (s : List Char) : Prop where
  fits : s.length ≤ 2147483647
  fresh : ∀ i < s.length, ∀ l ≤ s.length, 0 < l → Longer s i l → s[i + 1]? ≠ s[s.length - 1]?
  small : ∀ i < s.length, ∀ j < s.length, ∀ k ≤ s.length, 0 < k → BrokenAt s i j k →
    Preceded s i j k

/-- The search where `i` begins its turn. -/
structure Found (s : List Char) (i : ℕ) (p : Search) : Prop where
  covers : ∀ a < i, ∀ m, PalindromeAt s a m → m ≤ p.maxLength
  found : PalindromeAt s p.maxIndex p.maxLength
  before : p.maxLength = 0 ∨ p.maxIndex < i
  stale : p.len = 0 ∨ p.len ≤ p.maxLength ∧ s[i]? ≠ s[s.length - 1]?

theorem found_start : Found s 0 ⟨0, 0, 0⟩ :=
  ⟨fun a ha => absurd ha a.not_lt_zero, ⟨Nat.zero_le _, fun t ht => absurd ht t.not_lt_zero⟩,
    .inl rfl, .inl rfl⟩

theorem Found.longer (h : Found s i p) (hpal : PalindromeAt s i l) (hlt : p.maxLength < l) :
    Longer s i l :=
  ⟨hpal, fun a ha m _ hm => (h.covers a ha m hm).trans_lt hlt⟩

theorem Found.not_longer (h : Found s i p) (hl : 0 < l) (hle : l ≤ p.maxLength) :
    ¬ Longer s i l := by
  rintro ⟨-, hall⟩
  rcases h.before with hzero | hindex
  · omega
  · have := hall _ hindex _ h.found.le_length h.found
    omega

theorem Found.next (h : Found s i p) (hlen : p.len = 0)
    (hseen : ∀ l, PalindromeAt s i l → l ≤ p.maxLength) : Found s (i + 1) p := by
  refine ⟨fun a ha m hm => ?_, h.found, h.before.imp_right Nat.lt_succ_of_lt, .inl hlen⟩
  rcases Nat.lt_succ_iff_lt_or_eq.mp ha with ha | rfl
  · exact h.covers a ha m hm
  · exact hseen m hm

/-- The window found at `i` is the longest that starts at or before `i`. -/
theorem Found.record (hclean : Clean s) (h : Found s i p) (hi : i < s.length)
    (hpal : PalindromeAt s i l) (hlt : p.maxLength < l)
    (hseen : ∀ m, l < m → PalindromeAt s i m → m ≤ p.maxLength) : Found s (i + 1) ⟨l, i, l⟩ := by
  refine ⟨fun a ha m hm => ?_, hpal, .inr i.lt_succ_self, .inr ⟨le_rfl, ?_⟩⟩
  · rcases Nat.lt_succ_iff_lt_or_eq.mp ha with ha | rfl
    · exact (h.covers a ha m hm).trans hlt.le
    · refine not_lt.mp fun (hlong : l < m) => ?_
      have := hseen m hlong hm
      omega
  · exact hclean.fresh i hi l hpal.le_length (by omega) (h.longer hpal hlt)

/-- A turn of the loop over `j`. -/
theorem tryEnds_succ (hr : i + r < s.length) (hl : p.len + (i + r + 1 - x) ≤ 2147483647) :
    ∃ x' l, Compared s i x (i + r) p.len (x', l) ∧
      tryEnds s i (r + 1) x p =
        if l > p.maxLength then some ⟨l, i, l⟩ else tryEnds s i r x' { p with len := 0 } := by
  obtain ⟨⟨x', l⟩, hc, hcompared⟩ := compare_spec (i := i) hr hl
  refine ⟨x', l, hcompared, ?_⟩
  rw [tryEnds, hc, Option.bind_some]

/-- Windows that are not longer than what has been found change nothing, wherever `istart` is. -/
theorem tryEnds_idle (hfits : s.length ≤ 2147483647) (hx : i ≤ x) (hr : i + r ≤ s.length)
    (hle : r ≤ p.maxLength) (hlen : p.len = 0) : tryEnds s i r x p = some p := by
  induction r generalizing x with
  | zero => rfl
  | succ r ih =>
    obtain ⟨x', l, hcompared, hturn⟩ :=
      tryEnds_succ (s := s) (i := i) (r := r) (x := x) (p := p) (by omega) (by omega)
    obtain ⟨hx', hl⟩ := hcompared.bounds hx
    have hp : ({ p with len := 0 } : Search) = p := by rw [← hlen]
    rw [hturn, hp, if_neg (by omega)]
    exact ih hx' (by omega) (by omega)

/-- A broken comparison counts no more than has been found. -/
theorem Clean.broken_le (hclean : Clean s) (h : Found s i p) (hj : j < s.length)
    (hbroken : BrokenAt s i j k)
    (hseen : ∀ l, j + 1 < i + l → PalindromeAt s i l → l ≤ p.maxLength) :
    2 * k ≤ p.maxLength := by
  have hlt := hbroken.1
  rcases k.eq_zero_or_pos with rfl | hk
  · exact Nat.zero_le _
  · rcases hclean.small i (by omega) j hj k (by omega) hk hbroken with
      ⟨l, -, hl, hlonger⟩ | ⟨a, ha, l, -, hl, hpal⟩
    · exact absurd hlonger (h.not_longer (by omega) (hseen l hl hlonger.1))
    · exact hl.trans (h.covers a ha l hpal)

theorem tryEnds_fresh (hclean : Clean s) (h : Found s i p) (hlen : p.len = 0) (hi : i < s.length)
    (hr : i + r ≤ s.length) (hseen : ∀ l, r < l → PalindromeAt s i l → l ≤ p.maxLength) :
    ∃ q, tryEnds s i r i p = some q ∧ Found s (i + 1) q := by
  induction r with
  | zero =>
    refine ⟨p, rfl, h.next hlen fun l hl => ?_⟩
    rcases l.eq_zero_or_pos with rfl | hpos
    · exact Nat.zero_le _
    · exact hseen l hpos hl
  | succ r ih =>
    have hfits := hclean.fits
    have hp : ({ p with len := 0 } : Search) = p := by rw [← hlen]
    obtain ⟨x', l, hcompared, hturn⟩ :=
      tryEnds_succ (s := s) (i := i) (r := r) (x := i) (p := p) (by omega) (by omega)
    rw [hturn, hp]
    cases hcompared with
    | whole hx hpairs =>
      have hpal : PalindromeAt s i (r + 1) := by
        refine palindromeAt_of_half (by omega) fun t ht => ?_
        rw [hpairs t (by omega), show i + (r + 1 - 1 - t) = i + r - t by omega]
      have hcount : p.len + (i + r + 1 - i) = r + 1 := by omega
      rw [hcount]
      -- a match that is not recorded leaves `istart` behind it; no window left is long enough for
      -- that to matter
      by_cases hlt : p.maxLength < r + 1
      · exact ⟨_, if_pos hlt, h.record hclean hi hpal hlt hseen⟩
      · rw [if_neg hlt, tryEnds_idle hfits hx (by omega) (by omega) hlen]
        refine ⟨p, rfl, h.next hlen fun l hl => ?_⟩
        by_cases hlong : r + 1 < l
        · exact hseen l hlong hl
        · omega
    | @broken k hk hpairs hne =>
      -- `2 * k` is counted, though nothing from `i` to `i + r` is a palindrome
      have hle := hclean.broken_le h (by omega) ⟨hk, hpairs, hne⟩
        fun l hl => hseen l (by omega)
      rw [if_neg (by omega)]
      refine ih (by omega) fun l hl hpal => ?_
      by_cases hlong : r + 1 < l
      · exact hseen l hlong hpal
      · obtain rfl : l = r + 1 := by omega
        refine absurd ?_ hne
        rw [hpal.2 k (by omega), show i + (r + 1 - 1 - k) = i + r - k by omega]

/-- A turn of the outer loop. -/
theorem tryEnds_spec (hclean : Clean s) (hi : i < s.length) (h : Found s i p) :
    ∃ q, tryEnds s i (s.length - i) i p = some q ∧ Found s (i + 1) q := by
  rcases h.stale with hlen | ⟨hlen, hne⟩
  · refine tryEnds_fresh hclean h hlen hi (by omega) fun l hl hpal => ?_
    have := hpal.1
    omega
  · -- what is left over meets a mismatch, and is cleared
    obtain ⟨r, hr⟩ : ∃ r, s.length - i = r + 1 := ⟨s.length - i - 1, by omega⟩
    have hlast : s.length - 1 = i + r := by omega
    rw [hlast] at hne
    rw [hr, tryEnds, compare_of_ne (Nat.le_add_right i r) hne, Option.bind_some]
    simp only
    rw [if_neg (not_lt.mpr hlen)]
    have hfound : Found s i { p with len := 0 } := ⟨h.covers, h.found, h.before, .inl rfl⟩
    refine tryEnds_fresh hclean hfound rfl hi (by omega) fun l hl hpal => ?_
    have hle := hpal.1
    obtain rfl : l = r + 1 := by omega
    exact absurd (hpal.2 0 (by omega)) hne

end Searching

/-- `r` is a palindrome in `s`, and none in `s` is longer. -/
def IsLongestPalindrome (s r : List Char) : Prop :=
  r <:+: s ∧ r.Palindrome ∧ ∀ t, t <:+: s → t.Palindrome → t.length ≤ r.length

theorem isLongestPalindrome_window {s : List Char} {a l : ℕ} (h : PalindromeAt s a l)
    (hmax : ∀ b m, PalindromeAt s b m → m ≤ l) :
    IsLongestPalindrome s ((s.drop a).take l) := by
  refine ⟨(List.take_prefix _ _).isInfix.trans (List.drop_suffix _ _).isInfix, h.window, ?_⟩
  intro t hsub ht
  obtain ⟨b, hb⟩ := exists_palindromeAt ht hsub
  rw [List.length_take, List.length_drop, min_eq_left (Nat.le_sub_of_add_le' h.1)]
  exact hmax b t.length hb

theorem length_of_fits {n : ℕ} (h : n ≤ 2147483647) :
    ((n : ℤ).bmod 4294967296).toNat = n := by
  rw [Int.bmod_eq_of_le (by omega) (by omega), Int.toNat_natCast]

theorem length_of_not_fits {n : ℕ} (h : ¬ n ≤ 2147483647) :
    ((n : ℤ).bmod 4294967296).toNat ≤ 2147483647 ∧ ((n : ℤ).bmod 4294967296).toNat < n := by
  rw [Int.bmod_def]
  split <;> omega

/-- Where only palindromes are counted, the result is a longest one. -/
theorem isLongest_of_clean {s : List Char} (hclean : Clean s) :
    ∃ r, longestPalindrome s = some r ∧ IsLongestPalindrome s r := by
  have hlength := length_of_fits hclean.fits
  obtain ⟨p, hp, hfound⟩ :=
    countUp_total (fun i _ hi h => tryEnds_spec hclean hi h) (found_start (s := s))
  refine ⟨(s.drop p.maxIndex).take p.maxLength, ?_, isLongestPalindrome_window hfound.found ?_⟩
  · rw [longestPalindrome, hlength, hp, Option.bind_some, substr, if_pos]
    exact (Nat.le_add_right _ _).trans hfound.found.1
  · intro b m hm
    by_cases hb : b < s.length
    · exact hfound.covers b hb m hm
    · have := hm.1
      omega

section OnPalindromes

variable {s : List Char} {i r x : ℕ} {p q : Search}

theorem palindromeAt_of_palindrome (hs : s.Palindrome) : PalindromeAt s 0 s.length := by
  refine ⟨(Nat.zero_add _).le, fun t ht => ?_⟩
  rw [Nat.zero_add, Nat.zero_add, ← List.getElem?_reverse ht, hs.reverse_eq]

/-- A palindrome is found at once, and is spoilt by nothing but the count left over from it. -/
theorem clean_of_palindrome (hs : s.Palindrome) (hfits : s.length ≤ 2147483647)
    (hne : 2 ≤ s.length → s[1]? ≠ s[s.length - 1]?) : Clean s := by
  have hwhole := palindromeAt_of_palindrome hs
  refine ⟨hfits, fun i hi l hl hpos hlonger => ?_, fun i hi j hj k _ hk hbroken => ?_⟩
  · rcases i.eq_zero_or_pos with rfl | hi'
    · by_cases htwo : 2 ≤ s.length
      · exact hne htwo
      · rw [List.getElem?_eq_none (by omega), List.getElem?_eq_getElem (by omega)]
        exact (Option.some_ne_none _).symm
    · have := hlonger.2 0 hi' _ le_rfl hwhole
      omega
  · rcases i.eq_zero_or_pos with rfl | hi'
    · refine .inl ⟨s.length, le_rfl, ?_, hwhole, fun a ha => absurd ha a.not_lt_zero⟩
      refine lt_of_le_of_ne (by omega) fun hj' => hbroken.2.2 ?_
      have hlt := hbroken.1
      rw [hwhole.2 k (by omega), show 0 + (s.length - 1 - k) = j - k by omega]
    · have hlt := hbroken.1
      exact .inr ⟨0, hi', s.length, le_rfl, by omega, hwhole⟩

/-- What a turn of the outer loop leaves is as it was, or was found in the turn. -/
theorem tryEnds_index (h : tryEnds s i r x p = some q) :
    q.maxIndex = i ∨ q.maxIndex = p.maxIndex ∧ q.maxLength = p.maxLength := by
  induction r generalizing x p with
  | zero =>
    cases h
    exact .inr ⟨rfl, rfl⟩
  | succ r ih =>
    obtain ⟨⟨x', l⟩, -, h⟩ := Option.bind_eq_some_iff.mp h
    simp only at h
    split at h
    · cases h
      exact .inl rfl
    · exact ih (p := { p with len := 0 }) h

/-- While nothing is left over, no window counts for more than it has. -/
theorem tryEnds_maxLength {m : ℕ} (hm : m ≤ 2147483647) (hr : i + r ≤ s.length) (hi : i ≤ x)
    (hle : r ≤ m) (hlen : p.len = 0) (hp : p.maxLength ≤ m) (h : tryEnds s i r x p = some q) :
    q.maxLength ≤ m := by
  induction r generalizing x p with
  | zero =>
    cases h
    exact hp
  | succ r ih =>
    obtain ⟨x', l, hcompared, hturn⟩ :=
      tryEnds_succ (s := s) (i := i) (r := r) (x := x) (p := p) (by omega) (by omega)
    obtain ⟨hx', hl⟩ := hcompared.bounds hi
    simp only at hx' hl
    rw [hturn] at h
    split at h
    · cases h
      exact hl.trans (by omega)
    · exact ih (p := { p with len := 0 }) (by omega) hx' (by omega) rfl hp h

/-- Where a pair matches, the count has grown. -/
theorem lt_of_compare {y l : ℕ} {r : ℕ × ℕ} (hxy : x ≤ y) (heq : s[x]? = s[y]?)
    (h : compare s i ⟨x, y, l⟩ = some r) : l < r.2 := by
  refine loop_partial (fun c : Cursor => c = ⟨x, y, l⟩ ∨ l < c.len) (fun r => l < r.2) ?_ ?_
    (.inl rfl) h
  · intro c c' hc hturn
    have hle : l ≤ c.len := by
      rcases hc with rfl | hc
      · exact le_rfl
      · exact hc.le
    simp only [compareTurn] at hturn
    split_ifs at hturn <;> cases hturn <;>
      exact .inr (hle.trans_lt (Nat.lt_add_of_pos_right (by decide)))
  · intro c r hc hturn
    obtain ⟨hlen, hends⟩ : r.2 = c.len ∧ (c.istart ≤ c.jstart → s[c.istart]? ≠ s[c.jstart]?) := by
      simp only [compareTurn] at hturn
      split_ifs at hturn <;> cases hturn
      · exact ⟨rfl, fun _ => ‹_›⟩
      · exact ⟨rfl, fun hle => absurd hle ‹_›⟩
    rcases hc with rfl | hc
    · exact absurd heq (hends hxy)
    · exact hlen.symm ▸ hc

/-- What has been found is not all of `s`. -/
def Missed (s : List Char) (p : Search) : Prop := 0 < p.maxIndex ∨ p.maxLength < s.length

theorem Missed.next (hp : Missed s p) (hi : 0 < i) (h : tryEnds s i r x p = some q) :
    Missed s q := by
  rcases tryEnds_index h with hindex | ⟨hindex, hlength⟩
  · exact .inl (hindex.symm ▸ hi)
  · rw [Missed, hindex, hlength]
    exact hp

/-- The count left over from all of `s` is added to. -/
theorem missed_of_leftover (hone : 1 < s.length) (heq : s[1]? = s[s.length - 1]?)
    (h : tryEnds s 1 (s.length - 1) 1 ⟨s.length, 0, s.length⟩ = some q) : Missed s q := by
  obtain ⟨r, hr⟩ : ∃ r, s.length - 1 = r + 1 := ⟨s.length - 2, by omega⟩
  rw [hr, tryEnds] at h
  obtain ⟨⟨x, l⟩, hc, h⟩ := Option.bind_eq_some_iff.mp h
  have hlt : s.length < l := lt_of_compare (by omega) (by rw [heq, hr, Nat.add_comm r 1]) hc
  simp only [gt_iff_lt] at h
  rw [if_pos hlt, Option.some.injEq] at h
  subst h
  exact .inl Nat.one_pos

/-- The first turn finds all of a palindrome. -/
theorem tryEnds_whole (hs : s.Palindrome) (hfits : s.length ≤ 2147483647) (hpos : 0 < s.length) :
    tryEnds s 0 s.length 0 ⟨0, 0, 0⟩ = some ⟨s.length, 0, s.length⟩ := by
  have hwhole := palindromeAt_of_palindrome hs
  obtain ⟨r, hr⟩ : ∃ r, s.length = r + 1 := ⟨s.length - 1, by omega⟩
  have hroom : 0 + (0 + r + 1 - 0) ≤ 2147483647 := by omega
  obtain ⟨x, l, hcompared, hturn⟩ :=
    tryEnds_succ (s := s) (i := 0) (x := 0) (p := ⟨0, 0, 0⟩) (by omega) hroom
  have hl : l = r + 1 := by
    cases hcompared with
    | whole hx hpairs =>
      show 0 + (0 + r + 1 - 0) = r + 1
      omega
    | @broken k hk hpairs hne =>
      refine absurd ?_ hne
      rw [hwhole.2 k (by omega), show 0 + (s.length - 1 - k) = 0 + r - k by omega]
  subst hl
  rw [hr, hturn]
  exact if_pos r.succ_pos

/-- Where `length` has wrapped, the first turn does not get to the end of `s`. -/
theorem missed_of_wrapped {m : ℕ} (hm : m ≤ 2147483647) (hlt : m < s.length)
    (h : tryEnds s 0 m 0 ⟨0, 0, 0⟩ = some q) : Missed s q :=
  .inr ((tryEnds_maxLength hm (by omega) le_rfl le_rfl rfl m.zero_le h).trans_lt hlt)

theorem Missed.length_lt {r : List Char} (hp : Missed s p)
    (h : substr s p.maxIndex p.maxLength = some r) : r.length < s.length := by
  unfold substr at h
  split at h
  · cases h
    rw [List.length_take, List.length_drop]
    rcases hp with hp | hp <;> omega
  · cases h

/-- All turns of the outer loop, of which the first two decide. -/
theorem missed_of_turns {length : ℕ} {first : Search}
    (hfirst : ∀ q, tryEnds s 0 length 0 ⟨0, 0, 0⟩ = some q → q = first ∨ Missed s q)
    (hsecond : ∀ q, tryEnds s 1 (length - 1) 1 first = some q → Missed s q)
    (h : countUp (fun i p => tryEnds s i (length - i) i p) length ⟨0, 0, 0⟩ = some p) :
    length = 0 ∧ p = ⟨0, 0, 0⟩ ∨ length = 1 ∧ p = first ∨ Missed s p := by
  have hrun := countUp_partial
    (fun i p => i = 0 ∧ p = ⟨0, 0, 0⟩ ∨ i = 1 ∧ p = first ∨ 0 < i ∧ Missed s p) ?_
    (.inl ⟨rfl, rfl⟩) h
  · exact hrun.imp_right (Or.imp_right And.right)
  · rintro i p q - (⟨rfl, rfl⟩ | ⟨rfl, rfl⟩ | ⟨hi, hp⟩) hturn
    · exact .inr ((hfirst q hturn).imp (fun hq => ⟨rfl, hq⟩) fun hq => ⟨Nat.one_pos, hq⟩)
    · exact .inr (.inr ⟨Nat.succ_pos 1, hsecond q hturn⟩)
    · exact .inr (.inr ⟨Nat.succ_pos i, hp.next hi hturn⟩)

theorem missed_of_not_clean (hs : s.Palindrome) (hclean : ¬ Clean s)
    (h : countUp (fun i p => tryEnds s i (((s.length : ℤ).bmod 4294967296).toNat - i) i p)
      ((s.length : ℤ).bmod 4294967296).toNat ⟨0, 0, 0⟩ = some p) :
    Missed s p := by
  by_cases hfits : s.length ≤ 2147483647
  · rw [length_of_fits hfits] at h
    have hleft : 1 < s.length ∧ s[1]? = s[s.length - 1]? := by
      by_contra hleft
      exact hclean (clean_of_palindrome hs hfits fun hone heq => hleft ⟨hone, heq⟩)
    have hfirst : ∀ q, tryEnds s 0 s.length 0 ⟨0, 0, 0⟩ = some q →
        q = ⟨s.length, 0, s.length⟩ ∨ Missed s q := by
      intro q hq
      rw [tryEnds_whole hs hfits (by omega), Option.some.injEq] at hq
      exact .inl hq.symm
    rcases missed_of_turns hfirst (fun q hq => missed_of_leftover hleft.1 hleft.2 hq) h with
      ⟨hzero, -⟩ | ⟨hlast, -⟩ | hp
    · omega
    · omega
    · exact hp
  · obtain ⟨hint, hlt⟩ := length_of_not_fits hfits
    have hstart : Missed s ⟨0, 0, 0⟩ := .inr (Nat.zero_lt_of_lt hlt)
    rcases missed_of_turns (fun q hq => .inr (missed_of_wrapped hint hlt hq))
      (fun q hq => hstart.next Nat.one_pos hq) h with ⟨-, rfl⟩ | ⟨-, rfl⟩ | hp
    · exact hstart
    · exact hstart
    · exact hp

theorem clean_of_isLongest (hs : s.Palindrome)
    (h : ∃ r, longestPalindrome s = some r ∧ IsLongestPalindrome s r) : Clean s := by
  obtain ⟨r, hr, -, -, hmax⟩ := h
  by_contra hclean
  rw [longestPalindrome] at hr
  obtain ⟨p, hp, hr⟩ := Option.bind_eq_some_iff.mp hr
  have hshort := (missed_of_not_clean hs hclean hp).length_lt hr
  have := hmax s List.infix_rfl hs
  omega

end OnPalindromes

/-- A longest palindrome is returned where only palindromes are counted, and of the strings that are
palindromes themselves, only there. -/
theorem longestPalindrome_isLongest (s : List Char) :
    (Clean s → ∃ r, longestPalindrome s = some r ∧ IsLongestPalindrome s r) ∧
      (s.Palindrome →
        (∃ r, longestPalindrome s = some r ∧ IsLongestPalindrome s r) → Clean s) :=
  ⟨isLongest_of_clean, clean_of_isLongest⟩

theorem longestPalindrome_abbac : ∃ r, longestPalindrome ['a', 'b', 'b', 'a', 'c'] = some r ∧
    IsLongestPalindrome ['a', 'b', 'b', 'a', 'c'] r :=
  (longestPalindrome_isLongest _).1 ⟨by decide, by decide, by decide⟩

/-- The string of `main`. -/
def sample : List Char := ['a', 'a', 'c', 'a', 'b', 'd', 'k', 'a', 'c', 'a', 'a']

/-- The four pairs around `bdk` are counted, and left over for the next pair: what is returned for
`main`'s string does not read the same backwards. -/
theorem not_longestPalindrome_sample :
    ¬ ∃ r, longestPalindrome sample = some r ∧ IsLongestPalindrome sample r := by
  have hrun : longestPalindrome sample = some (sample.drop 1) := by decide
  rintro ⟨r, hr, -, hpal, -⟩
  rw [hrun, Option.some.injEq] at hr
  subst hr
  exact absurd hpal.reverse_eq (by decide)

section PivotIndex

/-- `left += nums[i - 1]`, where there is one. -/
def addLast (left : ℤ) : Option ℤ → Option ℤ
  | none => some left
  | some last => int (left + last)

/-- The loop that looks for the index, from `i` on; `last` is `nums[i - 1]`. -/
def pivotFrom : List ℤ → ℤ → Option ℤ → ℤ → ℤ → Option ℤ
  | [], _, _, _, _ => some (-1)
  | x :: rest, i, last, left, right => do
    let left ← addLast left last
    let right ← int (right - x)
    if left = right then some i
    else do
      let next ← int (i + 1)
      pivotFrom rest next (some x) left right

def pivotIndex (nums : List ℤ) : Option ℤ := do
  let right ← nums.foldlM (fun right it => int (right + it)) 0
  pivotFrom nums 0 none 0 right

/-- The elements on both sides of the index have one sum. -/
def Pivot (nums : List ℤ) (i : ℕ) : Prop := (nums.take i).sum = (nums.drop (i + 1)).sum

/-- No sum of what `nums` begins or ends with leaves the range of `int`, and no index does. -/
structure Countable (nums : List ℤ) : Prop where
  front : ∀ k, -2147483648 ≤ (nums.take k).sum ∧ (nums.take k).sum ≤ 2147483647
  back : ∀ k, -2147483648 ≤ (nums.drop k).sum ∧ (nums.drop k).sum ≤ 2147483647
  length : nums.length ≤ 2147483647

variable {nums pre rest : List ℤ}

theorem total_eq (h : Countable (pre ++ rest)) :
    rest.foldlM (fun right it => int (right + it)) pre.sum = some (pre ++ rest).sum := by
  induction rest generalizing pre with
  | nil =>
    rw [List.append_nil]
    rfl
  | cons x rest ih =>
    have hpre : pre ++ x :: rest = (pre ++ [x]) ++ rest := by rw [List.append_assoc]; rfl
    rw [hpre] at h ⊢
    have hrange := h.front (pre ++ [x]).length
    rw [List.take_left] at hrange
    have hint : int (pre.sum + x) = some (pre ++ [x]).sum := by
      rw [List.sum_append, List.sum_singleton] at hrange ⊢
      exact int_of_le hrange.1 hrange.2
    rw [List.foldlM_cons, hint]
    exact ih h

/-- `left` is the sum of what lies behind the loop as soon as it has been brought up to date, `right`
that of what lies ahead of it. -/
theorem pivotFrom_least {last : Option ℤ} {left : ℤ} (h : Countable (pre ++ rest))
    (hlast : left + last.getD 0 = pre.sum) (hnot : ∀ j < pre.length, ¬ Pivot (pre ++ rest) j) :
    ∃ r, pivotFrom rest pre.length last left rest.sum = some r ∧
      ((r = -1 ∧ ∀ j < (pre ++ rest).length, ¬ Pivot (pre ++ rest) j) ∨
        ∃ i : ℕ, r = i ∧ i < (pre ++ rest).length ∧ Pivot (pre ++ rest) i ∧
          ∀ j < i, ¬ Pivot (pre ++ rest) j) := by
  induction rest generalizing pre last left with
  | nil =>
    rw [List.append_nil] at hnot ⊢
    exact ⟨-1, rfl, Or.inl ⟨rfl, hnot⟩⟩
  | cons x rest ih =>
    have hfront := h.front pre.length
    have hback := h.back (pre.length + 1)
    have hlength := h.length
    have htake : (pre ++ x :: rest).take pre.length = pre := List.take_left
    have hdrop : (pre ++ x :: rest).drop (pre.length + 1) = rest := by
      rw [List.drop_append, List.drop_of_length_le (Nat.le_succ _), Nat.add_sub_cancel_left]
      rfl
    rw [htake] at hfront
    rw [hdrop] at hback
    have hpivot : Pivot (pre ++ x :: rest) pre.length ↔ pre.sum = rest.sum := by
      rw [Pivot, htake, hdrop]
    have hleft : addLast left last = some pre.sum := by
      cases last with
      | none => rw [addLast, ← hlast, Option.getD_none, add_zero]
      | some last =>
        rw [Option.getD_some] at hlast
        rw [addLast, hlast]
        exact int_of_le hfront.1 hfront.2
    have hright : int ((x :: rest).sum - x) = some rest.sum := by
      rw [List.sum_cons, add_sub_cancel_left]
      exact int_of_le hback.1 hback.2
    unfold pivotFrom
    simp only [hleft, hright, Option.bind_eq_bind, Option.bind_some]
    by_cases heq : pre.sum = rest.sum
    · rw [if_pos heq]
      refine ⟨_, rfl, Or.inr ⟨pre.length, rfl, ?_, hpivot.mpr heq, hnot⟩⟩
      simp
    · have hpre : pre ++ x :: rest = (pre ++ [x]) ++ rest := by rw [List.append_assoc]; rfl
      have hnext : int ((pre.length : ℤ) + 1) = some ((pre ++ [x]).length : ℤ) := by
        rw [List.length_append, List.length_cons] at hlength
        rw [List.length_append, List.length_singleton, Nat.cast_add, Nat.cast_one]
        exact int_of_le (by omega) (by omega)
      rw [if_neg heq, hnext, Option.bind_some]
      rw [hpre] at h hnot hpivot ⊢
      refine ih h ?_ ?_
      · rw [List.sum_append, List.sum_singleton]
        rfl
      · intro j hj
        rw [List.length_append, List.length_singleton] at hj
        rcases Nat.lt_succ_iff_lt_or_eq.mp hj with hj | rfl
        · exact hnot j hj
        · exact mt hpivot.mp heq

/-- The first index that has equal sums on both sides is returned, and -1 where there is none. -/
theorem pivotIndex_least (nums : List ℤ) (h : Countable nums) :
    ∃ r, pivotIndex nums = some r ∧
      ((r = -1 ∧ ∀ i < nums.length, ¬ Pivot nums i) ∨
        ∃ i : ℕ, r = i ∧ i < nums.length ∧ Pivot nums i ∧ ∀ j < i, ¬ Pivot nums j) := by
  have hcount : Countable ([] ++ nums) := h
  have htotal := total_eq hcount
  have hlast : (0 : ℤ) + (none : Option ℤ).getD 0 = ([] : List ℤ).sum := rfl
  have hrun := pivotFrom_least hcount hlast fun j hj => absurd hj (Nat.not_lt_zero j)
  rw [pivotIndex]
  rw [List.sum_nil] at htotal
  rw [htotal]
  exact hrun

theorem pivotIndex_least_six : pivotIndex [1, 7, 3, 6, 5, 6] = some 3 ∧
    Pivot [1, 7, 3, 6, 5, 6] 3 ∧ ∀ j < 3, ¬ Pivot [1, 7, 3, 6, 5, 6] j := by
  have hcountable : Countable [1, 7, 3, 6, 5, 6] := by
    refine ⟨fun k => ?_, fun k => ?_, by decide⟩
    · rcases Nat.lt_or_ge k 6 with hk | hk
      · interval_cases k <;> decide
      · rw [List.take_of_length_le hk]
        decide
    · rcases Nat.lt_or_ge k 6 with hk | hk
      · interval_cases k <;> decide
      · rw [List.drop_of_length_le hk]
        decide
  have hrun : pivotIndex [1, 7, 3, 6, 5, 6] = some 3 := by decide
  obtain ⟨r, hr, hleast⟩ := pivotIndex_least _ hcountable
  rw [hrun, Option.some.injEq] at hr
  rcases hleast with ⟨hnone, -⟩ | ⟨i, hi, -, hpivot, hfirst⟩
  · rw [← hr] at hnone
    cases hnone
  · obtain rfl : i = 3 := by omega
    exact ⟨hrun, hpivot, hfirst⟩

end PivotIndex

end MgRaffle.Leetcode
