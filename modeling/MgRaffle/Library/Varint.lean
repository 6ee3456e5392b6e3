import Mathlib.Tactic

namespace Varint

/-- Seven bits a byte, the least significant ones first, in at most `k` bytes. -/
def encode : ℕ → ℕ → List UInt8
  | 0, _ => []
  | k + 1, n => if n < 128 then [UInt8.ofNat n] else UInt8.ofNat (n % 128 + 128) :: encode k (n / 128)

def size : ℕ → ℕ → ℕ
  | 0, _ => 0
  | k + 1, n => if n < 128 then 1 else size k (n / 128) + 1

@[simp] theorem length_encode (k n : ℕ) : (encode k n).length = size k n := by
  induction k generalizing n with
  | zero => rfl
  | succ k ih =>
    unfold encode size
    split_ifs
    · rfl
    · rw [List.length_cons, ih]

theorem size_eq_one {k n : ℕ} (h : n < 128) : size (k + 1) n = 1 := if_pos h

theorem size_eq_two {k n : ℕ} (h : 128 ≤ n) (h' : n < 16384) : size (k + 2) n = 2 := by
  rw [size, if_neg (by omega), size_eq_one (by omega)]

theorem one_le_size (k n : ℕ) : 1 ≤ size (k + 1) n := by
  unfold size
  split_ifs <;> omega

theorem size_le (k n : ℕ) : size k n ≤ k := by
  induction k generalizing n with
  | zero => exact le_rfl
  | succ k ih =>
    unfold size
    split_ifs
    · exact Nat.succ_le_succ (Nat.zero_le k)
    · exact Nat.succ_le_succ (ih _)

/-- A number of at most `k` bytes, and the bytes behind it. -/
def decode : ℕ → List UInt8 → Option (ℕ × List UInt8)
  | 0, _ => none
  | _, [] => none
  | k + 1, b :: bs =>
    if b.toNat < 128 then some (b.toNat, bs)
    else (decode k bs).map fun p => (b.toNat - 128 + 128 * p.1, p.2)

variable {k n : ℕ} {bs rest : List UInt8}

theorem decode_encode_of_lt (h : n < 128) :
    decode (k + 1) (encode (k + 1) n ++ rest) = some (n, rest) := by
  have hn : (UInt8.ofNat n).toNat = n := UInt8.toNat_ofNat_of_lt' (h.trans (by decide))
  rw [encode, if_pos h, List.singleton_append, decode, hn, if_pos h]

theorem decode_encode (h : n < 128 ^ (k + 1)) :
    decode (k + 1) (encode (k + 1) n ++ rest) = some (n, rest) := by
  induction k generalizing n with
  | zero => exact decode_encode_of_lt (by omega)
  | succ k ih =>
    by_cases hlt : n < 128
    · exact decode_encode_of_lt hlt
    · have hb : (UInt8.ofNat (n % 128 + 128)).toNat = n % 128 + 128 :=
        UInt8.toNat_ofNat_of_lt' (show n % 128 + 128 < 256 by omega)
      rw [encode, if_neg hlt, List.cons_append, decode, hb, if_neg (by omega),
        ih (by rw [pow_succ] at h; omega), Option.map_some]
      congr 2
      omega

theorem decode_append (h : decode k bs = some (n, rest)) (more : List UInt8) :
    decode k (bs ++ more) = some (n, rest ++ more) := by
  induction k generalizing n bs with
  | zero => cases h
  | succ k ih =>
    cases bs with
    | nil => cases h
    | cons b bs =>
      rw [List.cons_append]
      unfold decode at h ⊢
      split_ifs at h ⊢
      · cases h
        rfl
      · obtain ⟨p, hp, hn⟩ := Option.map_eq_some_iff.mp h
        cases hn
        rw [ih hp, Option.map_some]

theorem decode_length (h : decode k bs = some (n, rest)) : rest.length < bs.length := by
  induction k generalizing n bs with
  | zero => cases h
  | succ k ih =>
    cases bs with
    | nil => cases h
    | cons b bs =>
      unfold decode at h
      split_ifs at h
      · cases h
        exact Nat.lt_succ_self _
      · obtain ⟨p, hp, hn⟩ := Option.map_eq_some_iff.mp h
        cases hn
        exact (ih hp).trans (Nat.lt_succ_self _)

end Varint
