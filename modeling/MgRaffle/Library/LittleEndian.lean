import Mathlib.Tactic
import Mathlib.Data.List.GetD

namespace LittleEndian

/-- The unsigned value of the first four bytes, the least significant one first. -/
def toNat32 (bs : List UInt8) : ℕ :=
  (bs.getD 0 0).toNat + 256 * (bs.getD 1 0).toNat + 65536 * (bs.getD 2 0).toNat +
    16777216 * (bs.getD 3 0).toNat

/-- A 32-bit signed integer as it lies in memory. -/
def toInt32 (bs : List UInt8) : ℤ :=
  if toNat32 bs < 2147483648 then toNat32 bs else (toNat32 bs : ℤ) - 4294967296

def ofNat32 (n : ℕ) : List UInt8 :=
  [UInt8.ofNat n, UInt8.ofNat (n / 256), UInt8.ofNat (n / 65536), UInt8.ofNat (n / 16777216)]

@[simp] theorem length_ofNat32 (n : ℕ) : (ofNat32 n).length = 4 := rfl

theorem toNat32_ofNat32 (n : ℕ) (bs : List UInt8) :
    toNat32 (ofNat32 n ++ bs) = n % 4294967296 := by
  simp only [toNat32, ofNat32, List.cons_append, List.getD_cons_zero, List.getD_cons_succ,
    UInt8.toNat_ofNat']
  omega

theorem toInt32_ofNat32 {n : ℕ} (h : n < 2147483648) (bs : List UInt8) :
    toInt32 (ofNat32 n ++ bs) = n := by
  have hn : n % 4294967296 = n := Nat.mod_eq_of_lt (by omega)
  rw [toInt32, toNat32_ofNat32, hn, if_pos h]

/-- A number that does not fit is read back as another one. -/
theorem toInt32_congr {bs cs : List UInt8} (h : ∀ i, i < 4 → bs.getD i 0 = cs.getD i 0) :
    toInt32 bs = toInt32 cs := by
  have hnat : toNat32 bs = toNat32 cs := by
    rw [toNat32, toNat32, h 0 (by omega), h 1 (by omega), h 2 (by omega), h 3 (by omega)]
  rw [toInt32, toInt32, hnat]

theorem toInt32_ofNat32_ne {n : ℕ} (h : 2147483648 ≤ n) (bs : List UInt8) :
    toInt32 (ofNat32 n ++ bs) < n := by
  rw [toInt32, toNat32_ofNat32]
  split_ifs <;> omega

theorem toNat32_lt (bs : List UInt8) : toNat32 bs < 4294967296 := by
  have h0 := (bs.getD 0 0).toNat_lt
  have h1 := (bs.getD 1 0).toNat_lt
  have h2 := (bs.getD 2 0).toNat_lt
  have h3 := (bs.getD 3 0).toNat_lt
  unfold toNat32
  omega

theorem le_toInt32 (bs : List UInt8) : -2147483648 ≤ toInt32 bs := by
  unfold toInt32
  split_ifs <;> omega

/-- Up to four bytes are known by their value and their number. -/
theorem eq_of_toNat32_eq {bs cs : List UInt8} (hlen : bs.length = cs.length)
    (hle : bs.length ≤ 4) (h : toNat32 bs = toNat32 cs) : bs = cs := by
  have hlt := fun (ds : List UInt8) i => (ds.getD i 0).toNat_lt
  have hbyte : ∀ i < 4, (bs.getD i 0).toNat = (cs.getD i 0).toNat := by
    unfold toNat32 at h
    have hb0 := hlt bs 0
    have hb1 := hlt bs 1
    have hb2 := hlt bs 2
    have hc0 := hlt cs 0
    have hc1 := hlt cs 1
    have hc2 := hlt cs 2
    intro i hi
    interval_cases i <;> omega
  refine List.ext_getElem hlen ?_
  intro i hi hi'
  have hval := hbyte i (by omega)
  rw [List.getD_eq_getElem bs 0 hi, List.getD_eq_getElem cs 0 hi'] at hval
  exact UInt8.toNat_inj.mp hval

end LittleEndian
